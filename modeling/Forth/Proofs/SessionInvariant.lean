/-
What holds of a machine throughout a session.  The heap keeps its length and is filled from its start
on, dictionary and immediate words only grow, what is marked or begun is defined, no source is left
between commands, and the return stack stays within its limit unless it was above it before.
-/
import Forth.Proofs.Preservation
import Forth.Session

namespace Forth

open Machine

/-- A name that has an entry is listed. -/
theorem Dictionary.mem_words_of_find? {d : Dictionary} {name : String}
    (h : (d.find? name).isSome = true) : name ∈ d.words := by
  rw [Dictionary.find?, Option.isSome_map, List.find?_isSome] at h
  obtain ⟨e, he, hname⟩ := h
  rw [Dictionary.words, List.mem_reverse, List.mem_map]
  exact ⟨e, he, by simpa using hname⟩

theorem Dictionary.words_define (d : Dictionary) (name : String) (op : Op) :
    (d.define name op).words = d.words ++ [name] := by
  simp [Dictionary.words]

@[simp] theorem Dictionary.words_markImmediate (d : Dictionary) (name : String) :
    (d.markImmediate name).words = d.words := by
  simp [Dictionary.words]

theorem Dictionary.immediates_subset_markImmediate (d : Dictionary) (name : String) :
    d.immediates ⊆ (d.markImmediate name).immediates := by
  unfold Dictionary.markImmediate
  split
  · exact List.subset_cons_self _ _
  · exact List.Subset.refl _

/-- Only a listed name becomes immediate. -/
theorem Dictionary.mem_immediates_markImmediate {d : Dictionary} {name other : String}
    (h : other ∈ (d.markImmediate name).immediates) : other ∈ d.immediates ∨ other ∈ d.words := by
  unfold Dictionary.markImmediate at h
  split at h
  · rename_i hmark
    rw [Bool.and_eq_true] at hmark
    rcases List.mem_cons.mp h with rfl | hold
    · exact Or.inr (Dictionary.mem_words_of_find? hmark.1)
    · exact Or.inl hold
  · exact Or.inl h

namespace Machine

/-- The names that the machine refers to are defined, and its heap is not filled beyond its end. -/
structure Sound (m : Machine) : Prop where
  here_le : m.heap.here ≤ m.heap.capacity
  immediates : ∀ name ∈ m.dictionary.immediates, name ∈ m.dictionary.words
  lastWord : ∀ name, m.lastWord = some name → name ∈ m.dictionary.words

/-- What only grows: the filled part of a heap of fixed length, the dictionary and the set of immediate
words.  Entries are listed newest first, so the earlier dictionary is the tail of the later one. -/
structure Grows (m m' : Machine) : Prop where
  capacity : m'.heap.capacity = m.heap.capacity
  here_le : m.heap.here ≤ m'.heap.here
  entries : m.dictionary.entries <:+ m'.dictionary.entries
  immediates : m.dictionary.immediates ⊆ m'.dictionary.immediates

/-- The return stack is within its limit, or no higher than it was. -/
structure Bounded (m m' : Machine) : Prop where
  limit : m'.returnLimit = m.returnLimit
  depth : m'.returns.depth ≤ max m.returns.depth m.returnLimit

/-- What becomes of a machine that executes, in all respects that the session cares for. -/
structure Evolves (m m' : Machine) : Prop where
  grows : m.Grows m'
  bounded : m.Bounded m'
  sound : m.Sound → m'.Sound
  source : m.source = none → m'.source = none

theorem Grows.refl (m : Machine) : m.Grows m :=
  ⟨rfl, Nat.le_refl _, List.suffix_refl _, List.Subset.refl _⟩

theorem Grows.trans {m₁ m₂ m₃ : Machine} (h : m₁.Grows m₂) (h' : m₂.Grows m₃) : m₁.Grows m₃ where
  capacity := h'.capacity.trans h.capacity
  here_le := Nat.le_trans h.here_le h'.here_le
  entries := h.entries.trans h'.entries
  immediates := List.Subset.trans h.immediates h'.immediates

theorem Bounded.of_returns_eq {m m' : Machine} (hreturns : m'.returns = m.returns)
    (hlimit : m'.returnLimit = m.returnLimit) : m.Bounded m' :=
  ⟨hlimit, hreturns ▸ Nat.le_max_left _ _⟩

theorem Bounded.trans {m₁ m₂ m₃ : Machine} (h : m₁.Bounded m₂) (h' : m₂.Bounded m₃) :
    m₁.Bounded m₃ where
  limit := h'.limit.trans h.limit
  depth := by
    have hfirst := h.depth
    have hsecond := h'.depth
    rw [h.limit] at hsecond
    omega

theorem Evolves.trans {m₁ m₂ m₃ : Machine} (h : m₁.Evolves m₂) (h' : m₂.Evolves m₃) :
    m₁.Evolves m₃ where
  grows := h.grows.trans h'.grows
  bounded := h.bounded.trans h'.bounded
  sound := fun hs => h'.sound (h.sound hs)
  source := fun hs => h'.source (h.source hs)

/-- A change of heap and return stack only. -/
theorem Evolves.of_dictionary_eq {m m' : Machine} (hdict : m'.dictionary = m.dictionary)
    (hword : m'.lastWord = m.lastWord) (hsource : m.source = none → m'.source = none)
    (hcapacity : m'.heap.capacity = m.heap.capacity) (hhere : m.heap.here ≤ m'.heap.here)
    (hroom : m.heap.here ≤ m.heap.capacity → m'.heap.here ≤ m.heap.capacity)
    (hbounded : m.Bounded m') : m.Evolves m' where
  grows := ⟨hcapacity, hhere, hdict ▸ List.suffix_refl _, hdict ▸ List.Subset.refl _⟩
  bounded := hbounded
  sound := fun hs => ⟨hcapacity ▸ hroom hs.here_le, hdict ▸ hs.immediates, hword ▸ hdict ▸ hs.lastWord⟩
  source := hsource

/-- A change of what no part of the invariant speaks of. -/
theorem Evolves.of_eq {m m' : Machine} (hdict : m'.dictionary = m.dictionary)
    (hword : m'.lastWord = m.lastWord) (hsource : m.source = none → m'.source = none)
    (hheap : m'.heap = m.heap) (hreturns : m'.returns = m.returns)
    (hlimit : m'.returnLimit = m.returnLimit) : m.Evolves m' := by
  apply Evolves.of_dictionary_eq hdict hword hsource
  · rw [hheap]
  · exact hheap ▸ Nat.le_refl _
  · exact hheap ▸ id
  · exact Bounded.of_returns_eq hreturns hlimit

/-- A change of the dictionary that only adds to it. -/
theorem Evolves.of_dictionary {m m' : Machine}
    (hentries : m.dictionary.entries <:+ m'.dictionary.entries)
    (himmediates : m.dictionary.immediates ⊆ m'.dictionary.immediates)
    (hsound : m.Sound → m'.Sound) (hheap : m'.heap = m.heap) (hreturns : m'.returns = m.returns)
    (hlimit : m'.returnLimit = m.returnLimit) (hsource : m'.source = m.source) : m.Evolves m' where
  grows := ⟨by rw [hheap], hheap ▸ Nat.le_refl _, hentries, himmediates⟩
  bounded := Bounded.of_returns_eq hreturns hlimit
  sound := hsound
  source := fun hs => hsource.trans hs

theorem Evolves.define (m : Machine) (name : String) (op : Op) :
    m.Evolves { m with dictionary := m.dictionary.define name op } := by
  refine Evolves.of_dictionary (List.suffix_cons _ _) (List.Subset.refl _) ?_ rfl rfl rfl rfl
  intro hs
  have hwords : m.dictionary.words ⊆ (m.dictionary.define name op).words := by
    rw [Dictionary.words_define]
    exact List.subset_append_left _ _
  exact ⟨hs.here_le, fun n hn => hwords (hs.immediates n hn), fun n hn => hwords (hs.lastWord n hn)⟩

theorem Evolves.markImmediate (m : Machine) (name : String) :
    m.Evolves { m with dictionary := m.dictionary.markImmediate name } := by
  refine Evolves.of_dictionary (by simp) (Dictionary.immediates_subset_markImmediate _ _) ?_
    rfl rfl rfl rfl
  intro hs
  refine ⟨hs.here_le, ?_, fun n hn => by simpa using hs.lastWord n hn⟩
  intro n hn
  rw [Dictionary.words_markImmediate]
  rcases Dictionary.mem_immediates_markImmediate hn with hold | hnew
  · exact hs.immediates n hold
  · exact hnew

theorem Evolves.beginDefinition (m : Machine) (name : String) :
    m.Evolves { m with
      dictionary := m.dictionary.define name (.body m.heap.here)
      lastWord := some name
      mode := .compile } := by
  refine Evolves.of_dictionary (List.suffix_cons _ _) (List.Subset.refl _) ?_ rfl rfl rfl rfl
  intro hs
  have hdefined := (Evolves.define m name (.body m.heap.here)).sound hs
  refine ⟨hs.here_le, hdefined.immediates, ?_⟩
  intro n hn
  obtain rfl : name = n := Option.some.inj hn
  simp [Dictionary.words_define]

theorem evolves_elementary : Elementary Evolves where
  refl m := Evolves.of_eq rfl rfl id rfl rfl rfl
  trans := Evolves.trans
  data m s := Evolves.of_eq rfl rfl id rfl rfl rfl
  pushReturn m c hdepth := by
    refine Evolves.of_dictionary_eq rfl rfl id rfl (Nat.le_refl _) id ⟨rfl, ?_⟩
    change m.returns.depth + 1 ≤ _
    omega
  popReturn m := by
    refine Evolves.of_dictionary_eq rfl rfl id rfl (Nat.le_refl _) id ⟨rfl, ?_⟩
    change m.returns.depth - 1 ≤ _
    omega
  store m a c :=
    Evolves.of_dictionary_eq rfl rfl id (by simp) (by simp) (by simp) (Bounded.of_returns_eq rfl rfl)
  append m c hroom := by
    refine Evolves.of_dictionary_eq rfl rfl id (by simp) (by simp) ?_ (Bounded.of_returns_eq rfl rfl)
    intro _
    rw [Heap.here_push]
    omega
  ip m a := Evolves.of_eq rfl rfl id rfl rfl rfl
  markImmediate := Evolves.markImmediate
  beginDefinition := Evolves.beginDefinition
  mode m mode := Evolves.of_eq rfl rfl id rfl rfl rfl
  source m s s' hs := Evolves.of_eq rfl rfl (by simp [hs]) rfl rfl rfl
  output m e := Evolves.of_eq rfl rfl id rfl rfl rfl

/-! ### Commands -/

/-- The source that is read in between, and the record of a failure, are no part of the invariant. -/
theorem Evolves.with_source {m m' : Machine} {s : Source}
    (h : { m with source := some s }.Evolves m') (failure : Option Failure) :
    m.Evolves { m' with lastError := failure, source := m.source } where
  grows := ⟨h.grows.capacity, h.grows.here_le, h.grows.entries, h.grows.immediates⟩
  bounded := ⟨h.bounded.limit, h.bounded.depth⟩
  sound := by
    intro hs
    have hsound := h.sound ⟨hs.here_le, hs.immediates, hs.lastWord⟩
    exact ⟨hsound.here_le, hsound.immediates, hsound.lastWord⟩
  source := id

/-- Evaluating a source puts the previous one back. -/
theorem keeps_evalSource (fuel : Nat) (source : Source) :
    Run.Keeps Evolves (evalSource fuel source) := by
  intro m r hr
  have hbuild := evolves_elementary.keeps_build fuel { m with source := some source }
  unfold evalSource at hr
  dsimp only at hr
  split at hr
  · rename_i m' hm'
    cases hr
    exact (hbuild _ hm').with_source m'.lastError
  · rename_i e m' hm'
    cases hr
    exact (hbuild _ hm').with_source _
  · cases hr

end Machine

/-- A relation that holds across all that commands do, but for setting the limit of the return stack. -/
structure Commanded (R : Machine → Machine → Prop) : Prop extends Elementary R where
  define : ∀ m name op, R m { m with dictionary := m.dictionary.define name op }
  evaluation : ∀ fuel source, Run.Keeps R (evalSource fuel source)

namespace Commanded

variable {R : Machine → Machine → Prop}

theorem keeps_load (hR : Commanded R) (fuel : Nat) (path : String) (content : FileContent) :
    Run.Keeps R (load fuel path content) := by
  unfold load
  split
  · exact hR.evaluation fuel _
  · exact DataOnly.run_keeps_lift _ (hR.keeps_throw _)

theorem keeps_appendAll (hR : Commanded R) (cells : List Cell) : Action.Keeps R (appendAll cells) := by
  induction cells with
  | nil => exact hR.keeps_pure _
  | cons c cs ih => exact hR.keeps_bind (hR.keeps_append c) fun _ => ih

theorem keeps_withoutCell (hR : Commanded R) {x : Run Unit} (hx : Run.Keeps R x) :
    Run.Keeps R (withoutCell x) :=
  hR.run_keeps_bind hx fun _ => hR.run_keeps_pure _

theorem keeps_withCell (hR : Commanded R) {x : Action Cell} (hx : Action.Keeps R x) :
    Run.Keeps R (withCell x) :=
  hR.run_keeps_bind (DataOnly.run_keeps_lift _ hx) fun _ => hR.run_keeps_pure _

theorem keeps_emit (hR : Commanded R) (channel : Channel) (text : String) :
    Action.Keeps R (emit channel text) :=
  fun m => hR.output m _

/-- What each command does is kept, if a new limit is. -/
theorem keeps_perform (hR : Commanded R) (fuel : Nat) (c : Command)
    (hlimit : ∀ limit, c = .setReturnLimit limit → Action.Keeps R (setReturnLimit limit)) :
    Run.Keeps R (c.perform fuel) := by
  have hlift : ∀ {x : Action Unit}, Action.Keeps R x → Run.Keeps R (withoutCell x) :=
    fun hx => hR.keeps_withoutCell (DataOnly.run_keeps_lift _ hx)
  cases c with
  | eval text => exact hR.keeps_withoutCell (hR.evaluation fuel _)
  | load path content => exact hR.keeps_withoutCell (hR.keeps_load fuel path content)
  | call op => exact hR.keeps_withoutCell (hR.keeps_call fuel op)
  | run address => exact hR.keeps_withoutCell (hR.keeps_run fuel address)
  | push c => exact hlift (hR.keeps_push c)
  | pop => exact hR.keeps_withCell hR.keeps_pop
  | pushReturn c => exact hlift (hR.keeps_pushReturn c)
  | popReturn => exact hR.keeps_withCell hR.keeps_popReturn
  | fetch address => exact hR.keeps_withCell (hR.keeps_fetch address)
  | store address c => exact hlift (hR.keeps_store address c)
  | append cells => exact hlift (hR.keeps_appendAll cells)
  | define name op => exact hlift fun m => hR.define m name op
  | markImmediate name => exact hlift fun m => hR.markImmediate m name
  | setReturnLimit limit => exact hlift (hlimit limit rfl)
  | print text => exact hlift (hR.keeps_emit _ _)
  | logError text => exact hlift (hR.keeps_emit _ _)
  | printError e => exact hlift fun m => hR.keeps_emit _ _ m

end Commanded

theorem Machine.evolves_commanded : Commanded Evolves where
  toElementary := evolves_elementary
  define := Evolves.define
  evaluation := keeps_evalSource

/-- Every command but the one that sets the limit of the return stack keeps the invariant. -/
theorem keeps_perform (fuel : Nat) (c : Command) (hc : ∀ limit, c ≠ .setReturnLimit limit) :
    Run.Keeps Evolves (c.perform fuel) :=
  evolves_commanded.keeps_perform fuel c fun limit h => absurd h (hc limit)

/-- The machines that a session can come to from a machine.  Each command answered, with success or with
an error, and the next one is performed on what it left. -/
inductive Session (m : Machine) : Machine → Prop where
  | start : Session m m
  | perform {m' : Machine} {r : Outcome (Option Cell)} (fuel : Nat) (c : Command) :
      Session m m' → c.perform fuel m' = some r → Session m (Outcome.machine r)

/-- The machines from which sessions begin: with the primitives only, or booted. -/
def Machine.Fresh (m : Machine) : Prop :=
  (∃ capacity, m = Machine.new capacity) ∨ ∃ fuel capacity, boot fuel capacity = some (.ok () m)

/-- What every command keeps, also one that sets the limit of the return stack. -/
structure Machine.Settled (m m' : Machine) : Prop where
  grows : m.Grows m'
  sound : m.Sound → m'.Sound
  source : m.source = none → m'.source = none

theorem Machine.Settled.perform {m : Machine} {r : Outcome (Option Cell)} {fuel : Nat} {c : Command}
    (h : c.perform fuel m = some r) : m.Settled (Outcome.machine r) := by
  by_cases hc : ∃ limit, c = .setReturnLimit limit
  · obtain ⟨limit, rfl⟩ := hc
    cases h
    refine ⟨⟨rfl, Nat.le_refl _, List.suffix_refl _, List.Subset.refl _⟩, ?_, id⟩
    intro hs
    exact ⟨hs.here_le, hs.immediates, hs.lastWord⟩
  · have hkeeps := keeps_perform fuel c (fun limit h => hc ⟨limit, h⟩) m r h
    exact ⟨hkeeps.grows, hkeeps.sound, hkeeps.source⟩

theorem Session.settled {m m' : Machine} (h : Session m m') : m.Settled m' := by
  induction h with
  | start => exact ⟨Grows.refl m, id, id⟩
  | perform fuel c _ hperform ih =>
      have hlast := Machine.Settled.perform hperform
      exact ⟨ih.grows.trans hlast.grows, fun hs => hlast.sound (ih.sound hs),
        fun hs => hlast.source (ih.source hs)⟩

theorem sound_new (capacity : Nat) : (Machine.new capacity).Sound where
  here_le := Nat.zero_le _
  immediates := by
    change ∀ name ∈ Dictionary.core.immediates, name ∈ Dictionary.core.words
    decide
  lastWord := by simp [Machine.new]

theorem Machine.Fresh.sound {m : Machine} (h : m.Fresh) : m.Sound ∧ m.source = none := by
  rcases h with ⟨capacity, rfl⟩ | ⟨fuel, capacity, hboot⟩
  · exact ⟨sound_new capacity, rfl⟩
  · have hkeeps := keeps_evalSource fuel _ _ _ (boot_eq_some_iff.mp hboot).2
    exact ⟨hkeeps.sound (sound_new capacity), hkeeps.source rfl⟩

/-- The invariant of sessions.  Whatever a session from a fresh machine has come to, it is sound and
reads no source; from there on heap length, filled part, dictionary and immediate words only grow as
stated; and a command that does not set the limit leaves the return stack within the limit or no
higher than it was. -/
theorem session_invariant {m₀ m : Machine} (hfresh : m₀.Fresh) (hsession : Session m₀ m) :
    m.Sound ∧ m.source = none ∧ (∀ m', Session m m' → m.Grows m') ∧
      ∀ fuel c r, (∀ limit, c ≠ .setReturnLimit limit) → Command.perform fuel c m = some r →
        m.Bounded (Outcome.machine r) := by
  obtain ⟨hsound, hsource⟩ := hfresh.sound
  refine ⟨hsession.settled.sound hsound, hsession.settled.source hsource, ?_, ?_⟩
  · intro m' h
    exact h.settled.grows
  · intro fuel c r hc hperform
    exact (keeps_perform fuel c hc m r hperform).bounded

/-- A session that defines an immediate word and then stops at an unknown one, on a heap of four
cells. -/
theorem session_invariant_of_definition :
    ∃ r, (Command.eval ": a 1 ; immediate b").perform 20 (Machine.new 4) = some r ∧
      (Outcome.machine r).Sound ∧ (Outcome.machine r).source = none ∧
        (∀ m', Session (Outcome.machine r) m' → (Outcome.machine r).Grows m') ∧
          ∀ fuel c r', (∀ limit, c ≠ .setReturnLimit limit) →
            Command.perform fuel c (Outcome.machine r) = some r' →
              (Outcome.machine r).Bounded (Outcome.machine r') := by
  have hanswer : ((Command.eval ": a 1 ; immediate b").perform 20 (Machine.new 4)).isSome = true := by
    decide +kernel
  obtain ⟨r, hr⟩ := Option.isSome_iff_exists.mp hanswer
  exact ⟨r, hr, session_invariant (Or.inl ⟨4, rfl⟩) (.perform 20 _ .start hr)⟩

end Forth

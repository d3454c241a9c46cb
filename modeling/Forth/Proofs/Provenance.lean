/-
Where operations come from.  No word makes an operation out of a number, so every operation that a cell
holds has come out of the dictionary at some time, directly or by way of other cells, and what was listed
there once is listed for ever.
-/
import Forth.Proofs.Insulation

namespace Forth

open Machine Run

namespace Machine

/-- The operation has an entry, and if it is a body, it begins in the filled part of the heap or right
behind. -/
structure Lists (m : Machine) (op : Op) : Prop where
  listed : ∃ e ∈ m.dictionary.entries, e.op = op
  begun : ∀ a, op = .body a → a ≤ m.heap.here

/-- If the cell is an operation, it is listed. -/
def Attests (m : Machine) (c : Cell) : Prop :=
  ∀ op, c = .op op → m.Lists op

/-- No entry of the dictionary begins behind the end of the filled heap. -/
def Dated (m : Machine) : Prop :=
  ∀ e ∈ m.dictionary.entries, ∀ a, e.op = .body a → a ≤ m.heap.here

/-- All operations of the machine are listed. -/
structure Genuine (m : Machine) : Prop where
  core : Dictionary.core.entries <:+ m.dictionary.entries
  dated : m.Dated
  cells : m.HoldsOnly m.Attests

variable {m m' : Machine} {op : Op} {c : Cell}

theorem Lists.grows (h : m.Lists op) (hgrows : m.Grows m') : m'.Lists op where
  listed := by
    obtain ⟨e, he, hop⟩ := h.listed
    exact ⟨e, hgrows.entries.subset he, hop⟩
  begun a ha := Nat.le_trans (h.begun a ha) hgrows.here_le

theorem Attests.grows (h : m.Attests c) (hgrows : m.Grows m') : m'.Attests c :=
  fun op hc => (h op hc).grows hgrows

/-- A definition that is begun gets the next heap cell, and the end of the filled heap never moves back. -/
theorem dated_elementary : Elementary fun m m' => m.Dated → m'.Dated where
  refl _ := id
  trans h h' hm := h' (h hm)
  data _ _ := id
  pushReturn _ _ _ := id
  popReturn _ := id
  store _ _ _ := id
  append m c _ hm e he a ha := by
    rw [Heap.here_push]
    exact Nat.le_succ_of_le (hm e he a ha)
  ip _ _ := id
  markImmediate m name hm := by
    unfold Dated
    rw [Dictionary.entries_markImmediate]
    exact hm
  beginDefinition m name hm := by
    intro e he a ha
    rcases List.mem_cons.mp he with rfl | hold
    · cases ha
      exact Nat.le_refl _
    · exact hm e hold a ha
  mode _ _ := id
  source _ _ _ _ := id
  output _ _ := id

namespace Genuine

theorem lists_of_mem (h : m.Genuine) {e : Entry} (he : e ∈ m.dictionary.entries) : m.Lists e.op :=
  ⟨⟨e, he, rfl⟩, h.dated e he⟩

theorem attests_core (h : m.Genuine) {e : Entry} (he : e ∈ Dictionary.core.entries) :
    m.Attests (.op e.op) := by
  intro op hop
  cases hop
  exact h.lists_of_mem (h.core.subset he)

theorem attests_find? (h : m.Genuine) {word : String} (hfind : m.dictionary.find? word = some op) :
    m.Attests (.op op) := by
  intro op' hop
  cases hop
  obtain ⟨e, he, rfl⟩ := Option.map_eq_some_iff.mp hfind
  exact h.lists_of_mem (List.mem_of_find?_eq_some he)

/-- What is read, and the record of a failure, are no part of it. -/
theorem with_source (h : m.Genuine) (source : Option Source) (failure : Option Failure) :
    { m with source := source, lastError := failure }.Genuine := by
  have hlists : ∀ op, m.Lists op →
      Lists { m with source := source, lastError := failure } op :=
    fun op hop => ⟨hop.listed, hop.begun⟩
  have hcells := h.cells.mono (B := Attests { m with source := source, lastError := failure })
    fun c hc op hop => hlists op (hc op hop)
  exact ⟨h.core, h.dated, hcells.data, hcells.returns, hcells.heap⟩

end Genuine

end Machine

namespace Pairing

variable {A : Cell → Prop}

/-- A machine beside itself, as long as all its cells have a property. -/
def holding (A : Cell → Prop) : Pairing where
  related m m' := m.HoldsOnly A ∧ m' = m
  excused _ := False
  admits := A
  allows _ _ := True

/-- Execution passes cells on and makes new ones that are numbers, flags or the end marker. -/
theorem onCode_holding (hint : ∀ n, A (.int n)) (hflag : ∀ b, A (.flag b)) (hexit : A (.op .exit)) :
    OnCode (holding A) where
  admits_int := hint
  admits_flag := hflag
  admits_data h := h.1.data
  data h := h.2 ▸ rfl
  render h _ := h.2 ▸ rfl
  withData := by
    rintro m _ s ⟨hcells, rfl⟩ hs
    exact ⟨⟨hs, hcells.returns, hcells.heap⟩, rfl⟩
  withOutput := by
    rintro m _ e ⟨hcells, rfl⟩
    exact ⟨⟨hcells.data, hcells.returns, hcells.heap⟩, rfl⟩
  admits_exit := hexit
  ip h := h.2 ▸ rfl
  withIp := by
    rintro m _ a ⟨hcells, rfl⟩
    exact ⟨⟨hcells.data, hcells.returns, hcells.heap⟩, rfl⟩
  admits_returns h := h.1.returns
  returns h := h.2 ▸ rfl
  withReturns := by
    rintro m _ s ⟨hcells, rfl⟩ hs
    exact ⟨⟨hcells.data, hs, hcells.heap⟩, rfl⟩
  returnLimit h := Or.inl (h.2 ▸ rfl)
  here h := h.2 ▸ rfl
  get? := by
    rintro m _ a c ⟨hcells, rfl⟩ hcell
    exact ⟨hcells.heap c (Array.mem_of_getElem? hcell), hcell⟩
  outside := by
    rintro m _ a ⟨_, rfl⟩ hcell
    exact Or.inl hcell
  withSet := by
    rintro m _ a c ⟨hcells, rfl⟩ _ hc
    exact ⟨hcells.set a hc, rfl⟩
  withPush := by
    rintro m _ c ⟨hcells, rfl⟩ _ hc
    exact ⟨hcells.push hc, rfl⟩
  lastWord h := h.2 ▸ rfl
  withImmediate := by
    rintro m _ name ⟨hcells, rfl⟩ _
    exact ⟨⟨hcells.data, hcells.returns, hcells.heap⟩, rfl⟩
  withDefinition := by
    rintro m _ name ⟨hcells, rfl⟩
    exact ⟨⟨hcells.data, hcells.returns, hcells.heap⟩, rfl⟩
  withMode := by
    rintro m _ mode ⟨hcells, rfl⟩
    exact ⟨⟨hcells.data, hcells.returns, hcells.heap⟩, rfl⟩
  words h _ := h.2 ▸ rfl
  nextToken := by
    rintro m _ ⟨hcells, rfl⟩ _
    refine readsAlike_of_source rfl ⟨hcells, rfl⟩ fun s _ => ?_
    exact ⟨⟨hcells.data, hcells.returns, hcells.heap⟩, rfl⟩
  comment := by
    rintro m _ ⟨hcells, rfl⟩ _
    exact ⟨⟨hcells.data, hcells.returns, hcells.heap⟩, rfl⟩

theorem onReading_holding (hint : ∀ n, A (.int n)) (hflag : ∀ b, A (.flag b)) (hexit : A (.op .exit))
    (hlit : A (.op (.primitive .lit))) : OnReading (holding A) where
  toOnSteps := (onCode_holding hint hflag hexit).onSteps
  admits_lit := hlit
  mode h := h.2 ▸ rfl
  dictionary h := h.2 ▸ rfl

/-- Whatever the machine answers, its cells still have the property. -/
theorem holdsOnly_of_answers {α : Type} {r : Outcome α} {o : Option (Outcome α)}
    (h : (holding A).Answers (some r) o) : (Outcome.machine r).HoldsOnly A := by
  cases r with
  | ok a m =>
      obtain ⟨_, _, hcells, _⟩ := h
      exact hcells
  | error e m =>
      rcases h with hexcused | ⟨_, _, hcells, _⟩
      · exact hexcused.elim
      · exact hcells

theorem holdsOnly_of_agrees {α : Type} {V : α → Prop} {r o : Outcome α}
    (h : (holding A).Agrees V r o) : (Outcome.machine r).HoldsOnly A :=
  holdsOnly_of_answers (answers_of_agrees h)

end Pairing

namespace Machine.Genuine

variable {m : Machine} {r : Outcome Unit}

/-- One word.  Whatever it leads to can only pass on what was there, and what was attested before it is
attested behind it. -/
theorem dispatch (h : m.Genuine) {fuel : Nat} {word : String}
    (hr : Machine.dispatch fuel word m = some r) : (Outcome.machine r).Genuine := by
  have hgrows := (evolves_elementary.keeps_dispatch fuel word m r hr).grows
  have hreading : Pairing.OnReading (Pairing.holding m.Attests) :=
    Pairing.onReading_holding (fun n op hop => by cases hop) (fun b op hop => by cases hop)
      (h.attests_core (e := ⟨"exit", .exit⟩) (by decide))
      (h.attests_core (e := ⟨"lit", .primitive .lit⟩) (by decide))
  have hanswers : (Pairing.holding m.Attests).Answers (Machine.dispatch fuel word m)
      (Machine.dispatch fuel word m) :=
    hreading.answers_dispatch fuel ⟨h.cells, rfl⟩ (fun op hfind => h.attests_find? hfind)
      fun _ _ _ => trivial
  rw [hr] at hanswers
  have hcells := Pairing.holdsOnly_of_answers hanswers
  exact ⟨h.core.trans hgrows.entries, dated_elementary.keeps_dispatch fuel word m r hr h.dated,
    hcells.mono fun c hc => hc.grows hgrows⟩

theorem nextToken (h : m.Genuine) : (Outcome.machine (Machine.nextToken m)).Genuine := by
  unfold Machine.nextToken
  split
  · exact h.with_source _ m.lastError
  · exact h

theorem build (h : m.Genuine) {fuel : Nat} (hr : Machine.build fuel m = some r) :
    (Outcome.machine r).Genuine := by
  induction fuel generalizing m with
  | zero => cases hr
  | succ fuel ih =>
      have hread := h.nextToken
      rw [Machine.build] at hr
      rcases of_lift_bind_eq_some hr with ⟨token, m₁, hnext, hrest⟩ | ⟨e, m₁, hnext, rfl⟩
      · rw [hnext] at hread
        cases token with
        | none =>
            cases hrest
            exact hread
        | some token =>
            rcases of_bind_eq_some hrest with ⟨_, m₂, hword, hrest⟩ | ⟨e, m₂, hword, rfl⟩
            · exact ih (dispatch hread hword) hrest
            · exact dispatch hread hword
      · rw [hnext] at hread
        exact hread

theorem evalSource (h : m.Genuine) {fuel : Nat} {source : Source}
    (hr : Machine.evalSource fuel source m = some r) : (Outcome.machine r).Genuine := by
  rw [evalSource_eq] at hr
  obtain ⟨r₀, hr₀, rfl⟩ := Option.map_eq_some_iff.mp hr
  have hend := build (h.with_source (some source) m.lastError) hr₀
  cases r₀ with
  | ok _ m₁ => exact hend.with_source m.source m₁.lastError
  | error e m₁ => exact hend.with_source m.source _

end Machine.Genuine

/-- The dictionary of a new machine lists no bodies. -/
theorem Dictionary.op_ne_body_of_mem_core {e : Entry} (he : e ∈ Dictionary.core.entries) (a : Nat) :
    e.op ≠ .body a := by
  have hops : ∀ e ∈ Dictionary.core.entries, e.op = .exit ∨
      e.op ∈ (Dictionary.primitivesBeforeExit ++ Dictionary.primitivesAfterExit).map Op.primitive := by
    decide
  intro hbody
  rcases hops e he with hexit | hprimitive
  · rw [hbody] at hexit
    cases hexit
  · obtain ⟨p, _, hp⟩ := List.mem_map.mp hprimitive
    rw [hbody] at hp
    cases hp

theorem genuine_new (capacity : Nat) : (Machine.new capacity).Genuine where
  core := List.suffix_refl _
  dated e he a ha := absurd ha (Dictionary.op_ne_body_of_mem_core he a)
  cells := by
    refine ⟨by simp [Machine.new], by simp [Machine.new], fun c hc op hop => ?_⟩
    obtain ⟨_, rfl⟩ := Array.mem_replicate.mp hc
    cases hop

theorem Machine.Fresh.genuine {m : Machine} (h : m.Fresh) : m.Genuine := by
  rcases h with ⟨capacity, rfl⟩ | ⟨fuel, capacity, hboot⟩
  · exact genuine_new capacity
  · exact (genuine_new capacity).evalSource (boot_eq_some_iff.mp hboot).2

/-- The machines that evaluations lead to from a machine, one after another.  Each of them answered, with
success or with an error, and the next one went on with what it left. -/
inductive Evaluated (m₀ : Machine) : Machine → Prop where
  | start : Evaluated m₀ m₀
  | eval {m : Machine} {r : Outcome Unit} (fuel : Nat) (text : String) :
      Evaluated m₀ m → eval fuel text m = some r → Evaluated m₀ (Outcome.machine r)

theorem Evaluated.genuine {m₀ m : Machine} (h : Evaluated m₀ m) (hm : m₀.Genuine) : m.Genuine := by
  induction h with
  | start => exact hm
  | eval fuel text _ heval ih => exact ih.evalSource heval

theorem Evaluated.sound {m₀ m : Machine} (h : Evaluated m₀ m) (hm : m₀.Sound) : m.Sound := by
  induction h with
  | start => exact hm
  | eval fuel text _ heval ih => exact (keeps_evalSource fuel _ _ _ heval).sound ih

/-- No text makes an operation of its own.  Whatever texts have been evaluated on a fresh machine, every
operation in a heap cell, on a stack or in the dictionary has an entry in the dictionary, and the bodies
among them begin in the filled part of the heap or right behind it. -/
theorem operations_have_entries {m₀ m : Machine} (hfresh : m₀.Fresh) (h : Evaluated m₀ m) (op : Op)
    (hop : .op op ∈ m.heap.cells ∨ .op op ∈ m.data.cells ∨ .op op ∈ m.returns.cells ∨
      ∃ e ∈ m.dictionary.entries, e.op = op) :
    (∃ e ∈ m.dictionary.entries, e.op = op) ∧ ∀ a, op = .body a → a ≤ m.heap.here := by
  have hgenuine := h.genuine hfresh.genuine
  have hlists : m.Lists op := by
    rcases hop with hheap | hdata | hreturns | ⟨e, he, rfl⟩
    · exact hgenuine.cells.heap _ hheap op rfl
    · exact hgenuine.cells.data _ hdata op rfl
    · exact hgenuine.cells.returns _ hreturns op rfl
    · exact hgenuine.lists_of_mem he
  exact ⟨hlists.listed, hlists.begun⟩

/-- A body that was taken from compiled code and stored elsewhere, by a text that then fails. -/
theorem operations_have_entries_of_stored_body :
    ∃ m, Evaluated (Machine.new 12) m ∧ m.heap.get? 10 = some (.op (.body 0)) ∧
      (∃ e ∈ m.dictionary.entries, e.op = .body 0) ∧ ∀ a, Op.body 0 = .body a → a ≤ m.heap.here := by
  have hrun : (eval 20 ": b 7 ; : c ['] b 10 ! ;").passes (Machine.new 12) (fun m =>
      (eval 20 "c d").fails m fun _ m' => decide (m'.heap.get? 10 = some (.op (.body 0)))) = true := by
    decide +kernel
  obtain ⟨_, m, hm, hsecond⟩ := of_passes hrun
  obtain ⟨e, m', hm', htest⟩ := of_fails hsecond
  have hcell : m'.heap.get? 10 = some (.op (.body 0)) := of_decide_eq_true htest
  have hmet : Evaluated (Machine.new 12) m' := .eval 20 "c d" (.eval 20 _ .start hm) hm'
  exact ⟨m', hmet, hcell, operations_have_entries (.inl ⟨12, rfl⟩) hmet (.body 0)
    (.inl (Array.mem_of_getElem? hcell))⟩

end Forth

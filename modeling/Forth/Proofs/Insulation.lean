/-
Early binding.  A call finds everything that it executes in the heap and not under its name, so entries
that are put into the dictionary behind its back change nothing but the dictionary, whatever names they
shadow.  Only the word that prints the dictionary itself can tell the difference.
-/
import Forth.Proofs.Pairing
import Forth.Proofs.SessionInvariant

namespace Forth

open Machine Run

/-! ### Machines in the middle of a session -/

/-- The machines that are met from a machine on: between commands, and in the middle of one, where any
source may be read and the instruction pointer may stand anywhere. -/
inductive Reachable (m₀ : Machine) : Machine → Prop where
  | start : Reachable m₀ m₀
  | command {m : Machine} {r : Outcome (Option Cell)} (fuel : Nat) (c : Command) :
      Reachable m₀ m → c.perform fuel m = some r → Reachable m₀ (Outcome.machine r)
  | reading {m : Machine} (source : Option Source) :
      Reachable m₀ m → Reachable m₀ { m with source := source }
  | word {m : Machine} {r : Outcome Unit} (fuel : Nat) (text : String) :
      Reachable m₀ m → dispatch fuel text m = some r → Reachable m₀ (Outcome.machine r)
  | entry {m : Machine} (address : Nat) : Reachable m₀ m → Reachable m₀ { m with ip := address }
  | step {m : Machine} (nested : Nat) :
      Reachable m₀ m → Reachable m₀ (Outcome.machine (step nested m))

/-- In the middle of a session, too, the dictionary has only grown and names are defined. -/
theorem Reachable.grows {m₀ m : Machine} (h : Reachable m₀ m) : m₀.Grows m ∧ (m₀.Sound → m.Sound) := by
  have hevolves : ∀ {m₁ m₂ : Machine}, m₀.Grows m₁ ∧ (m₀.Sound → m₁.Sound) → m₁.Evolves m₂ →
      m₀.Grows m₂ ∧ (m₀.Sound → m₂.Sound) :=
    fun h₁ h₂ => ⟨h₁.1.trans h₂.grows, fun hs => h₂.sound (h₁.2 hs)⟩
  induction h with
  | start => exact ⟨Grows.refl m₀, id⟩
  | command fuel c _ hperform ih =>
      have hsettled := Machine.Settled.perform hperform
      exact ⟨ih.1.trans hsettled.grows, fun hs => hsettled.sound (ih.2 hs)⟩
  | reading source _ ih =>
      refine ⟨⟨ih.1.capacity, ih.1.here_le, ih.1.entries, ih.1.immediates⟩, fun hs => ?_⟩
      exact ⟨(ih.2 hs).here_le, (ih.2 hs).immediates, (ih.2 hs).lastWord⟩
  | word fuel text _ hdispatch ih =>
      exact hevolves ih (evolves_elementary.keeps_dispatch fuel text _ _ hdispatch)
  | entry address _ ih => exact hevolves ih (evolves_elementary.ip _ address)
  | step nested _ ih => exact hevolves ih (evolves_elementary.keeps_step nested _)

/-- A fresh machine knows the primitives. -/
theorem Machine.Fresh.core_suffix {m : Machine} (h : m.Fresh) :
    Dictionary.core.entries <:+ m.dictionary.entries := by
  rcases h with ⟨capacity, rfl⟩ | ⟨fuel, capacity, hboot⟩
  · exact List.suffix_refl _
  · exact (keeps_evalSource fuel _ _ _ (boot_eq_some_iff.mp hboot).2).grows.entries

/-! ### Dictionaries with entries put in -/

namespace Dictionary

/-- The dictionary with other entries. -/
def withEntries (d : Dictionary) (entries : List Entry) : Dictionary :=
  { d with entries := entries }

theorem isSome_find?_iff {d : Dictionary} {name : String} :
    (d.find? name).isSome = true ↔ name ∈ d.words := by
  simp [find?, words, List.find?_isSome]

/-- The oldest entry of an operation decides on its name. -/
theorem nameOf?_withEntries {d d' : Dictionary} {base new new' : List Entry} {op : Op}
    (hop : ∃ e ∈ base, e.op = op) :
    (d.withEntries (new ++ base)).nameOf? op = (d'.withEntries (new' ++ base)).nameOf? op := by
  have hsome : (base.reverse.find? fun e => e.op == op).isSome = true := by
    obtain ⟨e, he, hop⟩ := hop
    exact List.find?_isSome.mpr ⟨e, List.mem_reverse.mpr he, beq_iff_eq.mpr hop⟩
  simp only [nameOf?, withEntries, List.reverse_append, List.find?_append, Option.or_of_isSome hsome]

/-- A word that is listed is marked, whatever else is listed. -/
theorem markImmediate_withEntries {d : Dictionary} {name : String} {entries : List Entry}
    (hname : name ∈ d.words) (hentries : d.entries ⊆ entries) :
    (d.withEntries entries).markImmediate name = (d.markImmediate name).withEntries entries := by
  have hlisted : name ∈ (d.withEntries entries).words := by
    rw [words, List.mem_reverse] at hname ⊢
    exact List.map_subset Entry.name hentries hname
  simp only [markImmediate, isSome_find?_iff.mpr hname, isSome_find?_iff.mpr hlisted, Bool.true_and]
  change (if (!d.isImmediate name) = true then _ else _) = _
  split <;> rfl

end Dictionary

/-- The machine with other entries in its dictionary. -/
def Machine.withEntries (m : Machine) (entries : List Entry) : Machine :=
  { m with dictionary := m.dictionary.withEntries entries }

def Outcome.withEntries {α : Type} (entries : List Entry) : Outcome α → Outcome α
  | .ok a m => .ok a (m.withEntries entries)
  | .error e m => .error e (m.withEntries entries)

/-- The operation is in no cell of the machine. -/
structure Machine.Lacks (m : Machine) (op : Op) : Prop where
  data : .op op ∉ m.data.cells
  returns : .op op ∉ m.returns.cells
  heap : .op op ∉ m.heap.cells

theorem Machine.lacks_iff {m : Machine} {op : Op} : m.Lacks op ↔
    .op op ∉ m.data.cells ∧ .op op ∉ m.returns.cells ∧ .op op ∉ m.heap.cells :=
  ⟨fun h => ⟨h.data, h.returns, h.heap⟩, fun h => ⟨h.1, h.2.1, h.2.2⟩⟩

instance (m : Machine) (op : Op) : Decidable (m.Lacks op) :=
  decidable_of_iff _ Machine.lacks_iff.symm

theorem Machine.Lacks.holdsOnly {m : Machine} {op : Op} (h : m.Lacks op) :
    m.HoldsOnly fun c => c ≠ .op op :=
  ⟨fun _ hc heq => h.data (heq ▸ hc), fun _ hc heq => h.returns (heq ▸ hc),
    fun _ hc heq => h.heap (heq ▸ hc)⟩

theorem Machine.HoldsOnly.lacks {m : Machine} {op : Op} (h : m.HoldsOnly fun c => c ≠ .op op) :
    m.Lacks op :=
  ⟨fun hc => h.data _ hc rfl, fun hc => h.returns _ hc rfl, fun hc => h.heap _ hc rfl⟩

namespace Pairing

variable {base extra : List Entry}

/-- A machine whose dictionary has grown from a base, beside one in which entries were put behind that
base. -/
structure Insulated (base extra : List Entry) (m m' : Machine) : Prop where
  lacks : m.Lacks (.primitive .words)
  lastWord : ∀ name, m.lastWord = some name → name ∈ m.dictionary.words
  entries : ∃ new, m.dictionary.entries = new ++ base ∧ m' = m.withEntries (new ++ extra ++ base)

/-- Neither machine may come to list its dictionary. -/
def insulation (base extra : List Entry) : Pairing where
  related := Insulated base extra
  excused _ := False
  admits c := c ≠ .op (.primitive .words)
  allows _ _ := True

theorem onCode_insulation (extra : List Entry) (hbase : ∀ p, ∃ e ∈ base, e.op = .primitive p) :
    OnCode (insulation base extra) where
  admits_int _ h := by cases h
  admits_flag _ h := by cases h
  admits_data h := h.lacks.holdsOnly.data
  data := by
    rintro m _ ⟨_, _, new, _, rfl⟩
    rfl
  render := by
    rintro m _ ⟨_, _, new, hentries, rfl⟩ c
    have hdictionary : m.dictionary = m.dictionary.withEntries (new ++ base) := by
      rw [← hentries]
      rfl
    cases c with
    | op o =>
        cases o with
        | primitive p =>
            have hname : (m.dictionary.withEntries (new ++ base)).nameOf? (.primitive p) =
                (m.dictionary.withEntries (new ++ extra ++ base)).nameOf? (.primitive p) :=
              Dictionary.nameOf?_withEntries (hbase p)
            rw [← hdictionary] at hname
            simp only [Machine.render, Dictionary.render, Machine.withEntries, hname]
        | _ => rfl
    | _ => rfl
  withData := by
    rintro m _ s ⟨hlacks, hlast, new, hentries, rfl⟩ hs
    exact ⟨⟨fun hc => hs _ hc rfl, hlacks.returns, hlacks.heap⟩, hlast, new, hentries, rfl⟩
  withOutput := by
    rintro m _ e ⟨hlacks, hlast, new, hentries, rfl⟩
    exact ⟨⟨hlacks.data, hlacks.returns, hlacks.heap⟩, hlast, new, hentries, rfl⟩
  admits_exit h := by cases h
  ip := by
    rintro m _ ⟨_, _, new, _, rfl⟩
    rfl
  withIp := by
    rintro m _ a ⟨hlacks, hlast, new, hentries, rfl⟩
    exact ⟨⟨hlacks.data, hlacks.returns, hlacks.heap⟩, hlast, new, hentries, rfl⟩
  admits_returns h := h.lacks.holdsOnly.returns
  returns := by
    rintro m _ ⟨_, _, new, _, rfl⟩
    rfl
  withReturns := by
    rintro m _ s ⟨hlacks, hlast, new, hentries, rfl⟩ hs
    exact ⟨⟨hlacks.data, fun hc => hs _ hc rfl, hlacks.heap⟩, hlast, new, hentries, rfl⟩
  returnLimit := by
    rintro m _ ⟨_, _, new, _, rfl⟩
    exact Or.inl rfl
  here := by
    rintro m _ ⟨_, _, new, _, rfl⟩
    rfl
  get? := by
    rintro m _ a c ⟨hlacks, _, new, _, rfl⟩ hcell
    exact ⟨hlacks.holdsOnly.heap c (Array.mem_of_getElem? hcell), hcell⟩
  outside := by
    rintro m _ a ⟨_, _, new, _, rfl⟩ hcell
    exact Or.inl hcell
  withSet := by
    rintro m _ a c ⟨hlacks, hlast, new, hentries, rfl⟩ _ hc
    exact ⟨(hlacks.holdsOnly.set a hc).lacks, hlast, new, hentries, rfl⟩
  withPush := by
    rintro m _ c ⟨hlacks, hlast, new, hentries, rfl⟩ _ hc
    exact ⟨(hlacks.holdsOnly.push hc).lacks, hlast, new, hentries, rfl⟩
  lastWord := by
    rintro m _ ⟨_, _, new, _, rfl⟩
    rfl
  withImmediate := by
    rintro m _ name ⟨hlacks, hlast, new, hentries, rfl⟩ hname
    have hsubset : m.dictionary.entries ⊆ new ++ extra ++ base := by
      rw [hentries, List.append_assoc]
      exact List.append_subset.mpr ⟨List.subset_append_left _ _, fun e he => by simp [he]⟩
    refine ⟨⟨hlacks.data, hlacks.returns, hlacks.heap⟩, ?_, new, ?_, ?_⟩
    · intro n hn
      rw [Dictionary.words_markImmediate]
      exact hlast n hn
    · rw [Dictionary.entries_markImmediate, hentries]
    · simp only [Machine.withEntries, Dictionary.markImmediate_withEntries (hlast name hname) hsubset]
  withDefinition := by
    rintro m _ name ⟨hlacks, hlast, new, hentries, rfl⟩
    refine ⟨⟨hlacks.data, hlacks.returns, hlacks.heap⟩, ?_, ⟨name, .body m.heap.here⟩ :: new, ?_, rfl⟩
    · intro n hn
      cases hn
      rw [Dictionary.words_define]
      exact List.mem_append_right _ List.mem_cons_self
    · rw [Dictionary.entries_define, hentries, List.cons_append]
  withMode := by
    rintro m _ mode ⟨hlacks, hlast, new, hentries, rfl⟩
    exact ⟨⟨hlacks.data, hlacks.returns, hlacks.heap⟩, hlast, new, hentries, rfl⟩
  words _ h := absurd rfl h
  nextToken := by
    rintro m _ ⟨hlacks, hlast, new, hentries, rfl⟩ _
    refine readsAlike_of_source rfl ⟨hlacks, hlast, new, hentries, rfl⟩ fun s _ => ?_
    exact ⟨⟨hlacks.data, hlacks.returns, hlacks.heap⟩, hlast, new, hentries, rfl⟩
  comment := by
    rintro m _ ⟨hlacks, hlast, new, hentries, rfl⟩ _
    exact ⟨⟨hlacks.data, hlacks.returns, hlacks.heap⟩, hlast, new, hentries, rfl⟩

end Pairing

/-- Early binding.  Wherever a call is made in a session, also in the middle of an evaluation, it
answers alike with and without extra entries in the dictionary, if it cannot come to list the
dictionary: with the same result, and the same machine but for the extra entries, which stay where they
were put. -/
theorem call_insulated {m₀ m : Machine} (hfresh : m₀.Fresh) (hm : Reachable m₀ m) {op : Op}
    (hop : op ≠ .primitive .words) (hwords : m.Lacks (.primitive .words)) (extra : List Entry) :
    (∀ r, Reaches (fun fuel => call fuel op) m r →
      ∃ new, (Outcome.machine r).dictionary.entries = new ++ m.dictionary.entries ∧
        Reaches (fun fuel => call fuel op) (m.withEntries (extra ++ m.dictionary.entries))
          (r.withEntries (new ++ extra ++ m.dictionary.entries))) ∧
      ∀ r', Reaches (fun fuel => call fuel op) (m.withEntries (extra ++ m.dictionary.entries)) r' →
        ∃ r, Reaches (fun fuel => call fuel op) m r := by
  obtain ⟨hgrows, hsound⟩ := hm.grows
  have hbase : ∀ p, ∃ e ∈ m.dictionary.entries, e.op = .primitive p := by
    intro p
    obtain ⟨e, he, hp⟩ : ∃ e ∈ Dictionary.core.entries, e.op = .primitive p := by
      cases p <;> decide
    exact ⟨e, (hfresh.core_suffix.trans hgrows.entries).subset he, hp⟩
  have hrelated : Pairing.Insulated m.dictionary.entries extra m
      (m.withEntries (extra ++ m.dictionary.entries)) :=
    ⟨hwords, (hsound hfresh.sound.1).lastWord, [], rfl, rfl⟩
  have hanswers : ∀ fuel, (Pairing.insulation m.dictionary.entries extra).Answers (call fuel op m)
      (call fuel op (m.withEntries (extra ++ m.dictionary.entries))) :=
    fun fuel => (Pairing.onCode_insulation extra hbase).answers_call fuel hrelated
      (by simpa [Pairing.insulation] using hop) fun _ _ _ => trivial
  refine ⟨fun r hr => ?_, fun r' hr' => Pairing.reaches_of_reaches hanswers hr'⟩
  cases r with
  | ok a m₁ =>
      obtain ⟨_, hr', _, _, new, hentries, rfl⟩ := Pairing.reaches_ok hanswers hr
      exact ⟨new, hentries, hr'⟩
  | error e m₁ =>
      rcases Pairing.reaches_error hanswers hr with hexcused | ⟨_, hr', _, _, new, hentries, rfl⟩
      · exact hexcused.elim
      · exact ⟨new, hentries, hr'⟩

/-- A word that begins a definition, called while a text is read and with its own name shadowed. -/
theorem call_insulated_of_defining_word :
    ∃ (m : Machine) (r : Outcome Unit), Reachable (Machine.new 4) m ∧ m.Lacks (.primitive .words) ∧
      (∀ r, Reaches (fun fuel => call fuel (.body 0)) m r →
        ∃ new, (Outcome.machine r).dictionary.entries = new ++ m.dictionary.entries ∧
          Reaches (fun fuel => call fuel (.body 0))
            (m.withEntries ([⟨"def", .exit⟩] ++ m.dictionary.entries))
            (r.withEntries (new ++ [⟨"def", .exit⟩] ++ m.dictionary.entries))) ∧
      Reaches (fun fuel => call fuel (.body 0)) m r ∧
      (Outcome.machine r).dictionary.find? "b" = some (.body 2) := by
  have hrun : ((Command.eval ": def : ;").perform 20).passes (Machine.new 4) (fun m₁ =>
      let m : Machine := { m₁ with source := some (Source.ofChars bufferName " b".toList) }
      decide (m.Lacks (.primitive .words)) &&
        (call 20 (.body 0)).passes m fun m₂ =>
          decide (m₂.dictionary.find? "b" = some (.body 2))) = true := by
    decide +kernel
  obtain ⟨_, m₁, hm₁, htest⟩ := of_passes hrun
  obtain ⟨hlacks, hcall⟩ := Bool.and_eq_true_iff.mp htest
  obtain ⟨_, m₂, hm₂, hfind⟩ := of_passes hcall
  have hmet := Reachable.reading (some (Source.ofChars bufferName " b".toList))
    (.command 20 (.eval ": def : ;") .start hm₁)
  have hop : Op.body 0 ≠ .primitive .words := by decide
  have hinsulated := call_insulated (.inl ⟨4, rfl⟩) hmet hop (of_decide_eq_true hlacks)
    [⟨"def", .exit⟩]
  exact ⟨_, _, hmet, of_decide_eq_true hlacks, hinsulated.1, ⟨20, hm₂⟩, of_decide_eq_true hfind⟩

end Forth

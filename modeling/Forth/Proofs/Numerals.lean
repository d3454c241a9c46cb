/-
Numbers in a text.  A grammar says which words are numerals and what they denote; reading in both modes,
compiled numbers and the printing of integers agree with it.
-/
import Mathlib.Data.List.Induction
import Forth.Proofs.CompileMode
import Forth.Proofs.Structured.Definition

namespace Forth

open Machine Run

namespace Numeral

/-! ### The grammar -/

/-- The ASCII digits. -/
def digit (d : Fin 10) : Char :=
  ['0', '1', '2', '3', '4', '5', '6', '7', '8', '9'][d]

/-- A nonempty row of digits and its decimal value. -/
inductive Decimal : List Char → Nat → Prop where
  | single (d : Fin 10) : Decimal [digit d] d
  | behind {cs : List Char} {n : Nat} (row : Decimal cs n) (d : Fin 10) :
      Decimal (cs ++ [digit d]) (10 * n + d)

/-- A numeral, with one sign or none, and the integer that it denotes. -/
inductive Denotes : List Char → Int → Prop where
  | unsigned {cs : List Char} {n : Nat} (row : Decimal cs n) : Denotes cs n
  | plus {cs : List Char} {n : Nat} (row : Decimal cs n) : Denotes ('+' :: cs) n
  | minus {cs : List Char} {n : Nat} (row : Decimal cs n) : Denotes ('-' :: cs) (-n)

variable {cs : List Char} {c : Char} {n : Nat} {k : Int}

theorem isDigit_digit : ∀ d, (digit d).isDigit = true := by
  decide

theorem toNat_digit : ∀ d, (digit d).toNat = '0'.toNat + d := by
  decide

theorem exists_digit_of_isDigit (h : c.isDigit = true) : ∃ d, c = digit d := by
  simp only [Char.isDigit, Bool.and_eq_true, decide_eq_true_eq, ge_iff_le, UInt32.le_iff_toNat_le] at h
  have hlow : '0'.toNat ≤ c.toNat := h.1
  have hhigh : c.toNat ≤ '0'.toNat + 9 := h.2
  have hlt : c.toNat - '0'.toNat < 10 := by omega
  have hvalue : c.toNat = '0'.toNat + (c.toNat - '0'.toNat) := by omega
  exact ⟨⟨_, hlt⟩, Char.toNat_inj.mp (hvalue.trans (toNat_digit ⟨_, hlt⟩).symm)⟩

/-! ### Reading -/

theorem digits?_eq_some_iff_ofDigitChars :
    digits? cs = some n ↔
      (cs ≠ [] ∧ ∀ c ∈ cs, c.isDigit = true) ∧ Nat.ofDigitChars 10 cs 0 = n := by
  simp [digits?]

theorem ofDigitChars_append_digit (cs : List Char) (d : Fin 10) :
    Nat.ofDigitChars 10 (cs ++ [digit d]) 0 = 10 * Nat.ofDigitChars 10 cs 0 + d := by
  simp [Nat.ofDigitChars_append, Nat.ofDigitChars_cons, toNat_digit]

theorem digits?_eq_some_iff : digits? cs = some n ↔ Decimal cs n := by
  constructor
  · intro h
    obtain ⟨⟨hne, hdigits⟩, rfl⟩ := digits?_eq_some_iff_ofDigitChars.mp h
    clear h
    induction cs using List.reverseRecOn with
    | nil => exact absurd rfl hne
    | append_singleton cs c ih =>
        obtain ⟨hfirst, hlast⟩ := List.forall_mem_append.mp hdigits
        obtain ⟨d, rfl⟩ := exists_digit_of_isDigit (hlast c List.mem_cons_self)
        rw [ofDigitChars_append_digit]
        by_cases hcs : cs = []
        · rw [hcs]
          simpa using Decimal.single d
        · exact .behind (ih hcs hfirst) d
  · intro h
    rw [digits?_eq_some_iff_ofDigitChars]
    induction h with
    | single d => simp [isDigit_digit, Nat.ofDigitChars_cons, toNat_digit]
    | behind row d ih =>
        obtain ⟨⟨_, hdigits⟩, hvalue⟩ := ih
        refine ⟨⟨List.concat_ne_nil _ _, ?_⟩, by rw [ofDigitChars_append_digit, hvalue]⟩
        exact List.forall_mem_append.mpr ⟨hdigits, List.forall_mem_singleton.mpr (isDigit_digit d)⟩

theorem int?_eq_some_iff : int? cs = some k ↔ Denotes cs k := by
  constructor
  · intro h
    unfold int? at h
    split at h
    · obtain ⟨n, hn, rfl⟩ := Option.map_eq_some_iff.mp h
      exact .plus (digits?_eq_some_iff.mp hn)
    · obtain ⟨n, hn, rfl⟩ := Option.map_eq_some_iff.mp h
      exact .minus (digits?_eq_some_iff.mp hn)
    · obtain ⟨n, hn, rfl⟩ := Option.map_eq_some_iff.mp h
      exact .unsigned (digits?_eq_some_iff.mp hn)
  · intro h
    cases h with
    | unsigned row => exact int?_of_digits (digits?_eq_some_iff.mpr row)
    | plus row => simp only [int?, digits?_eq_some_iff.mpr row, Option.map_some, Int.ofNat_eq_natCast]
    | minus row => simp only [int?, digits?_eq_some_iff.mpr row, Option.map_some]

theorem fits_iff : fits k = true ↔ ∃ n : Int64, n.toInt = k := by
  simp only [fits, Bool.and_eq_true, decide_eq_true_eq]
  constructor
  · rintro ⟨hlow, hhigh⟩
    exact ⟨Int64.ofInt k, Int64.toInt_ofInt_of_le hlow (Int.lt_of_le_sub_one hhigh)⟩
  · rintro ⟨n, rfl⟩
    exact ⟨n.le_toInt, Int.le_sub_one_of_lt n.toInt_lt⟩

/-- A word is read as the value of 64 bits that it denotes. -/
theorem int64?_eq_some_iff {word : String} {n : Int64} :
    int64? word = some n ↔ Denotes word.toList n.toInt := by
  rw [← int?_eq_some_iff]
  unfold int64?
  cases int? word.toList with
  | none => simp
  | some k =>
      simp only [Option.some.injEq]
      constructor
      · intro h
        split at h
        · obtain ⟨n', rfl⟩ := fits_iff.mp ‹_›
          rw [Int64.ofInt_toInt] at h
          rw [Option.some.inj h]
        · cases h
      · rintro rfl
        rw [if_pos (fits_iff.mpr ⟨n, rfl⟩), Int64.ofInt_toInt]

theorem int64?_eq_none_iff {word : String} :
    int64? word = none ↔ ∀ n : Int64, ¬ Denotes word.toList n.toInt := by
  simp only [← int64?_eq_some_iff, Option.eq_none_iff_forall_ne_some, ne_eq]

/-- The text of an integer denotes that integer and no other. -/
theorem denotes_ofInt_iff (n : Int) : Denotes (ofInt n).toList k ↔ k = n := by
  rw [← int?_eq_some_iff, int?_ofInt, Option.some.injEq, eq_comm]

end Numeral

open Numeral

/-! ### Words without an entry -/

theorem IsWord.wordsOf {word : String} (h : IsWord word) : wordsOf word = [word] := by
  have hoffers : (Source.ofChars bufferName (word.toList ++ spaced [])).Offers [word] :=
    Source.offers_ofChars h fun _ hnone => absurd hnone List.not_mem_nil
  simp only [spaced, List.flatMap_nil, List.append_nil] at hoffers
  exact hoffers.words_eq

theorem flatMap_wordsOf {words : List String} (hwords : ∀ word ∈ words, IsWord word) :
    words.flatMap wordsOf = words := by
  have hsingle : words.map wordsOf = words.map fun word => [word] :=
    List.map_congr_left fun word hword => (hwords word hword).wordsOf
  rw [List.flatMap_def, hsingle, ← List.flatMap_def, List.flatMap_singleton']

namespace Machine

variable {m : Machine} {word : String} {after : Int64 → Machine}

/-- The machine takes the word for a number exactly if it denotes one, and then comes to what the number
leads to; otherwise the word is unknown, and only the record of the failure changes. -/
def TakesNumber (m : Machine) (word : String) (after : Int64 → Machine) : Prop :=
  (∀ n : Int64, Denotes word.toList n.toInt ↔
    Reaches (fun fuel => eval fuel word) m (.ok () (after n))) ∧
  ((∀ n : Int64, ¬ Denotes word.toList n.toInt) ↔ ∃ location,
    Reaches (fun fuel => eval fuel word) m
      (.error (.undefinedWord word) { m with lastError := some ⟨.undefinedWord word, location⟩ }))

theorem takesNumber_of_reads (hword : IsWord word) (hfind : m.dictionary.find? word = none)
    (hafter : Function.Injective after) (hsource : ∀ n, (after n).source = m.source)
    (hreads : ∀ n, int64? word = some n → Reads [word] m (after n)) : m.TakesNumber word after := by
  have hsuccess : ∀ n, int64? word = some n →
      Reaches (fun fuel => eval fuel word) m (.ok () (after n)) := by
    intro n hn
    have hend := (hreads n hn).evalSource_of_readAll _ hword.wordsOf
    rwa [← hsource n] at hend
  have hfailure : int64? word = none → ∃ location,
      Reaches (fun fuel => eval fuel word) m
        (.error (.undefinedWord word) { m with lastError := some ⟨.undefinedWord word, location⟩ }) := by
    intro hnone
    have hstops : StopsAt (wordsOf word) m (.undefinedWord word) m := by
      rw [hword.wordsOf]
      exact .single fun source => dispatch_of_missing (m := { m with source := source }) 0 hfind hnone
    exact hstops.reaches_eval
  -- an evaluation has one answer, so each of the two implies its own case
  constructor
  · intro n
    rw [← int64?_eq_some_iff]
    refine ⟨hsuccess n, fun hn => ?_⟩
    cases hnumber : int64? word with
    | none =>
        obtain ⟨location, herror⟩ := hfailure hnumber
        cases (eval_steady word).reaches_unique hn herror
    | some k =>
        have hsame := (eval_steady word).reaches_unique hn (hsuccess k hnumber)
        rw [hafter (EStateM.Result.ok.inj hsame).2]
  · rw [← int64?_eq_none_iff]
    refine ⟨hfailure, fun ⟨location, herror⟩ => ?_⟩
    cases hnumber : int64? word with
    | none => rfl
    | some k => cases (eval_steady word).reaches_unique herror (hsuccess k hnumber)

theorem takesNumber_of_interpret (hword : IsWord word) (hfind : m.dictionary.find? word = none)
    (hmode : m.mode = .interpret) :
    m.TakesNumber word fun n => { m with data := m.data.push (.int n) } := by
  refine takesNumber_of_reads hword hfind ?_ (fun _ => rfl) fun n hn => .number hmode hfind hn
  intro n k hsame
  have hdata := congrArg (fun m' => m'.data.top?) hsame
  cases hdata
  rfl

theorem takesNumber_of_compile (hword : IsWord word) (hfind : m.dictionary.find? word = none)
    (hmode : m.mode = .compile) (hroom : m.heap.here + 2 ≤ m.heap.capacity) :
    m.TakesNumber word fun n => { m with heap := m.heap.fill [.op (.primitive .lit), .int n] } := by
  refine takesNumber_of_reads hword hfind ?_ (fun _ => rfl) fun n hn => ?_
  · intro n k hsame
    have hcell : ∀ n : Int64,
        (m.heap.fill [.op (.primitive .lit), .int n]).get? (m.heap.here + 1) = some (.int n) :=
      fun n => (Heap.holds_fill hroom 1 _ rfl).2
    have hheap := congrArg (fun m' => m'.heap.get? (m.heap.here + 1)) hsame
    cases (hcell n).symm.trans (hheap.trans (hcell k))
    rfl
  · apply reads_word_of_fits hmode
    · simp only [Dictionary.compile?, hfind, hn, Option.map_some]
    · simp only [Heap.room, List.length_cons, List.length_nil]
      omega

/-- A compiled number pushes itself, by the primitive in its first cell and not by the name of that. -/
theorem reaches_run_literal {a : Nat} {n : Int64} (hlit : m.heap.get? a = some (.op (.primitive .lit)))
    (hnumber : m.heap.get? (a + 1) = some (.int n)) (hexit : m.heap.get? (a + 2) = some (.op .exit)) :
    Reaches (fun fuel => run fuel a) m
      (.ok () { m with ip := a + 3, data := m.data.push (.int n) }) := by
  have hpush : Primitive.execute .lit { m with ip := a + 1 } =
      .ok () { m with ip := a + 2, data := m.data.push (.int n) } :=
    pushInline_of_get? (m := { m with ip := a + 1 }) hnumber
  have hfirst : Steps 0 { m with ip := a } 0 { m with ip := a + 2, data := m.data.push (.int n) } :=
    .single (step_primitive_ok (m := { m with ip := a }) hlit hpush)
  have hend := step_exit_zero (m := { m with ip := a + 2, data := m.data.push (.int n) }) hexit
  exact hfirst.reaches ⟨1, thread_of_step_finished 0 hend⟩

end Machine

/-- Numbers mean the same in both modes.  A word without an entry is interpreted as the number that it
denotes, or compiled to two cells that push this number, whatever the names of the primitives have come to
mean; if it denotes no value of 64 bits it is unknown, and nothing is changed.  An integer is printed as a
word that denotes this integer. -/
theorem numbers_agree_in_both_modes {m : Machine} {word : String} (hword : IsWord word)
    (hfind : m.dictionary.find? word = none) :
    (m.mode = .interpret → m.TakesNumber word fun n => { m with data := m.data.push (.int n) }) ∧
    (m.mode = .compile → m.heap.here + 2 ≤ m.heap.capacity →
      (m.TakesNumber word fun n => { m with heap := m.heap.fill [.op (.primitive .lit), .int n] }) ∧
      ∀ (n : Int64) (m₁ : Machine),
        (m.heap.fill [.op (.primitive .lit), .int n]).Extends m₁.heap →
        m₁.heap.get? (m.heap.here + 2) = some (.op .exit) →
          Reaches (fun fuel => run fuel m.heap.here) m₁
            (.ok () { m₁ with ip := m.heap.here + 3, data := m₁.data.push (.int n) })) ∧
    ∀ n : Int64, IsWord (m.render (.int n)) ∧
      ∀ k, Denotes (m.render (.int n)).toList k ↔ k = n.toInt := by
  refine ⟨takesNumber_of_interpret hword hfind, fun hmode hroom => ⟨?_, ?_⟩, fun n => ⟨?_, ?_⟩⟩
  · exact takesNumber_of_compile hword hfind hmode hroom
  · intro n m₁ hextends hexit
    have hholds := (Heap.holds_fill hroom).of_extends hextends
    exact reaches_run_literal (hholds 0 _ rfl).2 (hholds 1 _ rfl).2 hexit
  · exact Literal.isWord ⟨_, n, int64?_ofInt n⟩
  · exact fun _ => denotes_ofInt_iff n.toInt

/-- A definition is open on a heap of three cells, and the primitives that push an inline cell have lost
their names. -/
def Machine.renamed : Machine :=
  { Machine.new 3 with
    dictionary := (Dictionary.core.define "lit" (.primitive .drop)).define "[']" (.primitive .drop)
    mode := .compile }

/-- The least number is compiled and pushed; it has no positive counterpart. -/
theorem numbers_agree_in_both_modes_of_least_number :
    let compiled :=
      { renamed with heap := renamed.heap.fill [.op (.primitive .lit), .int Int64.minValue] }
    Reaches (fun fuel => eval fuel "-9223372036854775808") renamed (.ok () compiled) ∧
    Reaches (fun fuel => run fuel 0) { compiled with heap := compiled.heap.push (.op .exit) }
      (.ok () { compiled with
        heap := compiled.heap.push (.op .exit)
        ip := 3
        data := Stack.empty.push (.int Int64.minValue) }) ∧
    ∃ location, Reaches (fun fuel => eval fuel "9223372036854775808") renamed
      (.error (.undefinedWord "9223372036854775808")
        { renamed with lastError := some ⟨.undefinedWord "9223372036854775808", location⟩ }) := by
  intro compiled
  have hleast : Denotes "-9223372036854775808".toList Int64.minValue.toInt :=
    int64?_eq_some_iff.mp rfl
  have hbeyond : ∀ n : Int64, ¬ Denotes "9223372036854775808".toList n.toInt :=
    int64?_eq_none_iff.mp rfl
  have hword : IsWord "-9223372036854775808" ∧ IsWord "9223372036854775808" := by decide
  have hfind : renamed.dictionary.find? "-9223372036854775808" = none ∧
      renamed.dictionary.find? "9223372036854775808" = none := by
    decide
  obtain ⟨_, hleastCompiled, _⟩ := numbers_agree_in_both_modes hword.1 hfind.1
  obtain ⟨_, hbeyondCompiled, _⟩ := numbers_agree_in_both_modes hword.2 hfind.2
  obtain ⟨hnumber, hrun⟩ := hleastCompiled rfl (by decide)
  exact ⟨(hnumber.1 _).mp hleast, hrun _ _ (Heap.extends_push _ _) rfl,
    (hbeyondCompiled rfl (by decide)).1.2.mp hbeyond⟩

end Forth

/-
Showing a stack and reading it back.  The line that shows a stack of numbers and flags has the text of
each cell once, bottom first; read on an empty stack, the texts push these cells again in that order.
-/
import Forth.Proofs.CellTexts
import Forth.Proofs.Dialogue
import Forth.Proofs.Numerals

namespace Forth

open Machine Run

/-- Whether the cell is a number or a flag. -/
def Cell.isValue : Cell → Bool
  | .op _ => false
  | _ => true

/-- Numbers and flags stand for themselves: no numeral has an entry, and the words of the flags push
them. -/
structure Dictionary.ReadsValues (d : Dictionary) : Prop where
  numerals : ∀ (word : String) (k : Int), Numeral.Denotes word.toList k → d.find? word = none
  flags : ∀ b, d.find? (Cell.flag b).text = some (.primitive (.pushing b))

/-- The text behind the depth in the line that shows the stack, if the cells are numbers and flags. -/
def Stack.shown (s : Stack) : String :=
  " " ++ " ".intercalate (s.toList.map Cell.text) ++ "\n"

namespace Cell

variable {c : Cell}

theorem isWord_text (hc : c.isValue = true) : IsWord c.text := by
  cases c with
  | int n => exact Literal.isWord ⟨_, n, Numeral.int64?_ofInt n⟩
  | flag b => cases b <;> decide
  | op o => cases hc

theorem render_of_isValue (d : Dictionary) (hc : c.isValue = true) : d.render c = c.text := by
  cases c with
  | int n => rfl
  | flag b => rfl
  | op o => cases hc

end Cell

theorem Dictionary.readsValues_core : core.ReadsValues where
  numerals := by
    intro word k hword
    have hnames : ∀ e ∈ core.entries, Numeral.int? e.name.toList = none := by decide
    simp only [find?, Option.map_eq_none_iff, List.find?_eq_none, beq_iff_eq]
    rintro e he rfl
    rw [← Numeral.int?_eq_some_iff, hnames e he] at hword
    cases hword
  flags b := by cases b <;> rfl

/-! ### Showing -/

/-- The word that shows the stack changes nothing else. -/
theorem Machine.call_displayStack {m : Machine} (hm : ∀ c ∈ m.data.cells, c.isValue = true) (fuel : Nat) :
    call fuel (.primitive .displayStack) m = some (.ok () { m with
      output := ⟨.out, "<" ++ Numeral.ofNat m.data.depth ++ ">" ++ m.data.shown⟩ :: m.output }) := by
  have hcells : m.data.toList.map m.render = m.data.toList.map Cell.text := by
    refine List.map_congr_left fun c hc => Cell.render_of_isValue m.dictionary (hm c ?_)
    exact List.mem_reverse.mp hc
  have hline : Primitive.stackLine m = "<" ++ Numeral.ofNat m.data.depth ++ ">" ++ m.data.shown := by
    simp only [Primitive.stackLine, hcells, Stack.shown, String.append_assoc]
    rfl
  rw [← hline]
  rfl

/-! ### Reading back -/

/-- The text has the words of the cells, bottom first. -/
theorem Stack.wordsOf_shown {s : Stack} (hs : ∀ c ∈ s.cells, c.isValue = true) :
    wordsOf s.shown = s.toList.map Cell.text := by
  have hword : ∀ text ∈ s.toList.map Cell.text, IsWord text := by
    intro text htext
    obtain ⟨c, hc, rfl⟩ := List.mem_map.mp htext
    exact Cell.isWord_text (hs c (List.mem_reverse.mp hc))
  have hchars : s.shown.toList =
      [] ++ ' ' :: ((" ".intercalate (s.toList.map Cell.text)).toList ++ '\n' :: []) := by
    simp [shown]
  have hitems := Source.words_intercalate bufferName (s.toList.map Cell.text)
  rw [wordsOf, hchars, Source.words_append bufferName rfl, Source.words_append bufferName rfl, hitems]
  change [] ++ ((s.toList.map Cell.text).flatMap wordsOf ++ []) = _
  rw [List.nil_append, List.append_nil, flatMap_wordsOf hword]

namespace Machine

variable {m : Machine}

theorem reads_value {c : Cell} (hd : m.dictionary.ReadsValues) (hmode : m.mode = .interpret)
    (hc : c.isValue = true) : Reads [c.text] m { m with data := m.data.push c } := by
  cases c with
  | int n =>
      have hfind := hd.numerals _ n.toInt ((Numeral.denotes_ofInt_iff n.toInt).mpr rfl)
      exact .number hmode hfind (Numeral.int64?_ofInt n)
  | flag b =>
      refine .primitive hmode (hd.flags b) fun source => ?_
      cases b <;> rfl
  | op o => cases hc

theorem reads_values {cs : List Cell} (hd : m.dictionary.ReadsValues) (hmode : m.mode = .interpret)
    (hcs : ∀ c ∈ cs, c.isValue = true) :
    Reads (cs.map Cell.text) m { m with data := Stack.ofList (cs.reverse ++ m.data.cells) } := by
  induction cs generalizing m with
  | nil =>
      have hsame : { m with data := Stack.ofList ([] ++ m.data.cells) } = m := by simp
      exact hsame.symm ▸ Reads.nil m
  | cons c cs ih =>
      obtain ⟨hc, hrest⟩ := List.forall_mem_cons.mp hcs
      have hfirst := reads_value hd hmode hc
      have hsecond := ih (m := { m with data := m.data.push c }) hd hmode hrest
      have hcells : (c :: cs).reverse ++ m.data.cells = cs.reverse ++ (m.data.push c).cells := by simp
      rw [hcells]
      exact hfirst.append hsecond

end Machine

/-- A displayed stack reads back.  The word that shows a stack of numbers and flags prints its depth in
angle brackets and the texts of its cells, bottom first, and changes nothing else; on a machine with an
empty stack, in which numbers and flags stand for themselves, evaluating the text behind the depth makes
the same stack, and changes nothing else. -/
theorem displayed_stack_reads_back {m m' : Machine} (hm : ∀ c ∈ m.data.cells, c.isValue = true)
    (hd : m'.dictionary.ReadsValues) (hmode : m'.mode = .interpret) (hempty : m'.data = Stack.empty) :
    (∀ fuel, call fuel (.primitive .displayStack) m = some (.ok () { m with
      output := ⟨.out, "<" ++ Numeral.ofNat m.data.depth ++ ">" ++ m.data.shown⟩ :: m.output })) ∧
    Reaches (fun fuel => eval fuel m.data.shown) m' (.ok () { m' with data := m.data }) := by
  refine ⟨call_displayStack hm, ?_⟩
  have hread : Reads (m.data.toList.map Cell.text) m' _ :=
    reads_values hd hmode fun c hc => hm c (List.mem_reverse.mp hc)
  have hcells : Stack.ofList (m.data.toList.reverse ++ m'.data.cells) = m.data := by
    simp [hempty, Stack.toList]
  rw [hcells, ← Stack.wordsOf_shown hm] at hread
  exact hread.evalSource_of_readAll _ rfl

/-- The least and the greatest number, with flags between them. -/
def Machine.extremes : Machine :=
  { Machine.new 4 with
    data := .ofList [.flag false, .int Int64.maxValue, .flag true, .int Int64.minValue] }

theorem displayed_stack_reads_back_of_extremes :
    call 0 (.primitive .displayStack) extremes = some (.ok () { extremes with
      output := [⟨.out, "<4> -9223372036854775808 true 9223372036854775807 false\n"⟩] }) ∧
    Reaches (fun fuel => eval fuel " -9223372036854775808 true 9223372036854775807 false\n")
      (Machine.new 4) (.ok () extremes) := by
  have hshown : extremes.data.shown = " -9223372036854775808 true 9223372036854775807 false\n" := by
    decide +kernel
  obtain ⟨hdisplay, hread⟩ := @displayed_stack_reads_back extremes (Machine.new 4) (by decide)
    Dictionary.readsValues_core rfl rfl
  rw [hshown] at hdisplay hread
  exact ⟨hdisplay 0, hread⟩

end Forth

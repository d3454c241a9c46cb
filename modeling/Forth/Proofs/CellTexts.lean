/-
The texts of cells.  The oldest entry of a primitive is the one that the new dictionary has, so whatever
is defined later, a cell is printed as it always was.  The text can be read back: it tells the cell from
every other, up to the two words that push flags and are printed like them.
-/
import Forth.Proofs.Insulation

namespace Forth

open Machine

/-! ### Stability -/

namespace Dictionary

variable {d : Dictionary}

theorem nameOf?_core (p : Primitive) : core.nameOf? (.primitive p) = some p.name := by
  cases p <;> rfl

/-- The entries of a new dictionary go by the names of the primitives. -/
theorem name_eq_of_mem_core {p : Primitive} : ∀ e ∈ core.entries, e.op = .primitive p → e.name = p.name := by
  cases p <;> decide

theorem exists_mem_core (p : Primitive) : ∃ e ∈ core.entries, e.op = .primitive p := by
  cases p <;> decide

/-- Later entries do not change how a cell is printed. -/
theorem render_of_core_suffix (h : core.entries <:+ d.entries) (c : Cell) : d.render c = core.render c := by
  obtain ⟨new, hnew⟩ := h
  cases c with
  | op o =>
      cases o with
      | primitive p =>
          have hname : (d.withEntries (new ++ core.entries)).nameOf? (.primitive p) =
              (core.withEntries ([] ++ core.entries)).nameOf? (.primitive p) :=
            nameOf?_withEntries (exists_mem_core p)
          rw [hnew] at hname
          simp only [render]
          exact congrArg (Option.getD · _) hname
      | body a => rfl
      | exit => rfl
  | int n => rfl
  | flag b => rfl

theorem render_core_primitive (p : Primitive) : core.render (.op (.primitive p)) = p.name := by
  simp only [render, nameOf?_core, Option.getD_some]

end Dictionary

theorem Reachable.render_eq {m₀ m : Machine} (hfresh : m₀.Fresh) (hm : Reachable m₀ m) (c : Cell) :
    m.render c = Dictionary.core.render c :=
  Dictionary.render_of_core_suffix (hfresh.core_suffix.trans hm.grows.1.entries) c

theorem Reachable.trans {m₀ m m' : Machine} (h : Reachable m₀ m) (h' : Reachable m m') :
    Reachable m₀ m' := by
  induction h' with
  | start => exact h
  | command fuel c _ hperform ih => exact .command fuel c ih hperform
  | reading source _ ih => exact .reading source ih
  | word fuel text _ hdispatch ih => exact .word fuel text ih hdispatch
  | entry address _ ih => exact .entry address ih
  | step nested _ ih => exact .step nested ih

/-! ### Reading back -/

/-- The primitive that pushes a flag.  It is printed as that flag is. -/
def Primitive.pushing : Bool → Primitive
  | true => .pushTrue
  | false => .pushFalse

/-- The cell that a text stands for: the flag, where the word that pushes it has the same text. -/
def Cell.meant : Cell → Cell
  | .op (.primitive .pushTrue) => .flag true
  | .op (.primitive .pushFalse) => .flag false
  | c => c

/-- The operation that is printed as the text. -/
def Op.ofText? (text : String) : Option Op :=
  match text.toList with
  | 'x' :: 't' :: '_' :: digits => (Numeral.digits? digits).map .body
  | _ => Dictionary.core.find? text

/-- The cell that is printed as the text. -/
def Cell.ofText? (text : String) : Option Cell :=
  match Numeral.int64? text with
  | some n => some (.int n)
  | none => (Op.ofText? text).map fun o => Cell.meant (.op o)

namespace Cell

variable {c c' : Cell} {b : Bool}

theorem meant_cases (c : Cell) :
    c.meant = c ∨ ∃ b, c = .op (.primitive (.pushing b)) ∧ c.meant = .flag b := by
  unfold meant
  split
  · exact Or.inr ⟨true, rfl, rfl⟩
  · exact Or.inr ⟨false, rfl, rfl⟩
  · exact Or.inl rfl

/-- No primitive has a numeral for a name, or a name that begins like the text of a body. -/
theorem ofText?_name (p : Primitive) : ofText? p.name = some (meant (.op (.primitive p))) := by
  cases p <;> rfl

theorem ofText?_body (a : Nat) : ofText? (Op.body a).text = some (.op (.body a)) := by
  have hchars : (Op.body a).text.toList = 'x' :: 't' :: '_' :: Nat.toDigits 10 a := by
    simp [Op.text, Numeral.ofNat]
  have hnumber : Numeral.int64? (Op.body a).text = none := by
    simp [Numeral.int64?, hchars, Numeral.int?, Numeral.digits?, show Char.isDigit 'x' = false from rfl]
  simp only [ofText?, hnumber, Op.ofText?, hchars, Numeral.digits?_toDigits, Option.map_some]
  rfl

/-- A printed cell can be read back. -/
theorem ofText?_render (c : Cell) : ofText? (Dictionary.core.render c) = some c.meant := by
  cases c with
  | int n =>
      change ofText? (Numeral.ofInt n.toInt) = _
      simp only [ofText?, Numeral.int64?_ofInt]
      rfl
  | flag b => cases b <;> rfl
  | op o =>
      cases o with
      | primitive p => rw [Dictionary.render_core_primitive, ofText?_name]
      | body a => exact ofText?_body a
      | exit => rfl

/-- Cells that are read back alike are the same, or a flag and the word that pushes it. -/
theorem eq_or_pushing_of_meant_eq (h : c.meant = c'.meant) :
    c = c' ∨ ∃ b, (c = .flag b ∧ c' = .op (.primitive (.pushing b))) ∨
      (c = .op (.primitive (.pushing b)) ∧ c' = .flag b) := by
  rcases meant_cases c with hc | ⟨b, rfl, hb⟩
  · rcases meant_cases c' with hc' | ⟨b', rfl, hb'⟩
    · exact Or.inl (hc.symm.trans (h.trans hc'))
    · exact Or.inr ⟨b', Or.inl ⟨hc.symm.trans (h.trans hb'), rfl⟩⟩
  · rcases meant_cases c' with hc' | ⟨b', rfl, hb'⟩
    · exact Or.inr ⟨b, Or.inr ⟨rfl, hc'.symm.trans (h.symm.trans hb)⟩⟩
    · have hflag : Cell.flag b = .flag b' := hb.symm.trans (h.trans hb')
      cases hflag
      exact Or.inl rfl

end Cell

/-- Printed cells are stable and unambiguous.  Wherever a session is, also in the middle of a command, a
primitive is printed by the name that a new machine lists it under; a cell is printed the same at every
later time, whatever has been defined, renamed or shadowed in between; and cells that are printed alike
are the same cell, unless one is a flag and the other the word that pushes it. -/
theorem printed_cells_are_stable {m₀ m : Machine} (hfresh : m₀.Fresh) (hm : Reachable m₀ m) :
    (∀ p, (∃ e ∈ Dictionary.core.entries, e.op = .primitive p) ∧
      ∀ e ∈ Dictionary.core.entries, e.op = .primitive p → m.render (.op (.primitive p)) = e.name) ∧
    (∀ m', Reachable m m' → ∀ c, m'.render c = m.render c) ∧
    ∀ c c', m.render c = m.render c' →
      c = c' ∨ ∃ b, (c = .flag b ∧ c' = .op (.primitive (.pushing b))) ∨
        (c = .op (.primitive (.pushing b)) ∧ c' = .flag b) := by
  refine ⟨fun p => ⟨Dictionary.exists_mem_core p, fun e he hop => ?_⟩, fun m' hm' c => ?_,
    fun c c' hsame => ?_⟩
  · rw [hm.render_eq hfresh, Dictionary.render_core_primitive, Dictionary.name_eq_of_mem_core e he hop]
  · rw [(hm.trans hm').render_eq hfresh, hm.render_eq hfresh]
  · rw [hm.render_eq hfresh, hm.render_eq hfresh] at hsame
    have hmeant := congrArg Cell.ofText? hsame
    rw [Cell.ofText?_render, Cell.ofText?_render] at hmeant
    exact Cell.eq_or_pushing_of_meant_eq (Option.some.inj hmeant)

/-- The word `true` gets a second name, and its first name is given to another word. -/
theorem printed_cells_are_stable_behind_shadowing :
    ∃ m m', Reachable (Machine.new 4) m ∧ Reachable m m' ∧
      m'.dictionary.find? "true" = some (.body 0) ∧
      m'.dictionary.find? "yes" = some (.primitive .pushTrue) ∧
      m'.render (.op (.primitive .pushTrue)) = "true" ∧ (∀ c, m'.render c = m.render c) ∧
      ∀ c, m'.render c = "true" → c = .flag true ∨ c = .op (.primitive .pushTrue) := by
  let named : Machine :=
    { Machine.new 4 with dictionary := Dictionary.core.define "yes" (.primitive .pushTrue) }
  have hnamed : Reachable (Machine.new 4) named :=
    .command 0 (.define "yes" (.primitive .pushTrue)) .start rfl
  have hrun : ((Command.eval ": true 1 ;").perform 20).passes named (fun m' =>
      decide (m'.dictionary.find? "true" = some (.body 0) ∧
        m'.dictionary.find? "yes" = some (.primitive .pushTrue))) = true := by
    decide +kernel
  obtain ⟨_, m', hm', htest⟩ := Run.of_passes hrun
  obtain ⟨hshadowed, hyes⟩ := of_decide_eq_true htest
  have hlater : Reachable named m' := .command 20 (.eval ": true 1 ;") .start hm'
  have hnew : (Machine.new 4).Fresh := Or.inl ⟨4, rfl⟩
  obtain ⟨_, hstable, _⟩ := printed_cells_are_stable hnew hnamed
  obtain ⟨hnames, _, halike⟩ := printed_cells_are_stable hnew (hnamed.trans hlater)
  have htrue : m'.render (.op (.primitive .pushTrue)) = "true" :=
    (hnames .pushTrue).2 ⟨"true", .primitive .pushTrue⟩ (by decide) rfl
  refine ⟨named, m', hnamed, hlater, hshadowed, hyes, htrue, hstable m' hlater, fun c hc => ?_⟩
  rcases halike c _ (hc.trans htrue.symm) with rfl | ⟨b, ⟨rfl, hb⟩ | ⟨_, hb⟩⟩
  · exact Or.inr rfl
  · cases b <;> cases hb
    exact Or.inl rfl
  · cases hb

end Forth

/-
The stack effects of the words of the library.  What a word makes of its operands is written down as
one would write it in a comment, the topmost cell last; calling the word does that on top of any stack,
and changes nothing else.
-/
import Forth.Proofs.Structured.Booted

namespace Forth

open Machine Run

/-- The stack with some more cells on it, the last of them topmost. -/
def Stack.pushAll (s : Stack) (cells : List Cell) : Stack :=
  cells.foldl push s

/-- Cells of one kind are compared, and cells of different kinds are refused. -/
theorem Cell.sameKindEq_eq (a b : Cell) :
    a.sameKindEq b = if a.kind = b.kind then .ok (decide (a = b)) else .error (b.mismatch a.kind) := by
  by_cases hequal : a = b
  · cases hequal
    cases a <;> simp [sameKindEq]
  · cases a <;> cases b <;> simp_all [sameKindEq, kind]

namespace StackWord

/-- What a word makes of the cells that it works on. -/
inductive Turns : StackWord → List Cell → List Cell → Prop where
  | overWord (a b : Cell) : Turns .overWord [a, b] [a, b, a]
  | rot (a b c : Cell) : Turns .rot [a, b, c] [b, c, a]
  | backRot (a b c : Cell) : Turns .backRot [a, b, c] [c, a, b]
  | nip (a b : Cell) : Turns .nip [a, b] [b]
  | tuck (a b : Cell) : Turns .tuck [a, b] [b, a, b]
  | twoDup (a b : Cell) : Turns .twoDup [a, b] [a, b, a, b]
  | twoDrop (a b : Cell) : Turns .twoDrop [a, b] []
  | unequal {a b : Cell} : a.kind = b.kind → Turns .unequal [a, b] [.flag (decide (a ≠ b))]
  | greater (a b : Int64) : Turns .greater [.int a, .int b] [.flag (decide (b.toInt < a.toInt))]
  | atMost (a b : Int64) : Turns .atMost [.int a, .int b] [.flag (decide (a.toInt ≤ b.toInt))]
  | atLeast (a b : Int64) : Turns .atLeast [.int a, .int b] [.flag (decide (b.toInt ≤ a.toInt))]
  | increment (a : Int64) : Turns .increment [.int a] [.int (Int64.ofInt (a.toInt + 1))]
  | decrement (a : Int64) : Turns .decrement [.int a] [.int (Int64.ofInt (a.toInt - 1))]
  | minimum (a b : Int64) :
      Turns .minimum [.int a, .int b] [.int (Int64.ofInt (min a.toInt b.toInt))]
  | maximum (a b : Int64) :
      Turns .maximum [.int a, .int b] [.int (Int64.ofInt (max a.toInt b.toInt))]

/-- How many cells a word moves that takes cells of all kinds. -/
def moved? : StackWord → Option Nat
  | .overWord | .nip | .tuck | .twoDup | .twoDrop => some 2
  | .rot | .backRot => some 3
  | _ => none

section

variable {m : Machine} {d : Stack} {w : StackWord} {before after : List Cell} {a b : Cell}

theorem ofInt_min (a b : Int64) : Int64.ofInt (min a.toInt b.toInt) = if a < b then a else b := by
  by_cases h : a < b
  · rw [if_pos h, Int.min_eq_left (Int.le_of_lt (Int64.lt_iff_toInt_lt.mp h)), Int64.ofInt_toInt]
  · rw [if_neg h, Int.min_eq_right (Int64.le_iff_toInt_le.mp (Int64.not_lt.mp h)), Int64.ofInt_toInt]

theorem ofInt_max (a b : Int64) : Int64.ofInt (max a.toInt b.toInt) = if b < a then a else b := by
  by_cases h : b < a
  · rw [if_pos h, Int.max_eq_left (Int.le_of_lt (Int64.lt_iff_toInt_lt.mp h)), Int64.ofInt_toInt]
  · rw [if_neg h, Int.max_eq_right (Int64.le_iff_toInt_le.mp (Int64.not_lt.mp h)), Int64.ofInt_toInt]

theorem unequal_apply (m : Machine) (d : Stack) (a b : Cell) :
    effect .unequal { m with data := d.pushAll [a, b] } =
      if a.kind = b.kind then .ok () { m with data := d.pushAll [.flag (!decide (a = b))] }
      else .error (b.mismatch a.kind) { m with data := d } := by
  have happly : effect .unequal { m with data := d.pushAll [a, b] } =
      (demand (a.sameKindEq b) >>= fun r => push (.flag !r)) { m with data := d } := rfl
  rw [happly, Cell.sameKindEq_eq]
  split <;> rfl

theorem effect_of_turns (h : w.Turns before after) :
    w.effect { m with data := d.pushAll before } = .ok () { m with data := d.pushAll after } := by
  cases h with
  | overWord | rot | backRot | nip | tuck | twoDup | twoDrop => rfl
  | @unequal a b hkind =>
      rw [unequal_apply, if_pos hkind, decide_not]
  | greater a b =>
      rw [decide_eq_decide.mpr Int64.lt_iff_toInt_lt.symm]
      rfl
  | atMost a b =>
      rw [decide_eq_decide.mpr (Int64.le_iff_toInt_le.symm.trans Int64.not_lt.symm), decide_not]
      rfl
  | atLeast a b =>
      rw [decide_eq_decide.mpr Int64.le_iff_toInt_le.symm]
      rfl
  | increment a =>
      rw [Int64.ofInt_add, Int64.ofInt_toInt]
      rfl
  | decrement a =>
      rw [Int64.ofInt_sub, Int64.ofInt_toInt]
      rfl
  | minimum a b =>
      rw [ofInt_min]
      rfl
  | maximum a b =>
      rw [ofInt_max]
      rfl

/-- A word of the seven that finds too few cells. -/
theorem effect_of_missing {n : Nat} (hw : w.moved? = some n) (hd : d.depth < n) :
    ∃ m', w.effect { m with data := d } = .error .stackUnderflow m' := by
  obtain ⟨cells, rfl⟩ : ∃ cells, d = Stack.ofList cells := ⟨d.cells, d.ofList_cells.symm⟩
  have hlength : cells.length < n := hd
  cases w with
  | overWord | nip | tuck | twoDup | twoDrop =>
      cases hw
      match cells with
      | [] | [_] => exact ⟨_, rfl⟩
      | _ :: _ :: _ =>
          simp only [List.length_cons] at hlength
          omega
  | rot | backRot =>
      cases hw
      match cells with
      | [] | [_] | [_, _] => exact ⟨_, rfl⟩
      | _ :: _ :: _ :: _ =>
          simp only [List.length_cons] at hlength
          omega
  | _ => cases hw

/-! ### Calls -/

theorem executes (hwords : Present m.heap) (hroom : m.returns.depth + 4 ≤ m.returnLimit) (w : StackWord) :
    Executes m.heap m.returnLimit (m.entry w.address) 0 (fun _ => (liftM w.effect : Run Unit))
      (fun _ => m.entry (w.address + w.code.length)) := by
  have haddress : w.address + w.code.length < Cell.addressLimit := by
    cases w <;> decide
  have hbody : (m.entry w.address).returns.depth + 3 ≤ m.returnLimit := by
    change m.returns.depth + 1 + 3 ≤ m.returnLimit
    omega
  exact performs_code hwords w (m.entry 0) _ (Heap.holds_append.mp (hwords w)).1 haddress hbody

theorem reaches_call_of_ok (hwords : Present m.heap) (hip : m.ip < Cell.addressLimit)
    (hroom : m.returns.depth + 4 ≤ m.returnLimit) (hx : w.effect m = .ok () m') :
    Reaches (fun fuel => call fuel (.body w.address)) m (.ok () (m'.placed ⟨0, m.ip, m.returns⟩)) := by
  have hexit := (Heap.holds_cons.mp (Heap.holds_append.mp (hwords w)).2).1
  exact (executes hwords hroom w).reaches_call_of_ok ⟨Heap.Extends.refl _, rfl⟩ hexit (by omega) hip
    (reaches_lift_iff.mpr hx)

theorem reaches_call_of_error {e : Error} (hwords : Present m.heap)
    (hroom : m.returns.depth + 4 ≤ m.returnLimit) (hx : w.effect m = .error e m') :
    ∃ m₁, Reaches (fun fuel => call fuel (.body w.address)) m (.error e m₁) := by
  obtain ⟨q, hcall⟩ := (executes hwords hroom w).reaches_call_of_error ⟨Heap.Extends.refl _, rfl⟩
    (by omega) (reaches_lift_iff.mpr hx)
  exact ⟨_, hcall⟩

end

/-- On every stack the words of the library have their effects, and nothing else is changed; cells of
different kinds are not told apart by `!=`, and the words that move cells fail if there are too few. -/
theorem calls_turn {m : Machine} (hwords : Present m.heap) (hip : m.ip < Cell.addressLimit)
    (hroom : m.returns.depth + 4 ≤ m.returnLimit) (d : Stack) :
    (∀ w : StackWord, Library.dictionary.find? w.name = some (.body w.address)) ∧
    (∀ w before after, Turns w before after →
      Reaches (fun fuel => call fuel (.body w.address)) { m with data := d.pushAll before }
        (.ok () { m with data := d.pushAll after })) ∧
    (∀ a b : Cell, a.kind ≠ b.kind → ∃ m',
      Reaches (fun fuel => call fuel (.body unequal.address)) { m with data := d.pushAll [a, b] }
        (.error (.typeMismatch a.kind.name b.kind.name) m')) ∧
    (∀ w n, moved? w = some n → d.depth < n → ∃ m',
      Reaches (fun fuel => call fuel (.body w.address)) { m with data := d }
        (.error .stackUnderflow m')) := by
  refine ⟨?_, ?_, ?_, ?_⟩
  · exact (intact_booted (Nat.le_refl 185)).stackWords
  · intro w before after hturns
    have heffect := effect_of_turns (m := m) (d := d) hturns
    exact reaches_call_of_ok (m := { m with data := d.pushAll before }) hwords hip hroom heffect
  · intro a b hkind
    have heffect := (unequal_apply m d a b).trans (if_neg hkind)
    exact reaches_call_of_error (m := { m with data := d.pushAll [a, b] }) hwords hroom heffect
  · intro w n hw hd
    obtain ⟨m', heffect⟩ := effect_of_missing (m := m) hw hd
    exact reaches_call_of_error hwords hroom heffect

/-- Behind the library, `-rot` turns cells of all kinds, and `tuck` wants a second cell. -/
theorem calls_turn_booted :
    Reaches (fun fuel => call fuel (.body 10))
        { booted 200 with data := .ofList [.op .exit, .flag true, .int 1] }
        (.ok () { booted 200 with data := .ofList [.flag true, .int 1, .op .exit] }) ∧
      ∃ m', Reaches (fun fuel => call fuel (.body 16)) { booted 200 with data := .ofList [.int 1] }
        (.error .stackUnderflow m') := by
  have hwords : Present (booted 200).heap := (intact_booted (by decide)).stackCode
  obtain ⟨_, hturn, _, _⟩ := calls_turn hwords (by decide) (by decide) .empty
  obtain ⟨_, _, _, hmissing⟩ := calls_turn hwords (by decide) (by decide) (.ofList [.int 1])
  exact ⟨hturn _ _ _ (.backRot (.int 1) (.flag true) (.op .exit)), hmissing .tuck 2 rfl (by decide)⟩

end StackWord

end Forth

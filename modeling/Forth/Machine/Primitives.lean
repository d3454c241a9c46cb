/-
What each primitive does.  Operands are taken from the top and checked one after the other, so a cell
of the wrong kind is found before a missing cell below it.
-/
import Forth.Machine.Basic

namespace Forth

open Machine

namespace Primitive

/-- Replaces two integers, the lower one first, by an integer. -/
@[inline] def onInts (f : Int64 → Int64 → Int64) : Action Unit := do
  let b ← popInt
  let a ← popInt
  push (.int (f a b))

/-- Replaces two flags, the lower one first, by a flag. -/
@[inline] def onFlags (f : Bool → Bool → Bool) : Action Unit := do
  let b ← popFlag
  let a ← popFlag
  push (.flag (f a b))

/-- Division toward zero.  The one quotient that does not fit, that of the least integer by `-1`,
wraps to the least integer. -/
def divide : Action Unit := do
  let b ← popInt
  let a ← popInt
  if b = 0 then throw .divisionByZero
  push (.int (a / b))

/-- Compares two cells of one kind. -/
@[inline] def compareEqual : Action Unit := do
  let b ← pop
  let a ← pop
  push (.flag (← demand (a.sameKindEq b)))

/-- Whether the lower of two integers is less than the upper one. -/
@[inline] def compareLess : Action Unit := do
  let b ← popInt
  let a ← popInt
  push (.flag (decide (a < b)))

/-- Pushes the cell at the instruction pointer and passes it. -/
@[inline] def pushInline : Action Unit := do
  let c ← fetchHere
  advance
  push c

/-- Adds the offset at the instruction pointer to the instruction pointer. -/
@[inline] def jumpInline : Action Unit := do
  jumpBy (← demand (← fetchHere).toInt)

/-- The line that shows a stack: its depth and its cells, bottom first. -/
def stackLine (m : Machine) : String :=
  "<" ++ Numeral.ofNat m.data.depth ++ "> " ++
    String.intercalate " " (m.data.toList.map m.render) ++ "\n"

/-- The line that lists the dictionary. -/
def wordsLine (m : Machine) : String :=
  String.intercalate " " m.dictionary.words ++ "\n"

/-- Executes a primitive. -/
def execute : Primitive → Action Unit
  | .add => onInts (· + ·)
  | .sub => onInts (· - ·)
  | .mul => onInts (· * ·)
  | .div => divide
  | .logicalAnd => onFlags (· && ·)
  | .logicalOr => onFlags (· || ·)
  | .logicalNot => do push (.flag (!(← popFlag)))
  | .equal => compareEqual
  | .less => compareLess
  | .pushTrue => push (.flag true)
  | .pushFalse => push (.flag false)
  | .drop => do discard pop
  | .dup => do push (← top)
  | .swap => do
      let b ← pop
      let a ← pop
      push b
      push a
  | .clear => clearData
  | .here => fun m => push (Cell.ofAddress m.heap.here) m
  | .lit => pushInline
  | .toReturn => do pushReturn (← pop)
  | .fromReturn => do push (← popReturn)
  | .loopIndex => do push (← peekReturn 0)
  | .loopLimit => do push (← peekReturn 1)
  | .comma => do append (← pop)
  | .store => do
      let address ← popAddress
      Machine.store address (← pop)
  | .fetch => do push (← Machine.fetch (← popAddress))
  | .tick => pushInline
  | .immediate => markLastWord
  | .display => do
      let c ← pop
      fun m => print (m.render c ++ "\n") m
  | .displayStack => fun m => print (stackLine m) m
  | .words => fun m => print (wordsLine m) m
  | .jumpIfFalse => do
      if ← popFlag then advance else jumpInline
  | .jump => jumpInline
  | .colon => do beginDefinition (← nextName)
  | .semicolon => do
      append (.op .exit)
      setMode .interpret
  | .comment => skipPast ")"

end Primitive

end Forth

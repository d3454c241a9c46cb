/-
The operations that are built into the machine, each with the word under which the dictionary first
lists it.  Two primitives may do the same (`lit` and `[']` do) and still be different operations.
-/

namespace Forth

/-- A built-in operation. -/
inductive Primitive where
  | add | sub | mul | div
  | logicalAnd | logicalOr | logicalNot
  | equal | less
  | pushTrue | pushFalse
  | drop | dup | swap | clear
  /-- Pushes the address at which the next cell will be appended. -/
  | here
  /-- Pushes the cell that follows it in the code. -/
  | lit
  /-- Moves the top of the data stack to the return stack. -/
  | toReturn
  /-- Moves the top of the return stack to the data stack. -/
  | fromReturn
  /-- Copies the top of the return stack: the index of a counted loop. -/
  | loopIndex
  /-- Copies the second cell of the return stack. -/
  | loopLimit
  /-- Appends the top of the data stack to the heap. -/
  | comma
  | store | fetch
  /-- Pushes the cell that follows it in the code, as `lit` does. -/
  | tick
  /-- Marks the latest definition as immediate. -/
  | immediate
  | display | displayStack
  /-- Prints the dictionary. -/
  | words
  | jumpIfFalse | jump
  /-- Begins a definition. -/
  | colon
  /-- Ends a definition. -/
  | semicolon
  /-- Skips tokens up to a closing parenthesis. -/
  | comment
deriving DecidableEq, Repr, Inhabited

namespace Primitive

/-- The word under which the primitive is first listed. -/
def name : Primitive → String
  | add => "+"
  | sub => "-"
  | mul => "*"
  | div => "/"
  | logicalAnd => "and"
  | logicalOr => "or"
  | logicalNot => "not"
  | equal => "="
  | less => "<"
  | pushTrue => "true"
  | pushFalse => "false"
  | drop => "drop"
  | dup => "dup"
  | swap => "swap"
  | clear => "clear"
  | here => "here"
  | lit => "lit"
  | toReturn => ">r"
  | fromReturn => "r>"
  | loopIndex => "i"
  | loopLimit => "j"
  | comma => ","
  | store => "!"
  | fetch => "@"
  | tick => "[']"
  | immediate => "immediate"
  | display => "."
  | displayStack => ".s"
  | words => "words"
  | jumpIfFalse => "jmp#f"
  | jump => "jmp"
  | colon => ":"
  | semicolon => ";"
  | comment => "("

/-- The primitives that run while a definition is being compiled. -/
def isImmediate : Primitive → Bool
  | immediate | semicolon | comment => true
  | _ => false

end Primitive

end Forth

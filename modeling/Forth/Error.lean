/-
Every operation of the machine either succeeds or stops with one of the causes below.  The wording
of each cause is given once, by `Error.message`.
-/

namespace Forth

/-- Why an operation stopped.  The kinds in a mismatch are the names that `Kind.name` gives. -/
inductive Error where
  /-- A token that is neither a word of the dictionary nor a number. -/
  | undefinedWord (word : String)
  /-- A cell was wanted from a stack that has too few. -/
  | stackUnderflow
  /-- A cell of one kind was wanted and another was found. -/
  | typeMismatch (expected found : String)
  | divisionByZero
  /-- A cell was appended to a heap that is full. -/
  | heapOverflow
  /-- A cell was pushed on a return stack that has reached its limit. -/
  | returnStackOverflow
  /-- An address outside the heap, or a negative one. -/
  | invalidAddress
  /-- A definition was begun at the end of the source. -/
  | expectingName
  /-- A source file that could not be read. -/
  | unreadableFile (path reason : String)
deriving DecidableEq, Repr, Inhabited

/-- The text shown for a failure. -/
def Error.message : Error → String
  | .undefinedWord word => "undefined word " ++ word
  | .stackUnderflow => "StackUnderflow"
  | .typeMismatch expected found => "type mismatch, expected " ++ expected ++ " but got " ++ found
  | .divisionByZero => "division by zero"
  | .heapOverflow => "HeapOverflow"
  | .returnStackOverflow => "ReturnStackOverflow"
  | .invalidAddress => "InvalidAddress"
  | .expectingName => "ExpectingName"
  | .unreadableFile path reason => path ++ ": " ++ reason

end Forth

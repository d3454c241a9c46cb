/-
The outer interpreter.  It reads a source token by token; a token is a word of the dictionary or a
number.  Interpreting executes words and pushes numbers; compiling appends them to the heap, except
that immediate words are executed there too.
-/
import Forth.Machine.Run

namespace Forth

namespace Machine

/-- The number that a word denotes. -/
def number (word : String) : Action Int64 :=
  match Numeral.int64? word with
  | some n => pure n
  | none => throw (.undefinedWord word)

/-- Executes or compiles one word, as the mode asks.  A name in the dictionary goes before a number,
and a number is compiled with the primitive `lit`, whatever that name has come to mean. -/
def dispatch (fuel : Nat) (word : String) : Run Unit := do
  let m ← get
  match m.mode, m.dictionary.find? word with
  | .interpret, some op => call fuel op
  | .interpret, none => do
      push (.int (← number word))
  | .compile, some op =>
      if m.dictionary.isImmediate word then call fuel op else append (.op op)
  | .compile, none => do
      let n ← number word
      append (.op (.primitive .lit))
      append (.int n)

/-- Reads the current source to its end and dispatches its words. -/
def build : (fuel : Nat) → Run Unit
  | 0 => Run.exhausted
  | fuel + 1 => do
      match ← nextToken with
      | none => pure ()
      | some token =>
          dispatch fuel token.text
          build fuel

/-- Puts a source in front of the machine and takes it away again.  A failure is recorded with the
place of the token that was read last. -/
def evalSource (fuel : Nat) (source : Source) : Run Unit := fun m =>
  let previous := m.source
  match build fuel { m with source := some source } with
  | some (.ok () m') => some (.ok () { m' with source := previous })
  | some (.error e m') =>
      let failure : Failure := ⟨e, m'.source.bind Source.lastLocation⟩
      some (.error e { m' with lastError := some failure, source := previous })
  | none => none

/-- The name of a source that has no file. -/
def bufferName : String := "<buffer>"

/-- Evaluates a text. -/
def eval (fuel : Nat) (text : String) : Run Unit :=
  evalSource fuel (Source.ofChars bufferName text.toList)

end Machine

end Forth

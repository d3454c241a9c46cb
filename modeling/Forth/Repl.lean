/-
The dialogue with a user: a prompt, a line, its evaluation, and so on to the end of the input.
-/
import Forth.Machine.Boot

namespace Forth.Repl

open Machine

/-- The prompt tells whether a definition is open. -/
def prompt : Mode → String
  | .interpret => "> "
  | .compile => "compile> "

/-- What is printed when the input ends. -/
def farewell : String := "bye\n"

/-- A carriage return before the end of a line belongs to that end.  This is a rule of the reader that
hands out the lines, and not of the dialogue.  The line is given last character first. -/
def dropReturn : List Char → List Char
  | '\r' :: cs => cs
  | cs => cs

/-- The lines of an input, after the part of a line that is given last character first.  A line
without an end counts if it is not empty. -/
def linesFrom : List Char → List Char → List String
  | [], [] => []
  | part, [] => [String.ofList part.reverse]
  | part, '\n' :: cs => String.ofList (dropReturn part).reverse :: linesFrom [] cs
  | part, c :: cs => linesFrom (c :: part) cs

/-- The lines of an input, without their ends. -/
def lines (input : String) : List String :=
  linesFrom [] input.toList

/-- Shows the prompt. -/
def ask (m : Machine) : Machine :=
  Outcome.machine (print (prompt m.mode) m)

/-- Evaluates a line and reports the error if there is one. -/
def answer (fuel : Nat) (line : String) (m : Machine) : Option Machine :=
  match eval fuel line m with
  | some (.ok () m') => some m'
  | some (.error e m') => some (Outcome.machine (printError e m'))
  | none => none

/-- The end of the dialogue. -/
def close (m : Machine) : Machine :=
  Outcome.machine (print farewell m)

/-- The whole dialogue. -/
def converse (fuel : Nat) : List String → Machine → Option Machine
  | [], m => some (close (ask m))
  | line :: rest, m =>
      match answer fuel line (ask m) with
      | some m' => converse fuel rest m'
      | none => none

end Forth.Repl

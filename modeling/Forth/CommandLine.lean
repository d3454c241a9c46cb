/-
The program as a whole: from its arguments, the files it may read and its input to what it prints and
its exit status.
-/
import Forth.Options
import Forth.Repl

namespace Forth.CommandLine

open Machine

/-- The name under which the program speaks of itself. -/
def program : String := "thforth"

/-- What a program leaves: an exit status and the printed text, newest piece first. -/
structure Ending where
  status : Nat
  output : List Emission
deriving DecidableEq, Repr

/-- The printed text of one channel. -/
def Ending.printed (channel : Channel) (e : Ending) : String :=
  printedOn channel e.output

/-- What comes after the arguments have been obeyed. -/
inductive Launch where
  /-- The program ends. -/
  | done (ending : Ending)
  /-- The dialogue with the user begins. -/
  | dialogue (m : Machine)

/-- The end of a program that could not be started; what the machine printed before stays printed. -/
def refuse (status : Nat) (message : String) (output : List Emission) : Launch :=
  .done ⟨status, ⟨.err, message ++ "\n"⟩ :: output⟩

/-- The heap capacity that is asked for. -/
def capacity (options : Options) : Except String Nat :=
  match options.capacity with
  | none => .ok defaultCapacity
  | some text =>
      match Numeral.size text with
      | .ok n => .ok n
      | .error fault => .error ("invalid heap size " ++ text ++ ": " ++ fault.message)

/-- The machine that is asked for.  Skipping the library goes before naming another one. -/
def machine (fuel : Nat) (read : String → FileContent) (options : Options) (capacity : Nat) :
    Option (Outcome Unit) :=
  if options.bare then (create capacity).map (.ok ())
  else
    match options.library with
    | some path => (create capacity).bind fun m => load fuel path (read path) m
    | none => boot fuel capacity

/-- Runs the script, if there is one, on the machine. -/
def script (fuel : Nat) (read : String → FileContent) (options : Options) (m : Machine) :
    Option Launch :=
  match options.script with
  | none => some (.dialogue m)
  | some path =>
      match load fuel path (read path) m with
      | none => none
      | some (.error e m') => some (.done ⟨1, (Outcome.machine (printError e m')).output⟩)
      | some (.ok () m') =>
          if options.interactive then some (.dialogue m') else some (.done ⟨0, m'.output⟩)

/-- Obeys the options. -/
def obey (fuel : Nat) (read : String → FileContent) (options : Options) : Option Launch :=
  if options.help then some (.done ⟨0, [⟨.out, Options.usage program⟩]⟩)
  else
    match capacity options with
    | .error message => some (refuse 1 message [])
    | .ok n =>
        match machine fuel read options n with
        | none => none
        | some (.error e m) => some (refuse 1 ("bootstrap failed: " ++ e.message) m.output)
        | some (.ok () m) => script fuel read options m

/-- Obeys the arguments.  Arguments that are refused are answered with the help text. -/
def launch (fuel : Nat) (read : String → FileContent) (args : List String) : Option Launch :=
  match Options.parse args with
  | .error fault =>
      some (.done ⟨2, [⟨.out, Options.usage program⟩, ⟨.err, fault.message ++ "\n"⟩]⟩)
  | .ok options => obey fuel read options

/-- The program with all of its input at hand. -/
def run (fuel : Nat) (read : String → FileContent) (args : List String) (input : String) :
    Option Ending :=
  match launch fuel read args with
  | none => none
  | some (.done ending) => some ending
  | some (.dialogue m) =>
      match Repl.converse fuel (Repl.lines input) m with
      | none => none
      | some m' => some ⟨0, m'.output⟩

/-- The files that the arguments name, in the order in which they are read. -/
def paths (args : List String) : List String :=
  match Options.parse args with
  | .error _ => []
  | .ok options => options.library.toList ++ options.script.toList

end Forth.CommandLine

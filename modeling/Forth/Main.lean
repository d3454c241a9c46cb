/-
The executable.  It reads the files and the lines that the program asks for and prints what the program
says; what that is, is decided elsewhere.
-/
import Forth.CommandLine

namespace Forth.Main

/-- More steps than any run will take. -/
def budget : Nat := 4611686018427387904

/-- The positive form of an error number, which may have been negated on its way here. -/
def errorNumber (code : UInt32) : Nat :=
  if code < 0x80000000 then code.toNat else (0 - code).toNat

/-- The fault that the system reports. -/
def faultOf : IO.Error → FileFault
  | .noFileOrDirectory _ _ _ => .missing
  | .inappropriateType _ code details => .ofCode (errorNumber code) details
  | .permissionDenied _ code details => .ofCode (errorNumber code) details
  | .resourceExhausted _ code details => .ofCode (errorNumber code) details
  | .invalidArgument _ code details => .ofCode (errorNumber code) details
  | .otherError code details => .ofCode (errorNumber code) details
  | e => .ofCode 5 (toString e)

def readContent (path : String) : IO FileContent := do
  try
    return .ok (← IO.FS.readBinFile path)
  catch e =>
    return .error (faultOf e)

/-- Writes text to its channel. -/
def write (output : List Emission) : IO Unit := do
  for piece in output.reverse do
    match piece.channel with
    | .out => IO.print piece.text
    | .err => IO.eprint piece.text
  (← IO.getStdout).flush

/-- The dialogue on the terminal.  It ends with the input. -/
partial def converse (m : Machine) : IO UInt32 := do
  let asked := Repl.ask m
  write asked.output
  let line ← (← IO.getStdin).getLine
  if line.isEmpty then
    write (Repl.close asked.withoutOutput).output
    return 0
  let text := (Repl.lines line).headD ""
  match Repl.answer budget text asked.withoutOutput with
  | none => return 3
  | some m' =>
      write m'.output
      converse m'.withoutOutput

end Forth.Main

def main (args : List String) : IO UInt32 := do
  let table ← (Forth.CommandLine.paths args).mapM fun path => return (path, ← Forth.Main.readContent path)
  let read (path : String) : Forth.FileContent := (table.lookup path).getD (.error .missing)
  match Forth.CommandLine.launch Forth.Main.budget read args with
  | none => return 3
  | some (.done ending) =>
      Forth.Main.write ending.output
      return ending.status.toUInt32
  | some (.dialogue m) =>
      Forth.Main.write m.output
      Forth.Main.converse m.withoutOutput

/-
Sessions: what a user of the machine can ask of it from outside, as data.  A session is a row of
commands; each is performed on the machine that the previous one left, whether that succeeded or not.
-/
import Forth.Machine.Boot

namespace Forth

open Machine

/-- An operation on the machine from outside.  The operations that words can be given are those of the
machine: a program around it that registers functions of its own, which may do anything to the machine,
is left out. -/
inductive Command where
  | eval (text : String)
  | load (path : String) (content : FileContent)
  | call (op : Op)
  | run (address : Nat)
  | push (c : Cell)
  | pop
  | pushReturn (c : Cell)
  | popReturn
  | fetch (address : Nat)
  | store (address : Nat) (c : Cell)
  | append (cells : List Cell)
  | define (name : String) (op : Op)
  | markImmediate (name : String)
  | setReturnLimit (limit : Nat)
  | print (text : String)
  | logError (text : String)
  | printError (e : Error)

/-- Runs a computation that has no cell to answer with. -/
def withoutCell (x : Run Unit) : Run (Option Cell) := do
  x
  pure none

/-- Runs an action and answers with its cell. -/
def withCell (x : Action Cell) : Run (Option Cell) := do
  pure (some (← x))

/-- Performs a command.  Those that look a cell up answer with it. -/
def Command.perform (fuel : Nat) : Command → Run (Option Cell)
  | .eval text => withoutCell (Machine.eval fuel text)
  | .load path content => withoutCell (Machine.load fuel path content)
  | .call op => withoutCell (Machine.call fuel op)
  | .run address => withoutCell (Machine.run fuel address)
  | .push c => withoutCell (Machine.push c)
  | .pop => withCell Machine.pop
  | .pushReturn c => withoutCell (Machine.pushReturn c)
  | .popReturn => withCell Machine.popReturn
  | .fetch address => withCell (Machine.fetch address)
  | .store address c => withoutCell (Machine.store address c)
  | .append cells => withoutCell (Machine.appendAll cells)
  | .define name op => withoutCell (Machine.define name op)
  | .markImmediate name => withoutCell (Machine.markImmediate name)
  | .setReturnLimit limit => withoutCell (Machine.setReturnLimit limit)
  | .print text => withoutCell (Machine.print text)
  | .logError text => withoutCell (Machine.logError text)
  | .printError e => withoutCell (Machine.printError e)

end Forth

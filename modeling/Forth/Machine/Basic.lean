/-
The machine and its elementary actions.  An action either succeeds with a value or stops with an
error, and in both cases leaves a machine behind: nothing is rolled back when an action fails.
-/
import Forth.Dictionary
import Forth.Heap
import Forth.Source
import Forth.Stack

namespace Forth

/-- What the machine does with the words it reads. -/
inductive Mode where
  | interpret
  | compile
deriving DecidableEq, Repr, Inhabited

/-- Where printed text goes. -/
inductive Channel where
  | out
  | err
deriving DecidableEq, Repr

/-- A piece of printed text. -/
structure Emission where
  channel : Channel
  text : String
deriving DecidableEq, Repr

/-- The text that went to one channel, of pieces given newest first. -/
def printedOn (channel : Channel) (output : List Emission) : String :=
  String.join ((output.reverse.filter (·.channel = channel)).map Emission.text)

/-- An evaluation that failed: the cause, and the place of the token that was read last. -/
structure Failure where
  error : Error
  location : Option Location
deriving DecidableEq, Repr

/-- The state of the machine. -/
structure Machine where
  dictionary : Dictionary
  heap : Heap
  /-- The address of the cell to be executed next. -/
  ip : Nat
  /-- The data stack. -/
  data : Stack
  /-- The return stack: return addresses, and whatever a program puts there. -/
  returns : Stack
  /-- The depth from which on nothing more is pushed on the return stack. -/
  returnLimit : Nat
  mode : Mode
  /-- The word whose definition was begun last. -/
  lastWord : Option String
  /-- The source being read, if one is. -/
  source : Option Source
  /-- The printed text, newest piece first. -/
  output : List Emission
  lastError : Option Failure
deriving DecidableEq, Repr

/-- The return stack depth that a new machine allows, `2 ^ 20`. -/
def Machine.defaultReturnLimit : Nat := 1048576

/-- The heap capacity of a machine for which none is asked. -/
def Machine.defaultCapacity : Nat := 8192

/-- A machine that knows the primitives only.  A program gets one by `Machine.create`. -/
def Machine.new (capacity : Nat) : Machine where
  dictionary := Dictionary.core
  heap := Heap.ofCapacity capacity
  ip := 0
  data := Stack.empty
  returns := Stack.empty
  returnLimit := Machine.defaultReturnLimit
  mode := .interpret
  lastWord := none
  source := none
  output := []
  lastError := none

/-- A computation on the machine that may fail, and keeps its effects if it does. -/
abbrev Action (α : Type) : Type := EStateM Error Machine α

/-- What is left of an action: a value or an error, and the machine in either case. -/
abbrev Outcome (α : Type) : Type := EStateM.Result Error Machine α

/-- The machine that an outcome leaves behind. -/
def Outcome.machine {α : Type} : Outcome α → Machine
  | .ok _ m => m
  | .error _ m => m

namespace Machine

/-- Succeeds with a value or fails, as the result of a check says. -/
@[inline] def demand {α : Type} : Except Error α → Action α
  | .ok a => fun m => .ok a m
  | .error e => fun m => .error e m

/-! ### Stacks -/

@[inline] def push (c : Cell) : Action Unit := fun m =>
  .ok () { m with data := m.data.push c }

@[inline] def pop : Action Cell := fun m =>
  match m.data.top? with
  | some c => .ok c { m with data := m.data.pop }
  | none => .error .stackUnderflow m

/-- Copies the top of the data stack. -/
@[inline] def top : Action Cell := fun m =>
  match m.data.top? with
  | some c => .ok c m
  | none => .error .stackUnderflow m

@[inline] def pushReturn (c : Cell) : Action Unit := fun m =>
  if m.returns.depth < m.returnLimit then .ok () { m with returns := m.returns.push c }
  else .error .returnStackOverflow m

@[inline] def popReturn : Action Cell := fun m =>
  match m.returns.top? with
  | some c => .ok c { m with returns := m.returns.pop }
  | none => .error .stackUnderflow m

/-- Copies a cell of the return stack, at a distance from its top. -/
@[inline] def peekReturn (distance : Nat) : Action Cell := fun m =>
  match m.returns.peek? distance with
  | some c => .ok c m
  | none => .error .stackUnderflow m

@[inline] def popInt : Action Int64 := do
  demand (← pop).toInt

@[inline] def popFlag : Action Bool := do
  demand (← pop).toFlag

@[inline] def popAddress : Action Nat := do
  demand (← pop).toAddress

def clearData : Action Unit := fun m =>
  .ok () { m with data := Stack.empty }

def setReturnLimit (limit : Nat) : Action Unit := fun m =>
  .ok () { m with returnLimit := limit }

/-! ### Heap -/

@[inline] def fetch (address : Nat) : Action Cell := fun m =>
  match m.heap.get? address with
  | some c => .ok c m
  | none => .error .invalidAddress m

@[inline] def store (address : Nat) (c : Cell) : Action Unit := fun m =>
  if address < m.heap.capacity then .ok () { m with heap := m.heap.set address c }
  else .error .invalidAddress m

/-- Fills the next cell of the heap. -/
def append (c : Cell) : Action Unit := fun m =>
  if m.heap.here < m.heap.capacity then .ok () { m with heap := m.heap.push c }
  else .error .heapOverflow m

/-- Appends cells in turn, as far as they fit. -/
def appendAll : List Cell → Action Unit
  | [] => pure ()
  | c :: cs => do
      append c
      appendAll cs

/-! ### Instruction pointer -/

@[inline] def setIp (address : Nat) : Action Unit := fun m =>
  .ok () { m with ip := address }

/-- Passes the cell at the instruction pointer.  The pointer is a number without a bound here, and a word
that ends at `2 ^ 64 - 1` in a real machine.  The two part only behind a cell at that address, which no
heap has. -/
@[inline] def advance : Action Unit := fun m =>
  .ok () { m with ip := m.ip + 1 }

/-- The cell at the instruction pointer. -/
@[inline] def fetchHere : Action Cell := fun m => fetch m.ip m

/-- Moves the instruction pointer by an offset.  The sum is exact: it is refused if it is negative or
does not fit a cell. -/
@[inline] def jumpBy (offset : Int64) : Action Unit := fun m =>
  let target := (Int64.ofNat m.ip).toInt + offset.toInt
  if 0 ≤ target ∧ target ≤ 9223372036854775807 then .ok () { m with ip := target.toNat }
  else .error .invalidAddress m

/-- Saves the instruction pointer on the return stack. -/
@[inline] def saveIp : Action Unit := fun m =>
  pushReturn (Cell.ofAddress m.ip) m

/-- Takes the instruction pointer from the return stack. -/
@[inline] def restoreIp : Action Unit := do
  setIp (← demand (← popReturn).toAddress)

/-! ### Dictionary -/

def define (name : String) (op : Op) : Action Unit := fun m =>
  .ok () { m with dictionary := m.dictionary.define name op }

def markImmediate (name : String) : Action Unit := fun m =>
  .ok () { m with dictionary := m.dictionary.markImmediate name }

/-- Begins the definition of a word at the next heap cell. -/
def beginDefinition (name : String) : Action Unit := fun m =>
  .ok () { m with
    dictionary := m.dictionary.define name (.body m.heap.here)
    lastWord := some name
    mode := .compile }

def setMode (mode : Mode) : Action Unit := fun m =>
  .ok () { m with mode := mode }

/-- Makes the word whose definition was begun last immediate. -/
def markLastWord : Action Unit := fun m =>
  match m.lastWord with
  | some name => markImmediate name m
  | none => .ok () m

/-! ### Source -/

/-- Reads a token of the current source; without a source there is none. -/
def nextToken : Action (Option Token) := fun m =>
  match m.source with
  | some s => .ok s.next.1 { m with source := some s.next.2 }
  | none => .ok none m

/-- Reads a token that is to become a name. -/
def nextName : Action String := do
  match ← nextToken with
  | some token => pure token.text
  | none => throw .expectingName

/-- Reads tokens through the next one that is the given word. -/
def skipPast (word : String) : Action Unit := fun m =>
  .ok () { m with source := m.source.map (Source.skipPast word) }

/-! ### Output -/

def emit (channel : Channel) (text : String) : Action Unit := fun m =>
  .ok () { m with output := ⟨channel, text⟩ :: m.output }

def print (text : String) : Action Unit :=
  emit .out text

/-- Writes a line on the error channel. -/
def logError (text : String) : Action Unit :=
  emit .err (text ++ "\n")

/-- What is told of an error.  If the last failed evaluation failed with this very error, the place of
that failure follows. -/
def describe (m : Machine) (e : Error) : String :=
  match m.lastError with
  | some ⟨last, some location⟩ =>
      if last = e then "error: " ++ e.message ++ "\n" ++ location.render
      else "error: " ++ e.message
  | _ => "error: " ++ e.message

def printError (e : Error) : Action Unit := fun m =>
  logError (m.describe e) m

/-- The text of a cell in this machine. -/
def render (m : Machine) (c : Cell) : String :=
  m.dictionary.render c

/-- The printed text of both channels, in order. -/
def transcript (m : Machine) : String :=
  String.join (m.output.reverse.map Emission.text)

/-- The printed text of one channel. -/
def printed (channel : Channel) (m : Machine) : String :=
  printedOn channel m.output

/-- The machine after its output has been taken away. -/
def withoutOutput (m : Machine) : Machine :=
  { m with output := [] }

end Machine

end Forth

/-
The inner interpreter.  Threaded code is executed by one loop: a body that is entered from another
leaves its return address on the return stack, and the loop only counts how many bodies are open.

Code may run forever, so the loop is given a number of steps; having used them up is told apart from
every outcome of the code itself.
-/
import Forth.Machine.Primitives

namespace Forth

open Machine

/-- A computation on the machine that may also run out of its steps, which `none` stands for. -/
def Run (α : Type) : Type := Machine → Option (Outcome α)

namespace Run

/-- The computation that has no step left. -/
def exhausted {α : Type} : Run α := fun _ => none

/-- Runs the second computation if the first succeeds. -/
@[always_inline, inline] protected def bind {α β : Type} (x : Run α) (f : α → Run β) : Run β := fun m =>
  match x m with
  | some (.ok a m') => f a m'
  | some (.error e m') => some (.error e m')
  | none => none

@[always_inline] instance : Monad Run where
  pure a := fun m => some (.ok a m)
  bind := Run.bind

/-- An action takes no steps of its own. -/
@[always_inline] instance : MonadLift Action Run where
  monadLift x := fun m => some (x m)

end Run

namespace Machine

/-- What the inner interpreter has to do after a step. -/
inductive Turn where
  /-- The body that was run first has ended. -/
  | finished
  /-- There is more to execute, with so many bodies open inside the first. -/
  | more (nested : Nat)
deriving DecidableEq, Repr

/-- Reads the operation at the instruction pointer and passes it. -/
@[inline] def fetchOp : Action Op := do
  let op ← demand (← fetchHere).toOp
  advance
  pure op

/-- Executes one operation of threaded code, inside `nested` bodies. -/
@[inline] def step (nested : Nat) : Action Turn := do
  match ← fetchOp with
  | .primitive p =>
      p.execute
      pure (.more nested)
  | .body address =>
      saveIp
      setIp address
      pure (.more (nested + 1))
  | .exit =>
      match nested with
      | 0 => pure .finished
      | outer + 1 =>
          restoreIp
          pure (.more outer)

/-- Executes threaded code from the instruction pointer until the body that was run first ends, in at
most `fuel` steps. -/
def thread : (fuel nested : Nat) → Run Unit
  | 0, _ => Run.exhausted
  | fuel + 1, nested => do
      match ← step nested with
      | .finished => pure ()
      | .more nested' => thread fuel nested'

/-- Executes the body at an address. -/
def run (fuel : Nat) (address : Nat) : Run Unit := do
  setIp address
  thread fuel 0

/-- Executes an operation and comes back to where the instruction pointer was. -/
def call (fuel : Nat) : Op → Run Unit
  | .primitive p => p.execute
  | .body address => do
      saveIp
      run fuel address
      restoreIp
  | .exit => pure ()

end Machine

end Forth

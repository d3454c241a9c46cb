/-
Starting a machine: from a library, from a file, or from the primitives alone.  For a heap that can never
be allocated there is no machine, and so no outcome however much fuel is given.
-/
import Forth.File
import Forth.Library
import Forth.Machine.Eval

namespace Forth

namespace Machine

/-- Evaluates what reading a path yielded.  A file that is not text is an error which is not recorded
as a failed evaluation. -/
def load (fuel : Nat) (path : String) (content : FileContent) : Run Unit :=
  match content.text with
  | .ok text => evalSource fuel (Source.ofChars path text.toList)
  | .error fault => (throw (.unreadableFile path fault.message) : Action Unit)

/-- A machine that knows the primitives only, if there can be a heap of this capacity. -/
def create (capacity : Nat) : Option Machine :=
  -- the heap is asked for first: a program that asks for too much ends there
  let m := Machine.new capacity
  if m.heap.capacity ≤ Heap.maxCapacity then some m else none

/-- Evaluates the bundled library on a new machine. -/
def boot (fuel : Nat) (capacity : Nat) : Option (Outcome Unit) :=
  (create capacity).bind fun m => evalSource fuel (Source.ofChars Library.name Library.text) m

theorem create_of_le {capacity : Nat} (h : capacity ≤ Heap.maxCapacity) :
    create capacity = some (Machine.new capacity) := by
  simp [create, Machine.new, h]

theorem create_of_lt {capacity : Nat} (h : Heap.maxCapacity < capacity) : create capacity = none := by
  simp [create, Machine.new, Nat.not_le_of_lt h]

/-- Too large a heap is refused before the library is read. -/
theorem boot_of_maxCapacity_lt {capacity : Nat} (h : Heap.maxCapacity < capacity) (fuel : Nat) :
    boot fuel capacity = none := by
  rw [boot, create_of_lt h, Option.bind_none]

/-- What was booted has been evaluated on a new machine. -/
theorem boot_eq_some_iff {fuel capacity : Nat} {r : Outcome Unit} :
    boot fuel capacity = some r ↔ capacity ≤ Heap.maxCapacity ∧
      evalSource fuel (Source.ofChars Library.name Library.text) (Machine.new capacity) = some r := by
  by_cases hfits : capacity ≤ Heap.maxCapacity
  · rw [boot, create_of_le hfits, Option.bind_some]
    exact ⟨fun h => ⟨hfits, h⟩, fun h => h.2⟩
  · rw [boot_of_maxCapacity_lt (Nat.lt_of_not_le hfits)]
    exact ⟨nofun, fun h => absurd h.1 hfits⟩

end Machine

end Forth

/-
The heap: a row of cells of fixed length, filled from its start.  Threaded code and data share it,
and every cell of it can be read and overwritten, also those that have not been filled yet.
-/
import Forth.Cell

namespace Forth

/-- A row of cells, together with the address of the next cell to fill. -/
structure Heap where
  cells : Array Cell
  /-- The address at which the next cell is appended. -/
  here : Nat
deriving DecidableEq, Repr

namespace Heap

/-- The bytes that one cell takes. -/
def cellBytes : Nat := 16

/-- The bytes that a row of cells can take at most, `2 ^ 63 - 1`. -/
def maxBytes : Nat := 9223372036854775807

/-- The number of cells beyond which there is no heap, however much memory there is: `2 ^ 59 - 1`. -/
def maxCapacity : Nat := maxBytes / cellBytes

/-- A heap of zeros. -/
def ofCapacity (capacity : Nat) : Heap where
  cells := Array.replicate capacity Cell.zero
  here := 0

@[inline] def capacity (h : Heap) : Nat :=
  h.cells.size

/-- The cell at an address of the heap. -/
@[inline] def get? (h : Heap) (address : Nat) : Option Cell :=
  h.cells[address]?

/-- Overwrites the cell at an address; an address outside the heap changes nothing. -/
@[inline] def set (h : Heap) (address : Nat) (c : Cell) : Heap :=
  { h with cells := h.cells.setIfInBounds address c }

/-- Fills the next cell. -/
@[inline] def push (h : Heap) (c : Cell) : Heap :=
  { cells := h.cells.setIfInBounds h.here c, here := h.here + 1 }

@[simp] theorem capacity_ofCapacity (n : Nat) : (ofCapacity n).capacity = n := by
  simp [ofCapacity, capacity]

@[simp] theorem here_ofCapacity (n : Nat) : (ofCapacity n).here = 0 := rfl

@[simp] theorem capacity_set (h : Heap) (a : Nat) (c : Cell) : (h.set a c).capacity = h.capacity := by
  simp [set, capacity]

@[simp] theorem here_set (h : Heap) (a : Nat) (c : Cell) : (h.set a c).here = h.here := rfl

@[simp] theorem capacity_push (h : Heap) (c : Cell) : (h.push c).capacity = h.capacity := by
  simp [push, capacity]

@[simp] theorem here_push (h : Heap) (c : Cell) : (h.push c).here = h.here + 1 := rfl

/-- Only the addresses of the heap hold a cell. -/
theorem get?_eq_none_iff {h : Heap} {a : Nat} : h.get? a = none ↔ h.capacity ≤ a := by
  simp [get?, capacity]

theorem lt_capacity_of_get? {h : Heap} {a : Nat} {c : Cell} (hcell : h.get? a = some c) :
    a < h.capacity := by
  apply Nat.lt_of_not_le
  intro hout
  rw [get?_eq_none_iff.mpr hout] at hcell
  cases hcell

theorem get?_set (h : Heap) (a b : Nat) (c : Cell) :
    (h.set a c).get? b = if a = b ∧ a < h.capacity then some c else h.get? b := by
  simp only [set, get?, capacity, Array.getElem?_setIfInBounds]
  grind

theorem get?_push (h : Heap) (b : Nat) (c : Cell) :
    (h.push c).get? b = if h.here = b ∧ h.here < h.capacity then some c else h.get? b := by
  simp only [push, get?, capacity, Array.getElem?_setIfInBounds]
  grind

end Heap

end Forth

/-
Stacks of cells.  A stack keeps its depth beside its cells, so that comparing the depth with a limit
takes one step; the two cannot disagree.
-/
import Forth.Cell

namespace Forth

/-- A stack of cells, top first. -/
structure Stack where
  cells : List Cell
  depth : Nat := cells.length
  depth_eq : depth = cells.length := by rfl
deriving DecidableEq, Repr

namespace Stack

/-- The stack with the given cells, top first. -/
def ofList (cells : List Cell) : Stack where
  cells := cells

def empty : Stack := ofList []

instance : Inhabited Stack := ⟨empty⟩

@[inline] def push (s : Stack) (c : Cell) : Stack where
  cells := c :: s.cells
  depth := s.depth + 1
  depth_eq := by rw [s.depth_eq, List.length_cons]

/-- The stack without its top; nothing changes on the empty stack. -/
@[inline] def pop (s : Stack) : Stack where
  cells := s.cells.tail
  depth := s.depth - 1
  depth_eq := by rw [s.depth_eq, List.length_tail]

/-- The top cell. -/
@[inline] def top? (s : Stack) : Option Cell :=
  s.cells.head?

/-- The cell at a distance from the top, which is at distance 0. -/
@[inline] def peek? (s : Stack) (distance : Nat) : Option Cell :=
  s.cells[distance]?

/-- The cells from bottom to top. -/
def toList (s : Stack) : List Cell :=
  s.cells.reverse

/-- A stack is determined by its cells. -/
@[ext] theorem ext_cells {s t : Stack} (h : s.cells = t.cells) : s = t := by
  obtain ⟨cells, depth, hs⟩ := s
  obtain ⟨_, depth', ht⟩ := t
  subst h
  subst hs
  subst ht
  rfl

@[simp] theorem cells_ofList (cells : List Cell) : (ofList cells).cells = cells := rfl

@[simp] theorem cells_empty : empty.cells = [] := rfl

@[simp] theorem cells_push (s : Stack) (c : Cell) : (s.push c).cells = c :: s.cells := rfl

@[simp] theorem cells_pop (s : Stack) : s.pop.cells = s.cells.tail := rfl

@[simp] theorem pop_push (s : Stack) (c : Cell) : (s.push c).pop = s := by
  ext1
  simp

@[simp] theorem ofList_cells (s : Stack) : ofList s.cells = s := by
  ext1
  simp

end Stack

end Forth

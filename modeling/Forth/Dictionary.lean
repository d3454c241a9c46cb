/-
The dictionary: the words that have been defined, in order, and the set of immediate words.  A word
may be defined again; the newest entry is the one in force, and the older entries stay listed.
-/
import Forth.Cell

namespace Forth

/-- A word and what it executes. -/
structure Entry where
  name : String
  op : Op
deriving DecidableEq, Repr

/-- The defined words, newest first, and the names that have been marked immediate. -/
structure Dictionary where
  entries : List Entry
  immediates : List String
deriving DecidableEq, Repr

namespace Dictionary

/-- The operation of the newest entry of a name. -/
def find? (d : Dictionary) (name : String) : Option Op :=
  (d.entries.find? fun e => e.name == name).map Entry.op

/-- The name of the oldest entry of an operation. -/
def nameOf? (d : Dictionary) (op : Op) : Option String :=
  (d.entries.reverse.find? fun e => e.op == op).map Entry.name

def define (d : Dictionary) (name : String) (op : Op) : Dictionary :=
  { d with entries := ⟨name, op⟩ :: d.entries }

def isImmediate (d : Dictionary) (name : String) : Bool :=
  d.immediates.contains name

/-- Makes a defined name immediate, also for its later entries.  A name without an entry is left
alone. -/
def markImmediate (d : Dictionary) (name : String) : Dictionary :=
  if (d.find? name).isSome && !d.isImmediate name then
    { d with immediates := name :: d.immediates }
  else d

/-- The names in the order of their definition, one for each entry. -/
def words (d : Dictionary) : List String :=
  (d.entries.map Entry.name).reverse

/-- The immediate names in alphabetical order of their characters. -/
def sortedImmediates (d : Dictionary) : List String :=
  d.immediates.mergeSort fun a b => decide (a ≤ b)

/-- The text of a cell.  A primitive goes by the first name it was given; a body by its address even
if it has a name. -/
def render (d : Dictionary) : Cell → String
  | .op (.primitive p) => (d.nameOf? (.primitive p)).getD (Op.primitive p).text
  | c => c.text

/-- The primitives in the order in which a new dictionary lists them, up to the end marker. -/
def primitivesBeforeExit : List Primitive :=
  [.add, .sub, .mul, .div, .logicalAnd, .logicalOr, .logicalNot, .equal, .less, .pushTrue, .pushFalse,
   .drop, .dup, .swap, .clear, .here, .lit, .toReturn, .fromReturn, .loopIndex, .loopLimit, .comma,
   .store, .fetch, .tick, .immediate]

/-- The primitives that a new dictionary lists behind the end marker. -/
def primitivesAfterExit : List Primitive :=
  [.display, .displayStack, .words, .jumpIfFalse, .jump, .colon, .semicolon, .comment]

/-- The entries of a new dictionary, oldest first. -/
def builtins : List Entry :=
  primitivesBeforeExit.map (fun p => ⟨p.name, .primitive p⟩) ++
    ⟨"exit", .exit⟩ :: primitivesAfterExit.map (fun p => ⟨p.name, .primitive p⟩)

/-- The dictionary that holds the primitives and the end marker. -/
def core : Dictionary where
  entries := builtins.reverse
  immediates :=
    ((primitivesBeforeExit ++ primitivesAfterExit).filter Primitive.isImmediate).map Primitive.name

@[simp] theorem entries_define (d : Dictionary) (name : String) (op : Op) :
    (d.define name op).entries = ⟨name, op⟩ :: d.entries := rfl

@[simp] theorem entries_markImmediate (d : Dictionary) (name : String) :
    (d.markImmediate name).entries = d.entries := by
  unfold markImmediate
  split <;> rfl

theorem find?_define (d : Dictionary) (name other : String) (op : Op) :
    (d.define name op).find? other = if name = other then some op else d.find? other := by
  by_cases h : name = other <;> simp [find?, define, h]

example : core.words.length = 35 := by decide
example : core.find? "lit" = some (.primitive .lit) ∧ core.find? "exit" = some .exit :=
  ⟨rfl, rfl⟩

end Dictionary

end Forth

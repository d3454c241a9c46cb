/-
The values that live on the stacks and in the heap.  A cell holds a 64-bit integer, a flag or an
operation, and knows which, so that a cell of the wrong kind is an error and never a reinterpreted
bit pattern.
-/
import Forth.Error
import Forth.Numeral
import Forth.Primitive

namespace Forth

/-- What the machine can execute. -/
inductive Op where
  /-- A built-in operation. -/
  | primitive (p : Primitive)
  /-- The threaded code that starts at a heap address. -/
  | body (address : Nat)
  /-- The end of threaded code. -/
  | exit
deriving DecidableEq, Repr, Inhabited

/-- A value of the machine. -/
inductive Cell where
  | int (n : Int64)
  | flag (b : Bool)
  | op (o : Op)
deriving DecidableEq, Repr

/-- The three kinds of cells. -/
inductive Kind where
  | int
  | flag
  | op
deriving DecidableEq, Repr

/-- The name of a kind, as it appears in messages. -/
def Kind.name : Kind → String
  | .int => "int"
  | .flag => "flag"
  | .op => "fun"

/-- The text of an operation seen on its own, without a dictionary. -/
def Op.text : Op → String
  | .primitive p => "xf:" ++ p.name
  | .body address => "xt_" ++ Numeral.ofNat address
  | .exit => "exit"

namespace Cell

/-- The content of fresh heap cells. -/
def zero : Cell := .int 0

instance : Inhabited Cell := ⟨zero⟩

def kind : Cell → Kind
  | .int _ => .int
  | .flag _ => .flag
  | .op _ => .op

/-- The failure of a cell to be of the expected kind. -/
def mismatch (expected : Kind) (c : Cell) : Error :=
  .typeMismatch expected.name c.kind.name

@[inline] def toInt : Cell → Except Error Int64
  | .int n => .ok n
  | c => .error (c.mismatch .int)

@[inline] def toFlag : Cell → Except Error Bool
  | .flag b => .ok b
  | c => .error (c.mismatch .flag)

@[inline] def toOp : Cell → Except Error Op
  | .op o => .ok o
  | c => .error (c.mismatch .op)

/-- The address that a cell denotes: its integer, unless that is negative. -/
@[inline] def toAddress (c : Cell) : Except Error Nat :=
  match c.toInt with
  | .ok n => if n < 0 then .error .invalidAddress else .ok n.toNatClampNeg
  | .error e => .error e

/-- An address as a cell.  The 64 bits are kept, so an address from `2 ^ 63` on becomes negative and
is no address any more when it is read back. -/
def ofAddress (address : Nat) : Cell :=
  .int (Int64.ofNat address)

/-- Equality of two cells of one kind; across kinds it is a failure that expects the kind of the
first. -/
def sameKindEq (a b : Cell) : Except Error Bool :=
  match a, b with
  | .int m, .int n => .ok (m == n)
  | .flag p, .flag q => .ok (p == q)
  | .op o, .op u => .ok (o == u)
  | a, b => .error (b.mismatch a.kind)

/-- The text of a cell seen on its own, without a dictionary. -/
def text : Cell → String
  | .int n => Numeral.ofInt n.toInt
  | .flag b => if b then "true" else "false"
  | .op o => o.text

example : toAddress (ofAddress 12) = .ok 12 := rfl
example : ofAddress (2 ^ 64 - 1) = .int (-1) := by decide
example : toAddress (ofAddress (2 ^ 63)) = .error .invalidAddress := rfl

end Cell

end Forth

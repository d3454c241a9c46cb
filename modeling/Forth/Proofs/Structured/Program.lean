/-
Structured programs: branches and loops over the words of the data stack, nested in any way.  A program
has a text, the code that the text is compiled to, and a meaning of its own, which knows nothing of
code, addresses or jumps.
-/
import Forth.Proofs.CodeRules

namespace Forth

open Machine Run

/-- The words of the library that work on the data stack. -/
inductive StackWord where
  | overWord | rot | backRot | nip | tuck | twoDup | twoDrop
  | unequal | greater | atMost | atLeast
  | increment | decrement
  | minimum | maximum
deriving DecidableEq, Repr

namespace StackWord

def name : StackWord → String
  | overWord => "over"
  | rot => "rot"
  | backRot => "-rot"
  | nip => "nip"
  | tuck => "tuck"
  | twoDup => "2dup"
  | twoDrop => "2drop"
  | unequal => "!="
  | greater => ">"
  | atMost => "<="
  | atLeast => ">="
  | increment => "1+"
  | decrement => "1-"
  | minimum => "min"
  | maximum => "max"

/-- Where the library puts the word. -/
def address : StackWord → Nat
  | overWord => 0
  | rot => 5
  | backRot => 10
  | nip => 13
  | tuck => 16
  | twoDup => 19
  | twoDrop => 22
  | unequal => 25
  | greater => 28
  | atMost => 31
  | atLeast => 34
  | increment => 37
  | decrement => 41
  | minimum => 167
  | maximum => 176

/-- Copies the two topmost cells. -/
def duplicatePair : Action Unit := do
  let b ← pop
  let a ← pop
  push a
  push b
  push a
  push b

/-- Takes the two topmost cells in the other order, and compares them as integers.  The lower one is
the first to be checked, and the upper one is still there if that fails. -/
def compareGreater : Action Bool := do
  Primitive.execute .swap
  let a ← popInt
  let b ← popInt
  pure (decide (b < a))

/-- Replaces the two topmost cells by one of them.  They are compared in copies, which are what a
failure leaves behind. -/
def select (choose : Action Int64) : Action Unit := do
  duplicatePair
  let n ← choose
  discard pop
  discard pop
  push (.int n)

/-- What the word does to the data stack. -/
def effect : StackWord → Action Unit
  | overWord => do
      let b ← pop
      let a ← pop
      push a
      push b
      push a
  | rot => do
      let c ← pop
      let b ← pop
      let a ← pop
      push b
      push c
      push a
  | backRot => do
      let c ← pop
      let b ← pop
      let a ← pop
      push c
      push a
      push b
  | nip => do
      let b ← pop
      discard pop
      push b
  | tuck => do
      let b ← pop
      let a ← pop
      push b
      push a
      push b
  | twoDup => duplicatePair
  | twoDrop => do
      discard pop
      discard pop
  | unequal => do
      let b ← pop
      let a ← pop
      push (.flag (!(← demand (a.sameKindEq b))))
  | greater => do push (.flag (← compareGreater))
  | atMost => do push (.flag (!(← compareGreater)))
  | atLeast => do
      let b ← popInt
      let a ← popInt
      push (.flag (decide (b ≤ a)))
  | increment => do push (.int ((← popInt) + 1))
  | decrement => do push (.int ((← popInt) - 1))
  | minimum => select do
      let b ← popInt
      let a ← popInt
      pure (if a < b then a else b)
  | maximum => select do
      Primitive.execute .swap
      let a ← popInt
      let b ← popInt
      pure (if b < a then a else b)

end StackWord

/-- A word on the data stack: a primitive, or one of the library. -/
inductive DataWord where
  | primitive (p : Primitive) (hp : p.isDataWord = true)
  | library (w : StackWord)

namespace DataWord

def name : DataWord → String
  | primitive p _ => p.name
  | library w => w.name

def op : DataWord → Op
  | primitive p _ => .primitive p
  | library w => .body w.address

def effect : DataWord → Action Unit
  | primitive p _ => p.execute
  | library w => w.effect

end DataWord

/-- A numeral with its value. -/
structure Literal where
  text : String
  value : Int64
  denotes : Numeral.int64? text = some value

/-- A structured program. -/
inductive Program where
  | skip
  | literal (l : Literal)
  | word (w : DataWord)
  | seq (p q : Program)
  | ifThen (p : Program)
  | ifElse (p q : Program)
  | untilTrue (p : Program)
  | whileTrue (p q : Program)
  | forever (p : Program)

namespace Program

/-- The words of the text of a program. -/
def tokens : Program → List String
  | skip => []
  | literal l => [l.text]
  | word w => [w.name]
  | seq p q => p.tokens ++ q.tokens
  | ifThen p => "if" :: p.tokens ++ ["then"]
  | ifElse p q => "if" :: p.tokens ++ "else" :: q.tokens ++ ["then"]
  | untilTrue p => "begin" :: p.tokens ++ ["until"]
  | whileTrue p q => "begin" :: p.tokens ++ "while" :: q.tokens ++ ["repeat"]
  | forever p => "begin" :: p.tokens ++ ["again"]

/-- A jump with its offset, which counts from the cell that holds it. -/
def jumpCells (o : Primitive) (offset : Int) : List Cell :=
  [.op (.primitive o), .int (Int64.ofInt offset)]

@[simp] theorem length_jumpCells (o : Primitive) (offset : Int) : (jumpCells o offset).length = 2 := rfl

/-- The code of a program.  It is the same wherever it lies. -/
def code : Program → List Cell
  | skip => []
  | literal l => [.op (.primitive .lit), .int l.value]
  | word w => [.op w.op]
  | seq p q => p.code ++ q.code
  | ifThen p => jumpCells .jumpIfFalse (p.code.length + 1) ++ p.code
  | ifElse p q =>
      jumpCells .jumpIfFalse (p.code.length + 3) ++ p.code ++
        jumpCells .jump (q.code.length + 1) ++ q.code
  | untilTrue p => p.code ++ jumpCells .jumpIfFalse (-(p.code.length + 1))
  | whileTrue p q =>
      p.code ++ jumpCells .jumpIfFalse (q.code.length + 3) ++ q.code ++
        jumpCells .jump (-(p.code.length + q.code.length + 3))
  | forever p => p.code ++ jumpCells .jump (-(p.code.length + 1))

/-- What a program does.  Branches and loops take a flag from the data stack: `until` goes round again
if it is false, `while` leaves the loop if it is false, and `again` always goes round. -/
def exec : Program → Nat → Run Unit
  | skip => fun _ => pure ()
  | literal l => fun _ => push (.int l.value)
  | word w => fun _ => w.effect
  | seq p q => fun fuel => do
      p.exec fuel
      q.exec fuel
  | ifThen p => fun fuel => do
      if ← popFlag then p.exec fuel else pure ()
  | ifElse p q => fun fuel => do
      if ← popFlag then p.exec fuel else q.exec fuel
  | untilTrue p => repeatWhile fun fuel => do
      p.exec fuel
      if ← popFlag then pure false else pure true
  | whileTrue p q => repeatWhile fun fuel => do
      p.exec fuel
      if ← popFlag then
        q.exec fuel
        pure true
      else pure false
  | forever p => repeatWhile fun fuel => do
      p.exec fuel
      pure true

theorem steady_branch {α : Type} {x y : Nat → Run α} (hx : Steady x) (hy : Steady y) :
    Steady fun fuel => (liftM popFlag : Run Bool) >>= fun b => if b then x fuel else y fuel := by
  refine Steady.bind (Steady.const _) fun b => ?_
  cases b with
  | true => exact hx
  | false => exact hy

theorem exec_steady (p : Program) : Steady p.exec := by
  induction p with
  | skip => exact Steady.const _
  | literal l => exact Steady.const _
  | word w => exact Steady.const _
  | seq p q ihp ihq => exact Steady.bind ihp fun _ => ihq
  | ifThen p ih => exact steady_branch ih (Steady.const _)
  | ifElse p q ihp ihq => exact steady_branch ihp ihq
  | untilTrue p ih =>
      have hflag := steady_branch (Steady.const (pure false)) (Steady.const (pure true))
      exact Steady.repeatWhile (Steady.bind ih fun _ => hflag)
  | whileTrue p q ihp ihq =>
      have hagain : Steady fun fuel => q.exec fuel >>= fun _ => pure true :=
        Steady.bind ihq fun _ => Steady.const _
      have hflag := steady_branch hagain (Steady.const (pure false))
      exact Steady.repeatWhile (Steady.bind ihp fun _ => hflag)
  | forever p ih => exact Steady.repeatWhile (Steady.bind ih fun _ => Steady.const _)

end Program

namespace StackWord

open Program

def primitive (o : Primitive) (ho : o.isDataWord = true := by rfl) : Program :=
  .word (.primitive o ho)

def library (w : StackWord) : Program :=
  .word (.library w)

def one : Literal := ⟨"1", 1, rfl⟩

/-- Chooses between the two topmost cells by a comparison. -/
def extremum (compare : Program) : Program :=
  seq (library twoDup) (seq compare (ifElse (primitive .drop) (library nip)))

/-- The code of a word, up to the end marker.  All but two words are structured programs themselves. -/
def code : StackWord → List Cell
  | overWord =>
      [.op (.primitive .toReturn), .op (.primitive .dup), .op (.primitive .fromReturn),
        .op (.primitive .swap)]
  | rot =>
      [.op (.primitive .toReturn), .op (.primitive .swap), .op (.primitive .fromReturn),
        .op (.primitive .swap)]
  | backRot => (seq (library rot) (library rot)).code
  | nip => (seq (primitive .swap) (primitive .drop)).code
  | tuck => (seq (primitive .swap) (library overWord)).code
  | twoDup => (seq (library overWord) (library overWord)).code
  | twoDrop => (seq (primitive .drop) (primitive .drop)).code
  | unequal => (seq (primitive .equal) (primitive .logicalNot)).code
  | greater => (seq (primitive .swap) (primitive .less)).code
  | atMost => (seq (library greater) (primitive .logicalNot)).code
  | atLeast => (seq (primitive .less) (primitive .logicalNot)).code
  | increment => (seq (literal one) (primitive .add)).code
  | decrement => (seq (literal one) (primitive .sub)).code
  | minimum => (extremum (primitive .less)).code
  | maximum => (extremum (library greater)).code

end StackWord

end Forth

/-
Reading and writing of integers in decimal.  A numeral is an optional sign followed by at least one
of the ten ASCII digits; leading zeros are allowed.  Signed 64-bit values are what a program may
write down, and sizes below `2 ^ 64` are what the command line takes.
-/

namespace Forth.Numeral

/-- The value of a nonempty row of digits. -/
def digits? (cs : List Char) : Option Nat :=
  if !cs.isEmpty && cs.all Char.isDigit then some (Nat.ofDigitChars 10 cs 0) else none

/-- The value of a numeral with an optional single sign. -/
def int? : List Char → Option Int
  | '+' :: cs => (digits? cs).map Int.ofNat
  | '-' :: cs => (digits? cs).map fun (n : Nat) => -(n : Int)
  | cs => (digits? cs).map Int.ofNat

/-- Whether an integer lies in the range of 64-bit two's complement, from `-2 ^ 63` to `2 ^ 63 - 1`. -/
def fits (n : Int) : Bool :=
  decide (-9223372036854775808 ≤ n) && decide (n ≤ 9223372036854775807)

/-- The value of a numeral that lies in the signed 64-bit range. -/
def int64? (word : String) : Option Int64 :=
  match int? word.toList with
  | some n => if fits n then some (Int64.ofInt n) else none
  | none => none

/-- The shortest numeral of a natural number. -/
def ofNat (n : Nat) : String :=
  String.ofList (Nat.toDigits 10 n)

/-- The shortest numeral of an integer: a minus sign if it is negative, and never a plus. -/
def ofInt (n : Int) : String :=
  if n < 0 then "-" ++ ofNat n.natAbs else ofNat n.natAbs

/-- Why a text is not the numeral of a size. -/
inductive SizeFault where
  | empty
  | invalidDigit
  | tooLarge
deriving DecidableEq, Repr

/-- The text shown for a text that is not a size. -/
def SizeFault.message : SizeFault → String
  | .empty => "cannot parse integer from empty string"
  | .invalidDigit => "invalid digit found in string"
  | .tooLarge => "number too large to fit in target type"

/-- The least size that is too large, `2 ^ 64`. -/
def sizeLimit : Nat := 18446744073709551616

/-- Reads digits after a value read so far.  The first character at which the text goes wrong decides
the fault: one that is no digit, or one that takes the value to the limit. -/
def sizeFrom : Nat → List Char → Except SizeFault Nat
  | n, [] => .ok n
  | n, c :: cs =>
      if !c.isDigit then .error .invalidDigit
      else
        let next := 10 * n + (c.toNat - '0'.toNat)
        if next < sizeLimit then sizeFrom next cs else .error .tooLarge

/-- The size that a text denotes: digits with an optional plus sign. -/
def size (text : String) : Except SizeFault Nat :=
  match text.toList with
  | [] => .error .empty
  | ['+'] => .error .invalidDigit
  | '+' :: cs => sizeFrom 0 cs
  | cs => sizeFrom 0 cs

/-- The digits of a natural number read back as that number. -/
theorem digits?_toDigits (n : Nat) : digits? (Nat.toDigits 10 n) = some n := by
  have hne : (Nat.toDigits 10 n).isEmpty = false := by
    rw [Nat.toDigits_eq_if (by decide)]
    split <;> simp
  have hall : (Nat.toDigits 10 n).all Char.isDigit = true := by
    rw [List.all_eq_true]
    intro c hc
    exact Nat.isDigit_of_mem_toDigits (by decide) (by decide) hc
  simp [digits?, hne, hall, Nat.ofDigitChars_toDigits]

/-- A row of digits needs no sign. -/
theorem int?_of_digits {cs : List Char} {n : Nat} (h : digits? cs = some n) :
    int? cs = some (n : Int) := by
  unfold int?
  split
  · rename_i cs'
    simp [digits?, show Char.isDigit '+' = false from rfl] at h
  · rename_i cs'
    simp [digits?, show Char.isDigit '-' = false from rfl] at h
  · simp [h]

/-- Every integer reads back from its numeral. -/
theorem int?_ofInt (n : Int) : int? (ofInt n).toList = some n := by
  unfold ofInt ofNat
  split
  · rename_i hneg
    have habs : -(n.natAbs : Int) = n := by omega
    have hlist : ("-" ++ String.ofList (Nat.toDigits 10 n.natAbs)).toList =
        '-' :: Nat.toDigits 10 n.natAbs := by
      simp
    rw [hlist, int?, digits?_toDigits, Option.map_some, habs]
  · rename_i hpos
    have habs : (n.natAbs : Int) = n := by omega
    rw [String.toList_ofList, int?_of_digits (digits?_toDigits _), habs]

/-- Every 64-bit value reads back from its numeral. -/
theorem int64?_ofInt (n : Int64) : int64? (ofInt n.toInt) = some n := by
  have hlow := n.le_toInt
  have hhigh := n.toInt_lt
  have hfits : fits n.toInt = true := by
    simp only [fits, Bool.and_eq_true, decide_eq_true_eq]
    omega
  simp [int64?, int?_ofInt, hfits]

example : int64? "-9223372036854775808" = some Int64.minValue := by rfl
example : int64? "9223372036854775808" = none := by rfl
example : int64? "+007" = some 7 ∧ int64? "+-7" = none ∧ int64? "+" = none := ⟨rfl, rfl, rfl⟩
example : ofInt (-12) = "-12" := by rfl

end Forth.Numeral

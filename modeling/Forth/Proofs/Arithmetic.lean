/-
Arithmetic.  An expression is written with each operator behind its operands, and has a value that is
found among the integers and wrapped to 64 bits at each node.  Evaluating what is written puts the value on
top of the data stack, or stops at a division by zero.
-/
import Forth.Proofs.CompileMode

namespace Forth

open Machine Run

/-! ### Expressions -/

/-- The operators on integers. -/
inductive Operator where
  | add | sub | mul | div
deriving DecidableEq, Repr

namespace Operator

def primitive : Operator → Primitive
  | add => .add
  | sub => .sub
  | mul => .mul
  | div => .div

/-- The result among all integers.  A quotient is truncated toward zero. -/
def exact : Operator → Int → Int → Int
  | add, a, b => a + b
  | sub, a, b => a - b
  | mul, a, b => a * b
  | div, a, b => a.tdiv b

/-- The result in a cell. -/
def apply : Operator → Int64 → Int64 → Int64
  | add, a, b => a + b
  | sub, a, b => a - b
  | mul, a, b => a * b
  | div, a, b => a / b

end Operator

/-- The number from `-2 ^ 63` to `2 ^ 63 - 1` that differs from an integer by a multiple of `2 ^ 64`. -/
def wrapped (n : Int) : Int :=
  n.bmod (2 ^ 64)

/-- An expression over literals. -/
inductive Expression where
  | literal (l : Literal)
  | node (o : Operator) (left right : Expression)

namespace Expression

/-- The words of an expression, operands first. -/
def words : Expression → List String
  | literal l => [l.text]
  | node o left right => left.words ++ right.words ++ [o.primitive.name]

def literals : Expression → List Literal
  | literal l => [l]
  | node _ left right => left.literals ++ right.literals

/-- The right operands of the divisions. -/
def divisors : Expression → List Expression
  | literal _ => []
  | node o left right => left.divisors ++ right.divisors ++ if o = .div then [right] else []

/-- The value in wrapping arithmetic, unless there is a division by zero. -/
def value : Expression → Option Int
  | literal l => some l.value.toInt
  | node o left right =>
      match left.value, right.value with
      | some a, some b => if o = .div ∧ b = 0 then none else some (wrapped (o.exact a b))
      | _, _ => none

/-- The value among all integers. -/
def exact : Expression → Int
  | literal l => l.value.toInt
  | node o left right => o.exact left.exact right.exact

theorem value_node_eq_none_iff {o : Operator} {left right : Expression} :
    (node o left right).value = none ↔
      left.value = none ∨ right.value = none ∨ o = .div ∧ right.value = some 0 := by
  rw [value]
  cases left.value <;> cases right.value <;> simp

theorem value_node_eq_some {o : Operator} {left right : Expression} {v : Int}
    (h : (node o left right).value = some v) :
    ∃ a b, left.value = some a ∧ right.value = some b ∧ ¬ (o = .div ∧ b = 0) ∧
      wrapped (o.exact a b) = v := by
  rw [value] at h
  split at h
  · split at h
    · cases h
    · exact ⟨_, _, ‹_›, ‹_›, ‹_›, Option.some.inj h⟩
  · cases h

theorem mem_divisors_node {o : Operator} {left right d : Expression} :
    d ∈ (node o left right).divisors ↔
      d ∈ left.divisors ∨ d ∈ right.divisors ∨ o = .div ∧ d = right := by
  by_cases ho : o = .div <;> simp [divisors, ho]

/-- An expression has no value exactly if the right operand of some division is zero. -/
theorem value_eq_none_iff (e : Expression) :
    e.value = none ↔ ∃ d ∈ e.divisors, d.value = some 0 := by
  induction e with
  | literal l => simp [value, divisors]
  | node o left right ihleft ihright =>
      rw [value_node_eq_none_iff, ihleft, ihright]
      simp only [mem_divisors_node, or_and_right, exists_or, and_assoc, exists_and_left, exists_eq_left]

theorem exact_wrapped {o : Operator} (ho : o ≠ .div) (a b : Int) :
    wrapped (o.exact (wrapped a) (wrapped b)) = wrapped (o.exact a b) := by
  cases o with
  | add => exact (Int.add_bmod a b _).symm
  | sub => exact (Int.sub_bmod a b _).symm
  | mul => exact (Int.mul_bmod a b _).symm
  | div => exact absurd rfl ho

/-- Without divisions, wrapping once is enough. -/
theorem value_of_divisors_eq_nil {e : Expression} (h : e.divisors = []) :
    e.value = some (wrapped e.exact) := by
  induction e with
  | literal l => exact congrArg some (Int64.toInt_bmod l.value).symm
  | node o left right ihleft ihright =>
      simp only [divisors, List.append_eq_nil_iff, ite_eq_right_iff, List.cons_ne_nil, imp_false] at h
      obtain ⟨⟨hleft, hright⟩, ho⟩ := h
      simp only [value, ihleft hleft, ihright hright, ho, false_and, ↓reduceIte, exact_wrapped ho, exact]

end Expression

/-! ### Operators on the stack -/

namespace Operator

variable {o : Operator} {a b : Int64}

theorem toInt_apply (o : Operator) (a b : Int64) :
    (o.apply a b).toInt = wrapped (o.exact a.toInt b.toInt) := by
  cases o with
  | add => exact Int64.toInt_add a b
  | sub => exact Int64.toInt_sub a b
  | mul => exact Int64.toInt_mul a b
  | div => exact Int64.toInt_div a b

theorem divide_apply (m : Machine) (a b : Int64) :
    Primitive.execute .div { m with data := (m.data.push (.int a)).push (.int b) } =
      (if b = 0 then throw .divisionByZero else push (.int (a / b)) : Action Unit) m :=
  rfl

/-- An operator replaces its operands, the lower one first, by its result. -/
theorem execute_of_ne_zero (m : Machine) (h : o = .div → b ≠ 0) :
    o.primitive.execute { m with data := (m.data.push (.int a)).push (.int b) } =
      .ok () { m with data := m.data.push (.int (o.apply a b)) } := by
  cases o with
  | add => rfl
  | sub => rfl
  | mul => rfl
  | div =>
      refine (divide_apply m a b).trans ?_
      rw [if_neg (h rfl)]
      rfl

/-- A division by zero takes its operands away. -/
theorem execute_div_zero (m : Machine) (a : Int64) :
    Primitive.execute .div { m with data := (m.data.push (.int a)).push (.int 0) } =
      .error .divisionByZero m :=
  rfl

end Operator

namespace Machine

variable {m : Machine} {e left right : Expression} {o : Operator}

/-- The machine interprets, knows the operators as they were built in, and has no words for the literals
of the expression. -/
structure Calculates (m : Machine) (e : Expression) : Prop where
  mode : m.mode = .interpret
  operators : ∀ o : Operator, m.dictionary.find? o.primitive.name = some (.primitive o.primitive)
  literals : ∀ l ∈ e.literals, m.dictionary.find? l.text = none

namespace Calculates

theorem leftOperand (h : m.Calculates (.node o left right)) : m.Calculates left :=
  ⟨h.mode, h.operators, fun l hl => h.literals l (List.mem_append_left _ hl)⟩

theorem rightOperand (h : m.Calculates (.node o left right)) : m.Calculates right :=
  ⟨h.mode, h.operators, fun l hl => h.literals l (List.mem_append_right _ hl)⟩

theorem withData (h : m.Calculates e) (data : Stack) : Calculates { m with data := data } e :=
  ⟨h.mode, h.operators, h.literals⟩

/-- The words of an expression put its value on top of the stack. -/
theorem reads (h : m.Calculates e) {v : Int} (hv : e.value = some v) :
    ∃ n : Int64, n.toInt = v ∧ Reads e.words m { m with data := m.data.push (.int n) } := by
  induction e generalizing m v with
  | literal l =>
      cases hv
      exact ⟨l.value, rfl, .number h.mode (h.literals l List.mem_cons_self) l.denotes⟩
  | node o left right ihleft ihright =>
      obtain ⟨a, b, hleft, hright, hzero, rfl⟩ := Expression.value_node_eq_some hv
      obtain ⟨na, rfl, hfirst⟩ := ihleft h.leftOperand hleft
      obtain ⟨nb, rfl, hsecond⟩ := ihright (h.rightOperand.withData _) hright
      have hdiv : o = .div → nb ≠ 0 := fun ho hnb => hzero ⟨ho, congrArg Int64.toInt hnb⟩
      refine ⟨o.apply na nb, o.toInt_apply na nb, (hfirst.append hsecond).append ?_⟩
      exact .primitive h.mode (h.operators o) fun source =>
        Operator.execute_of_ne_zero { m with source := source } hdiv

/-- The words of an expression without a value stop at a division by zero. -/
theorem stops (h : m.Calculates e) (hv : e.value = none) :
    ∃ data, StopsAt e.words m .divisionByZero { m with data := data } := by
  induction e generalizing m with
  | literal l => cases hv
  | node o left right ihleft ihright =>
      cases hleft : left.value with
      | none =>
          obtain ⟨data, hstops⟩ := ihleft h.leftOperand hleft
          exact ⟨data, (hstops.append right.words).append _⟩
      | some a =>
          obtain ⟨na, _, hfirst⟩ := h.leftOperand.reads hleft
          rcases Expression.value_node_eq_none_iff.mp hv with hnone | hright | ⟨rfl, hright⟩
          · cases hleft.symm.trans hnone
          · obtain ⟨data, hstops⟩ := ihright (h.rightOperand.withData _) hright
            exact ⟨data, (StopsAt.behind hfirst hstops).append _⟩
          · obtain ⟨nb, hnb, hsecond⟩ := (h.rightOperand.withData _).reads hright
            obtain rfl : nb = 0 := Int64.toInt_inj.mp hnb
            refine ⟨m.data, .behind (hfirst.append hsecond) ?_⟩
            exact .primitive h.mode (h.operators .div) fun source =>
              Operator.execute_div_zero { m with source := source } na

end Calculates

end Machine

/-- Evaluating the words of an expression computes the expression.  Whatever lies on the data stack, the
value is put on top of it and nothing else changes, unless the right operand of some division is zero; then
the evaluation fails, and only then.  Without divisions the value is the exact one, wrapped once. -/
theorem eval_computes_expression {m : Machine} {e : Expression} {text : String} (h : m.Calculates e)
    (htext : wordsOf text = e.words) :
    (∀ v, e.value = some v → ∃ n : Int64, n.toInt = v ∧
      Reaches (fun fuel => eval fuel text) m (.ok () { m with data := m.data.push (.int n) })) ∧
    ((∃ d ∈ e.divisors, d.value = some 0) ↔ ∃ data location,
      Reaches (fun fuel => eval fuel text) m (.error .divisionByZero
        { m with data := data, lastError := some ⟨.divisionByZero, location⟩ })) ∧
    ((∃ d ∈ e.divisors, d.value = some 0) ↔ e.value = none) ∧
    (e.divisors = [] → e.value = some (wrapped e.exact)) := by
  have hvalue : ∀ v, e.value = some v → ∃ n : Int64, n.toInt = v ∧
      Reaches (fun fuel => eval fuel text) m (.ok () { m with data := m.data.push (.int n) }) := by
    intro v hv
    obtain ⟨n, hn, hreads⟩ := h.reads hv
    exact ⟨n, hn, hreads.evalSource_of_readAll _ htext⟩
  refine ⟨hvalue, ⟨fun hzero => ?_, fun ⟨data, location, herror⟩ => ?_⟩, e.value_eq_none_iff.symm,
    Expression.value_of_divisors_eq_nil⟩
  · obtain ⟨data, hstops⟩ := h.stops (e.value_eq_none_iff.mpr hzero)
    rw [← htext] at hstops
    obtain ⟨location, herror⟩ := hstops.reaches_eval
    exact ⟨data, location, herror⟩
  · rw [← e.value_eq_none_iff]
    cases hv : e.value with
    | none => rfl
    | some v =>
        obtain ⟨n, _, hok⟩ := hvalue v hv
        cases (eval_steady text).reaches_unique hok herror

namespace Expression

/-- The least number, divided by `-1`. -/
def leastQuotient : Expression :=
  .node .div (.literal ⟨"-9223372036854775808", Int64.minValue, rfl⟩) (.literal ⟨"-1", -1, rfl⟩)

/-- A division by a difference that is zero. -/
def zeroDivisor : Expression :=
  .node .div (.literal ⟨"5", 5, rfl⟩) (.node .sub (.literal ⟨"3", 3, rfl⟩) (.literal ⟨"3", 3, rfl⟩))

end Expression

/-- The one quotient that does not fit wraps around, above a flag that stays where it is. -/
theorem eval_computes_expression_least_quotient :
    let m := { Machine.new 0 with data := Stack.empty.push (.flag true) }
    Reaches (fun fuel => eval fuel "-9223372036854775808 -1 /") m
      (.ok () { m with data := m.data.push (.int Int64.minValue) }) ∧
    ∃ data location, Reaches (fun fuel => eval fuel "5 3 3 - /") m (.error .divisionByZero
      { m with data := data, lastError := some ⟨.divisionByZero, location⟩ }) := by
  intro m
  have hoperators : ∀ o : Operator,
      m.dictionary.find? o.primitive.name = some (.primitive o.primitive) := by
    intro o
    cases o <;> rfl
  have hleast : m.Calculates .leastQuotient := ⟨rfl, hoperators, by decide⟩
  have hzero : m.Calculates .zeroDivisor := ⟨rfl, hoperators, by decide⟩
  have hleastWords : wordsOf "-9223372036854775808 -1 /" = Expression.leastQuotient.words := by
    decide +kernel
  have hzeroWords : wordsOf "5 3 3 - /" = Expression.zeroDivisor.words := by decide +kernel
  obtain ⟨hvalue, _⟩ := eval_computes_expression hleast hleastWords
  obtain ⟨_, hdivision, _⟩ := eval_computes_expression hzero hzeroWords
  constructor
  · obtain ⟨n, hn, hreaches⟩ := hvalue Int64.minValue.toInt (by decide)
    exact Int64.toInt_inj.mp hn ▸ hreaches
  · exact hdivision.mp ⟨_, List.mem_cons_self, by decide⟩

end Forth

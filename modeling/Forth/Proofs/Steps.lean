/-
Single steps of the inner interpreter.  A step is determined by the cell at the instruction pointer;
several steps that leave more to execute lead from one machine to another, and the answer of the loop
is the same from either end.
-/
import Forth.Proofs.Answers

namespace Forth

open Machine

namespace Cell

/-- The least number that is no address once it has been stored in a cell, `2 ^ 63`. -/
def addressLimit : Nat := 9223372036854775808

theorem toInt_ofNat_of_lt {a : Nat} (h : a < addressLimit) : (Int64.ofNat a).toInt = a :=
  Int64.toInt_ofNat_of_lt h

theorem toInt_ofInt_of_lt {n : Int} (hlow : -(addressLimit : Int) ≤ n) (hhigh : n < addressLimit) :
    (Int64.ofInt n).toInt = n :=
  Int64.toInt_ofInt_of_le hlow hhigh

/-- An address below the limit is read back from its cell. -/
theorem toAddress_ofAddress {a : Nat} (h : a < addressLimit) : (ofAddress a).toAddress = .ok a := by
  have hint := toInt_ofNat_of_lt h
  have hpositive : ¬ Int64.ofNat a < 0 := by
    rw [Int64.lt_iff_toInt_lt, hint]
    simp
  simp [toAddress, ofAddress, toInt, hpositive, Int64.toNatClampNeg, hint]

end Cell

namespace Machine

variable {m m₁ m₂ m' : Machine} {n n₁ n₂ : Nat} {e : Error}

/-! ### One step -/

theorem fetchHere_of_get? {c : Cell} (h : m.heap.get? m.ip = some c) : fetchHere m = .ok c m := by
  simp only [fetchHere, fetch, h]

theorem fetchHere_of_none (h : m.heap.get? m.ip = none) : fetchHere m = .error .invalidAddress m := by
  simp only [fetchHere, fetch, h]

theorem fetchOp_of_get? {op : Op} (h : m.heap.get? m.ip = some (.op op)) :
    fetchOp m = .ok op { m with ip := m.ip + 1 } :=
  Action.bind_of_ok (fetchHere_of_get? h)

theorem fetchOp_cases (m : Machine) :
    (∃ op, m.heap.get? m.ip = some (.op op)) ∨ ∃ e, fetchOp m = .error e m := by
  cases hcell : m.heap.get? m.ip with
  | none => exact Or.inr ⟨.invalidAddress, Action.bind_of_error (fetchHere_of_none hcell)⟩
  | some c =>
      have hfetch := fetchHere_of_get? hcell
      cases c with
      | op o => exact Or.inl ⟨o, rfl⟩
      | int n => exact Or.inr ⟨_, Action.bind_of_ok hfetch⟩
      | flag b => exact Or.inr ⟨_, Action.bind_of_ok hfetch⟩

theorem step_primitive_ok {p : Primitive} (h : m.heap.get? m.ip = some (.op (.primitive p)))
    (hp : p.execute { m with ip := m.ip + 1 } = .ok () m') : step n m = .ok (.more n) m' :=
  (Action.bind_of_ok (fetchOp_of_get? h)).trans (Action.bind_of_ok hp)

theorem step_primitive_error {p : Primitive} (h : m.heap.get? m.ip = some (.op (.primitive p)))
    (hp : p.execute { m with ip := m.ip + 1 } = .error e m') : step n m = .error e m' :=
  (Action.bind_of_ok (fetchOp_of_get? h)).trans (Action.bind_of_error hp)

/-- Behind the end of the heap there is nothing to execute. -/
theorem step_of_le (h : m.heap.capacity ≤ m.ip) : step n m = .error .invalidAddress m :=
  Action.bind_of_error (Action.bind_of_error (fetchHere_of_none (Heap.get?_eq_none_iff.mpr h)))

theorem saveIp_of_room (hroom : m.returns.depth < m.returnLimit) :
    saveIp m = .ok () { m with returns := m.returns.push (Cell.ofAddress m.ip) } := by
  simp only [saveIp, pushReturn, hroom, ↓reduceIte]

theorem saveIp_of_full (hroom : ¬ m.returns.depth < m.returnLimit) :
    saveIp m = .error .returnStackOverflow m := by
  simp only [saveIp, pushReturn, hroom, ↓reduceIte]

theorem step_body_ok {a : Nat} (h : m.heap.get? m.ip = some (.op (.body a)))
    (hroom : m.returns.depth < m.returnLimit) :
    step n m = .ok (.more (n + 1))
      { m with ip := a, returns := m.returns.push (Cell.ofAddress (m.ip + 1)) } := by
  have hsave := saveIp_of_room (m := { m with ip := m.ip + 1 }) hroom
  exact (Action.bind_of_ok (fetchOp_of_get? h)).trans (Action.bind_of_ok hsave)

theorem step_body_error {a : Nat} (h : m.heap.get? m.ip = some (.op (.body a)))
    (hroom : ¬ m.returns.depth < m.returnLimit) :
    step n m = .error .returnStackOverflow { m with ip := m.ip + 1 } := by
  have hsave := saveIp_of_full (m := { m with ip := m.ip + 1 }) hroom
  exact (Action.bind_of_ok (fetchOp_of_get? h)).trans (Action.bind_of_error hsave)

theorem step_exit_zero (h : m.heap.get? m.ip = some (.op .exit)) :
    step 0 m = .ok .finished { m with ip := m.ip + 1 } :=
  Action.bind_of_ok (fetchOp_of_get? h)

/-- A return address is taken from the return stack, whether it is one or not. -/
theorem restoreIp_of_push {c : Cell} {rest : Stack} (h : m.returns = rest.push c) :
    restoreIp m =
      match c.toAddress with
      | .ok a => .ok () { m with ip := a, returns := rest }
      | .error e => .error e { m with returns := rest } := by
  have hpop : popReturn m = .ok c { m with returns := rest } := by
    simp only [popReturn, h, Stack.top?, Stack.cells_push, List.head?_cons, Stack.pop_push]
  refine (Action.bind_of_ok hpop).trans ?_
  cases c.toAddress <;> rfl

/-- Taking a return address that was saved before. -/
theorem restoreIp_of_returns {a : Nat} {rest : Stack} (ha : a < Cell.addressLimit)
    (h : m.returns = rest.push (Cell.ofAddress a)) :
    restoreIp m = .ok () { m with ip := a, returns := rest } := by
  rw [restoreIp_of_push h, Cell.toAddress_ofAddress ha]

theorem step_exit_succ {a : Nat} {rest : Stack} (h : m.heap.get? m.ip = some (.op .exit))
    (ha : a < Cell.addressLimit) (hreturns : m.returns = rest.push (Cell.ofAddress a)) :
    step (n + 1) m = .ok (.more n) { m with ip := a, returns := rest } := by
  have hrestore : restoreIp { m with ip := m.ip + 1 } = .ok () { m with ip := a, returns := rest } :=
    restoreIp_of_returns ha hreturns
  exact (Action.bind_of_ok (fetchOp_of_get? h)).trans (Action.bind_of_ok hrestore)

/-! ### What the primitives do that are not ordinary -/

theorem pushInline_of_get? {c : Cell} (h : m.heap.get? m.ip = some c) :
    Primitive.pushInline m = .ok () { m with ip := m.ip + 1, data := m.data.push c } :=
  Action.bind_of_ok (fetchHere_of_get? h)

theorem pushInline_of_none (h : m.heap.get? m.ip = none) :
    Primitive.pushInline m = .error .invalidAddress m :=
  Action.bind_of_error (fetchHere_of_none h)

/-- A jump adds its offset to its own address. -/
theorem jumpInline_of_get? {offset : Int64} {target : Nat}
    (h : m.heap.get? m.ip = some (.int offset)) (hip : m.ip < Cell.addressLimit)
    (htarget : (target : Int) = m.ip + offset.toInt) (hlimit : target < Cell.addressLimit) :
    Primitive.jumpInline m = .ok () { m with ip := target } := by
  have hjump : jumpBy offset m = .ok () { m with ip := target } := by
    unfold Cell.addressLimit at hlimit
    have hrange : (0 : Int) ≤ target ∧ (target : Int) ≤ 9223372036854775807 := by omega
    simp only [jumpBy, Cell.toInt_ofNat_of_lt hip, ← htarget, if_pos hrange, Int.toNat_natCast]
  exact (Action.bind_of_ok (fetchHere_of_get? h)).trans hjump

theorem pop_of_top? {c : Cell} (h : m.data.top? = some c) :
    pop m = .ok c { m with data := m.data.pop } := by
  simp only [pop, h]

theorem pop_of_none (h : m.data.top? = none) : pop m = .error .stackUnderflow m := by
  simp only [pop, h]

theorem popFlag_of_top? {b : Bool} (h : m.data.top? = some (.flag b)) :
    popFlag m = .ok b { m with data := m.data.pop } :=
  Action.bind_of_ok (pop_of_top? h)

theorem popFlag_cases (m : Machine) :
    (∃ b s, popFlag m = .ok b { m with data := s }) ∨
      ∃ e s, popFlag m = .error e { m with data := s } := by
  cases htop : m.data.top? with
  | none => exact Or.inr ⟨.stackUnderflow, m.data, Action.bind_of_error (pop_of_none htop)⟩
  | some c =>
      have hpop := pop_of_top? htop
      cases c with
      | flag b => exact Or.inl ⟨b, m.data.pop, Action.bind_of_ok hpop⟩
      | int n => exact Or.inr ⟨_, m.data.pop, Action.bind_of_ok hpop⟩
      | op o => exact Or.inr ⟨_, m.data.pop, Action.bind_of_ok hpop⟩

theorem top?_of_popFlag_ok {b : Bool} (h : popFlag m = .ok b m₁) : m.data.top? = some (.flag b) := by
  cases htop : m.data.top? with
  | none => cases h.symm.trans (Action.bind_of_error (pop_of_none htop))
  | some c =>
      have hpop := h.symm.trans (Action.bind_of_ok (pop_of_top? htop))
      cases c with
      | flag b' =>
          cases hpop
          rfl
      | int n => cases hpop
      | op o => cases hpop

theorem toReturn_cases (m : Machine) :
    (∃ c s, Primitive.execute .toReturn m =
        .ok () { m with data := s, returns := m.returns.push c }) ∨
      ∃ e s, Primitive.execute .toReturn m = .error e { m with data := s } := by
  cases htop : m.data.top? with
  | none => exact Or.inr ⟨.stackUnderflow, m.data, Action.bind_of_error (pop_of_none htop)⟩
  | some c =>
      have hpop := Action.bind_of_ok (f := pushReturn) (pop_of_top? htop)
      by_cases hroom : m.returns.depth < m.returnLimit
      · exact Or.inl ⟨c, m.data.pop, hpop.trans (by simp only [pushReturn, hroom, ↓reduceIte])⟩
      · exact Or.inr ⟨.returnStackOverflow, m.data.pop,
          hpop.trans (by simp only [pushReturn, hroom, ↓reduceIte])⟩

theorem fromReturn_of_returns {c : Cell} {rest : List Cell} (h : m.returns.cells = c :: rest) :
    Primitive.execute .fromReturn m =
      .ok () { m with data := m.data.push c, returns := m.returns.pop } := by
  have hpop : popReturn m = .ok c { m with returns := m.returns.pop } := by
    simp only [popReturn, Stack.top?, h, List.head?_cons]
  exact Action.bind_of_ok hpop

theorem jumpIfFalse_of_popFlag_ok {b : Bool} (h : popFlag m = .ok b m₁) :
    Primitive.execute .jumpIfFalse m = if b then advance m₁ else Primitive.jumpInline m₁ := by
  refine (Action.bind_of_ok h).trans ?_
  cases b <;> rfl

theorem jumpIfFalse_of_popFlag_error (h : popFlag m = .error e m₁) :
    Primitive.execute .jumpIfFalse m = .error e m₁ :=
  Action.bind_of_error h

/-! ### Several steps -/

/-- The loop comes from a machine to a later one, and from one number of open bodies to another, by
steps after which there is more to execute. -/
inductive Steps : Nat → Machine → Nat → Machine → Prop where
  | refl (n : Nat) (m : Machine) : Steps n m n m
  | head {n n₁ n₂ : Nat} {m m₁ m₂ : Machine} :
      step n m = .ok (.more n₁) m₁ → Steps n₁ m₁ n₂ m₂ → Steps n m n₂ m₂

theorem Steps.single (h : step n m = .ok (.more n₁) m₁) : Steps n m n₁ m₁ :=
  .head h (.refl _ _)

theorem Steps.trans (h : Steps n m n₁ m₁) (h' : Steps n₁ m₁ n₂ m₂) : Steps n m n₂ m₂ := by
  induction h with
  | refl => exact h'
  | head hstep _ ih => exact .head hstep (ih h')

theorem Steps.tail (h : Steps n m n₁ m₁) (hstep : step n₁ m₁ = .ok (.more n₂) m₂) :
    Steps n m n₂ m₂ :=
  h.trans (.single hstep)

theorem thread_of_step_more (fuel : Nat) (h : step n m = .ok (.more n₁) m₁) :
    thread (fuel + 1) n m = thread fuel n₁ m₁ := by
  have hlift : (liftM (step n) : Run Turn) m = some (.ok (.more n₁) m₁) := by
    rw [Run.lift_apply, h]
  exact Run.bind_of_ok hlift

theorem thread_of_step_finished (fuel : Nat) (h : step n m = .ok .finished m₁) :
    thread (fuel + 1) n m = some (.ok () m₁) := by
  have hlift : (liftM (step n) : Run Turn) m = some (.ok .finished m₁) := by
    rw [Run.lift_apply, h]
  exact Run.bind_of_ok hlift

theorem thread_of_step_error (fuel : Nat) (h : step n m = .error e m₁) :
    thread (fuel + 1) n m = some (.error e m₁) := by
  have hlift : (liftM (step n) : Run Turn) m = some (.error e m₁) := by
    rw [Run.lift_apply, h]
  exact Run.bind_of_error hlift

/-- An answer from the later machine is an answer from the earlier one. -/
theorem Steps.reaches {r : Outcome Unit} (h : Steps n m n₁ m₁)
    (hr : Run.Reaches (fun fuel => thread fuel n₁) m₁ r) :
    Run.Reaches (fun fuel => thread fuel n) m r := by
  induction h with
  | refl => exact hr
  | head hstep _ ih =>
      obtain ⟨fuel, hfuel⟩ := ih hr
      exact ⟨fuel + 1, (thread_of_step_more fuel hstep).trans hfuel⟩

/-! ### Calls -/

theorem call_body_of_full {fuel address : Nat} (hroom : ¬ m.returns.depth < m.returnLimit) :
    call fuel (.body address) m = some (.error .returnStackOverflow m) := by
  have hlift : (liftM saveIp : Run Unit) m = some (.error .returnStackOverflow m) := by
    rw [Run.lift_apply, saveIp_of_full hroom]
  exact Run.bind_of_error hlift

theorem call_body_of_room {fuel address : Nat} (hroom : m.returns.depth < m.returnLimit) :
    call fuel (.body address) m =
      (thread fuel 0 >>= fun _ => (liftM restoreIp : Run Unit))
        { m with ip := address, returns := m.returns.push (Cell.ofAddress m.ip) } := by
  have hlift : (liftM saveIp : Run Unit) m =
      some (.ok () { m with returns := m.returns.push (Cell.ofAddress m.ip) }) := by
    rw [Run.lift_apply, saveIp_of_room hroom]
  have hcall : call fuel (.body address) m =
      (run fuel address >>= fun _ => (liftM restoreIp : Run Unit)) _ := Run.bind_of_ok hlift
  rw [hcall, run, bind_assoc]
  rfl

end Machine

end Forth

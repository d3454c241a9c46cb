/-
Steps and answers.  Giving a computation more steps never changes an answer that it has already
reached, so a computation has at most one answer, and reaching it can be spoken of without naming a
number of steps.
-/
import Forth.Machine.Boot

namespace Forth

open Machine

namespace Run

theorem bind_apply {α β : Type} (x : Run α) (f : α → Run β) (m : Machine) :
    (x >>= f) m =
      match x m with
      | some (.ok a m') => f a m'
      | some (.error e m') => some (.error e m')
      | none => none := rfl

theorem lift_apply {α : Type} (x : Action α) (m : Machine) : (liftM x : Run α) m = some (x m) := rfl

/-- Whatever the first computation answers, the second answers too. -/
def Below {α : Type} (x y : Run α) : Prop :=
  ∀ m r, x m = some r → y m = some r

theorem Below.refl {α : Type} (x : Run α) : x.Below x := fun _ _ h => h

theorem Below.exhausted {α : Type} (x : Run α) : (exhausted : Run α).Below x := by
  intro m r h
  cases h

theorem Below.bind {α β : Type} {x y : Run α} {f g : α → Run β} (hxy : x.Below y)
    (hfg : ∀ a, (f a).Below (g a)) : (x >>= f).Below (y >>= g) := by
  intro m r h
  rw [bind_apply] at h
  rw [bind_apply]
  cases hx : x m with
  | none =>
      rw [hx] at h
      cases h
  | some o =>
      rw [hxy m o hx]
      rw [hx] at h
      cases o with
      | ok a m' => exact hfg a m' r h
      | error e m' => exact h

/-- A family of computations whose answers stay as the steps grow. -/
def Steady {α : Type} (x : Nat → Run α) : Prop :=
  ∀ ⦃n k⦄, n ≤ k → (x n).Below (x k)

/-- The computation reaches the answer in some number of steps. -/
def Reaches {α : Type} (x : Nat → Run α) (m : Machine) (r : Outcome α) : Prop :=
  ∃ fuel, x fuel m = some r

/-- There is at most one answer. -/
theorem Steady.reaches_unique {α : Type} {x : Nat → Run α} (hx : Steady x) {m : Machine}
    {r s : Outcome α} (hr : Reaches x m r) (hs : Reaches x m s) : r = s := by
  obtain ⟨n, hn⟩ := hr
  obtain ⟨k, hk⟩ := hs
  have h₁ := hx (Nat.le_max_left n k) m r hn
  have h₂ := hx (Nat.le_max_right n k) m s hk
  rw [h₁] at h₂
  exact Option.some.inj h₂

end Run

namespace Machine

open Run

theorem thread_below {n k : Nat} (h : n ≤ k) (nested : Nat) :
    (thread n nested).Below (thread k nested) := by
  induction n generalizing k nested with
  | zero => exact Below.exhausted _
  | succ n ih =>
      obtain ⟨k, rfl⟩ : ∃ j, k = j + 1 := ⟨k - 1, by omega⟩
      apply Below.bind (Below.refl _)
      intro turn
      cases turn with
      | finished => exact Below.refl _
      | more nested' => exact ih (by omega) nested'

theorem run_below {n k : Nat} (h : n ≤ k) (address : Nat) : (run n address).Below (run k address) :=
  Below.bind (Below.refl _) fun _ => thread_below h 0

theorem call_below {n k : Nat} (h : n ≤ k) (op : Op) : (call n op).Below (call k op) := by
  cases op with
  | primitive p => exact Below.refl _
  | body address =>
      apply Below.bind (Below.refl _)
      intro _
      exact Below.bind (run_below h address) fun _ => Below.refl _
  | exit => exact Below.refl _

theorem dispatch_below {n k : Nat} (h : n ≤ k) (word : String) :
    (dispatch n word).Below (dispatch k word) := by
  apply Below.bind (Below.refl _)
  intro m
  cases m.mode with
  | interpret =>
      cases m.dictionary.find? word with
      | none => exact Below.refl _
      | some op => exact call_below h op
  | compile =>
      cases m.dictionary.find? word with
      | none => exact Below.refl _
      | some op =>
          by_cases hi : m.dictionary.isImmediate word = true
          · simp only [hi, ↓reduceIte]
            exact call_below h op
          · simp only [hi]
            exact Below.refl _

theorem build_below {n k : Nat} (h : n ≤ k) : (build n).Below (build k) := by
  induction n generalizing k with
  | zero => exact Below.exhausted _
  | succ n ih =>
      obtain ⟨k, rfl⟩ : ∃ j, k = j + 1 := ⟨k - 1, by omega⟩
      apply Below.bind (Below.refl _)
      intro token
      cases token with
      | none => exact Below.refl _
      | some token =>
          exact Below.bind (dispatch_below (by omega) token.text) fun _ => ih (by omega)

theorem evalSource_below {n k : Nat} (h : n ≤ k) (source : Source) :
    (evalSource n source).Below (evalSource k source) := by
  intro m r hr
  unfold evalSource at hr ⊢
  cases hb : build n { m with source := some source } with
  | none =>
      rw [hb] at hr
      cases hr
  | some o =>
      rw [build_below h _ o hb]
      rw [hb] at hr
      exact hr

theorem run_steady (address : Nat) : Steady fun fuel => run fuel address :=
  fun _ _ h => run_below h address

theorem call_steady (op : Op) : Steady fun fuel => call fuel op :=
  fun _ _ h => call_below h op

theorem evalSource_steady (source : Source) : Steady fun fuel => evalSource fuel source :=
  fun _ _ h => evalSource_below h source

theorem eval_steady (text : String) : Steady fun fuel => eval fuel text :=
  evalSource_steady _

end Machine

end Forth

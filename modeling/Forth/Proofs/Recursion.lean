/-
The inner interpreter keeps one loop and counts the bodies that are open.  Beside it stands the
interpreter that enters a body by calling itself.  The two have the same answers on every machine:
the count stands for the calls that are still to be finished.
-/
import Forth.Proofs.Answers

namespace Forth

open Machine Run

namespace Machine

/-- Executes an operation, given what it is to run the body at an address. -/
def callWith (runBody : Nat → Run Unit) : Op → Run Unit
  | .primitive p => p.execute
  | .body address => do
      saveIp
      runBody address
      restoreIp
  | .exit => pure ()

/-- Executes threaded code from the instruction pointer through its end marker.  A body on the way is
run by the same function before the code behind it goes on. -/
def descend : (fuel : Nat) → Run Unit
  | 0 => Run.exhausted
  | fuel + 1 => do
      match ← (fetchOp : Run Op) with
      | .exit => pure ()
      | op =>
          callWith (fun address => do
            setIp address
            descend fuel) op
          descend fuel

/-- Executes the body at an address, entering every body inside it by calling itself. -/
def runRecursive (fuel : Nat) (address : Nat) : Run Unit := do
  setIp address
  descend fuel

theorem descend_succ (fuel : Nat) :
    descend (fuel + 1) = (do
      match ← (fetchOp : Run Op) with
      | .primitive p =>
          p.execute
          descend fuel
      | .body address =>
          saveIp
          setIp address
          descend fuel
          restoreIp
          descend fuel
      | .exit => pure ()) := by
  rw [descend]
  congr 1
  funext op
  cases op with
  | primitive p => rfl
  | body address => simp only [callWith, bind_assoc]
  | exit => rfl

theorem descend_below {n k : Nat} (h : n ≤ k) : (descend n).Below (descend k) := by
  induction n generalizing k with
  | zero => exact Below.exhausted _
  | succ n ih =>
      obtain ⟨k, rfl⟩ : ∃ j, k = j + 1 := ⟨k - 1, by omega⟩
      have hbelow : (descend n).Below (descend k) := ih (by omega)
      rw [descend_succ, descend_succ]
      apply Below.bind (Below.refl _)
      intro op
      cases op with
      | primitive p => exact Below.bind (Below.refl _) fun _ => hbelow
      | body address =>
          apply Below.bind (Below.refl _)
          intro _
          apply Below.bind (Below.refl _)
          intro _
          apply Below.bind hbelow
          intro _
          exact Below.bind (Below.refl _) fun _ => hbelow
      | exit => exact Below.refl _

/-- What `nested` calls still have to do when the innermost body ends: each takes its return address
and executes the rest of its own body. -/
def pending (fuel : Nat) : (nested : Nat) → Run Unit
  | 0 => pure ()
  | outer + 1 => do
      restoreIp
      descend fuel
      pending fuel outer

theorem pending_below {n k : Nat} (h : n ≤ k) (nested : Nat) :
    (pending n nested).Below (pending k nested) := by
  induction nested with
  | zero => exact Below.refl _
  | succ outer ih =>
      apply Below.bind (Below.refl _)
      intro _
      exact Below.bind (descend_below h) fun _ => ih

/-- The loop inside `nested` bodies answers as recursive calls of that depth do. -/
theorem thread_below_descend (fuel nested : Nat) :
    (thread fuel nested).Below (descend fuel >>= fun _ => pending fuel nested) := by
  induction fuel generalizing nested with
  | zero => exact Below.exhausted _
  | succ fuel ih =>
      have hle : fuel ≤ fuel + 1 := Nat.le_succ fuel
      -- the rest of the loop has one step less than the calls it stands for
      have hrest : ∀ n, (thread fuel n).Below (descend fuel >>= fun _ => pending (fuel + 1) n) := by
        intro n m r hr
        exact Below.bind (Below.refl _) (fun _ => pending_below hle n) m r (ih n m r hr)
      rw [thread_succ, descend_succ, bind_assoc]
      apply Below.bind (Below.refl _)
      intro op
      cases op with
      | primitive p =>
          rw [bind_assoc]
          exact Below.bind (Below.refl _) fun _ => hrest nested
      | body address =>
          simp only [bind_assoc]
          apply Below.bind (Below.refl _)
          intro _
          apply Below.bind (Below.refl _)
          intro _ m r hr
          have hcalls := ih (nested + 1) m r hr
          refine Below.bind (Below.refl _) ?_ m r hcalls
          intro _
          apply Below.bind (Below.refl _)
          intro _
          exact Below.bind (Below.refl _) fun _ => pending_below hle nested
      | exit =>
          cases nested with
          | zero => exact Below.refl _
          | succ outer =>
              apply Below.bind (Below.refl _)
              intro _ m r hr
              exact Below.bind (descend_below hle) (fun _ => Below.refl _) m r (hrest outer m r hr)

/-- What the loop does when the innermost of `nested + 1` bodies ends. -/
def close (fuel : Nat) : (nested : Nat) → Run Unit
  | 0 => pure ()
  | outer + 1 => do
      restoreIp
      thread fuel outer

/-- The loop reaches every answer of a recursive call that it then leaves. -/
theorem reaches_thread_of_descend {fuel rounds nested : Nat} {m : Machine} {r : Outcome Unit}
    (h : (descend fuel >>= fun _ => close rounds nested) m = some r) :
    Reaches (fun n => thread n nested) m r := by
  induction fuel generalizing rounds nested m r with
  | zero => cases h
  | succ fuel ih =>
      rw [descend_succ, bind_assoc] at h
      suffices hstep : Reaches (fun n => thread (n + 1) nested) m r by
        obtain ⟨n, hn⟩ := hstep
        exact ⟨n + 1, hn⟩
      simp only [thread_succ]
      refine Reaches.of_bind h ?_
      intro op m₁ h₁
      cases op with
      | primitive p =>
          rw [bind_assoc] at h₁
          exact Reaches.of_bind h₁ fun _ m₂ h₂ => ih h₂
      | body address =>
          simp only [bind_assoc] at h₁
          refine Reaches.of_bind h₁ fun _ m₂ h₂ => Reaches.of_bind h₂ fun _ m₃ h₃ => ?_
          -- the call returns into a loop that is known to answer for the code behind it
          have hreturn : Reaches (fun n => descend fuel >>= fun _ => close n (nested + 1)) m₃ r :=
            Reaches.of_bind h₃ fun _ m₄ h₄ => Reaches.of_bind h₄ fun _ m₅ h₅ => ih h₅
          obtain ⟨n, hn⟩ := hreturn
          exact ih hn
      | exit =>
          cases nested with
          | zero => exact ⟨0, h₁⟩
          | succ outer => exact ⟨rounds, h₁⟩

/-- The loop and the recursive interpreter run a body alike: with the same answers, and hence without
one in the same cases. -/
theorem reaches_run_iff_reaches_runRecursive (address : Nat) (m : Machine) (r : Outcome Unit) :
    Reaches (fun fuel => run fuel address) m r ↔
      Reaches (fun fuel => runRecursive fuel address) m r := by
  constructor
  · rintro ⟨fuel, hrun⟩
    refine ⟨fuel, ?_⟩
    refine Below.bind (Below.refl _) ?_ m r hrun
    intro _ m' s hs
    have hdescend := thread_below_descend fuel 0 m' s hs
    simpa only [pending, bind_pure_unit] using hdescend
  · rintro ⟨fuel, hrun⟩
    refine Reaches.of_bind hrun ?_
    intro _ m' hdescend
    have hclose : (descend fuel >>= fun _ => close 0 0) m' = some r := by
      simpa only [close, bind_pure_unit] using hdescend
    exact reaches_thread_of_descend hclose

end Machine

end Forth

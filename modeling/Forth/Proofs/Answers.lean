/-
Working with computations that may run out of steps: the laws of their sequencing, what an answer of a
sequence says about its parts, and the inner interpreter as one equation over sequencing.
-/
import Forth.Machine.Fuel

namespace Forth

open Machine

theorem Action.bind_of_ok {α β : Type} {x : Action α} {f : α → Action β} {m m' : Machine} {a : α}
    (h : x m = .ok a m') : (x >>= f) m = f a m' := by
  change EStateM.bind x f m = _
  rw [EStateM.bind, h]

theorem Action.bind_of_error {α β : Type} {x : Action α} {f : α → Action β} {m m' : Machine} {e : Error}
    (h : x m = .error e m') : (x >>= f) m = .error e m' := by
  change EStateM.bind x f m = _
  rw [EStateM.bind, h]

namespace Run

instance : LawfulMonad Run :=
  LawfulMonad.mk' Run
    (by
      intro α x
      funext m
      change (match x m with | some (.ok a m') => _ | some (.error e m') => _ | none => _) = _
      rcases x m with _ | ⟨_ | _⟩ <;> rfl)
    (fun _ _ => rfl)
    (by
      intro α β γ x f g
      funext m
      simp only [bind_apply]
      rcases x m with _ | ⟨_ | _⟩ <;> rfl)

theorem lift_bind {α β : Type} (x : Action α) (f : α → Action β) :
    (liftM (x >>= f) : Run β) = (liftM x : Run α) >>= fun a => liftM (f a) := by
  funext m
  rw [bind_apply, lift_apply, lift_apply]
  change some (EStateM.bind x f m) = _
  unfold EStateM.bind
  cases x m <;> rfl

theorem lift_pure {α : Type} (a : α) : (liftM (pure a : Action α) : Run α) = pure a := rfl

/-- What a sequence does if its first part succeeds. -/
theorem bind_of_ok {α β : Type} {x : Run α} {f : α → Run β} {m m' : Machine} {a : α}
    (h : x m = some (.ok a m')) : (x >>= f) m = f a m' := by
  rw [bind_apply, h]

/-- What a sequence does if its first part fails. -/
theorem bind_of_error {α β : Type} {x : Run α} {f : α → Run β} {m m' : Machine} {e : Error}
    (h : x m = some (.error e m')) : (x >>= f) m = some (.error e m') := by
  rw [bind_apply, h]

/-- An answer of a sequence is an answer of its second part behind a success of the first, or a failure
of the first. -/
theorem of_bind_eq_some {α β : Type} {x : Run α} {f : α → Run β} {m : Machine} {r : Outcome β}
    (h : (x >>= f) m = some r) :
    (∃ a m', x m = some (.ok a m') ∧ f a m' = some r) ∨
      ∃ e m', x m = some (.error e m') ∧ r = .error e m' := by
  rw [bind_apply] at h
  rcases hx : x m with _ | ⟨a, m'⟩ | ⟨e, m'⟩
  · rw [hx] at h
    cases h
  · rw [hx] at h
    exact Or.inl ⟨a, m', rfl, h⟩
  · rw [hx] at h
    exact Or.inr ⟨e, m', rfl, (Option.some.inj h).symm⟩

theorem of_lift_bind_eq_some {α β : Type} {x : Action α} {f : α → Run β} {m : Machine} {r : Outcome β}
    (h : ((liftM x : Run α) >>= f) m = some r) :
    (∃ a m', x m = .ok a m' ∧ f a m' = some r) ∨ ∃ e m', x m = .error e m' ∧ r = .error e m' := by
  rcases of_bind_eq_some h with ⟨a, m', hx, hf⟩ | ⟨e, m', hx, hr⟩
  · exact Or.inl ⟨a, m', Option.some.inj hx, hf⟩
  · exact Or.inr ⟨e, m', Option.some.inj hx, hr⟩

/-- An answer behind a fixed first part is reached if the second part reaches it wherever the first
part can lead. -/
theorem Reaches.of_bind {α β : Type} {x : Run α} {f : α → Run β} {g : Nat → α → Run β} {m : Machine}
    {r : Outcome β} (h : (x >>= f) m = some r)
    (hfg : ∀ a m', f a m' = some r → Reaches (fun fuel => g fuel a) m' r) :
    Reaches (fun fuel => x >>= g fuel) m r := by
  rcases of_bind_eq_some h with ⟨a, m', hx, hf⟩ | ⟨e, m', hx, rfl⟩
  · obtain ⟨fuel, hfuel⟩ := hfg a m' hf
    exact ⟨fuel, (bind_of_ok hx).trans hfuel⟩
  · exact ⟨0, bind_of_error hx⟩

theorem Steady.const {α : Type} (x : Run α) : Steady fun _ => x :=
  fun _ _ _ => Below.refl x

theorem Steady.bind {α β : Type} {x : Nat → Run α} {f : Nat → α → Run β} (hx : Steady x)
    (hf : ∀ a, Steady fun fuel => f fuel a) : Steady fun fuel => x fuel >>= f fuel :=
  fun _ _ h => Below.bind (hx h) fun a => hf a h

/-- An answer is reached behind a success that is reached. -/
theorem Reaches.bind_ok {α β : Type} {x : Nat → Run α} {f : Nat → α → Run β} {m m' : Machine} {a : α}
    {r : Outcome β} (hx : Steady x) (hf : Steady fun fuel => f fuel a)
    (hfirst : Reaches x m (.ok a m')) (hrest : Reaches (fun fuel => f fuel a) m' r) :
    Reaches (fun fuel => x fuel >>= f fuel) m r := by
  obtain ⟨n, hn⟩ := hfirst
  obtain ⟨k, hk⟩ := hrest
  refine ⟨max n k, ?_⟩
  have hn' := hx (Nat.le_max_left n k) m _ hn
  have hk' := hf (Nat.le_max_right n k) m' _ hk
  exact (bind_of_ok hn').trans hk'

theorem Reaches.bind_error {α β : Type} {x : Nat → Run α} {f : Nat → α → Run β} {m m' : Machine}
    {e : Error} (h : Reaches x m (.error e m')) :
    Reaches (fun fuel => x fuel >>= f fuel) m (.error e m') := by
  obtain ⟨n, hn⟩ := h
  exact ⟨n, bind_of_error hn⟩

theorem Reaches.of_bind_family {α β : Type} {x : Nat → Run α} {f : Nat → α → Run β} {m : Machine}
    {r : Outcome β} (h : Reaches (fun fuel => x fuel >>= f fuel) m r) :
    (∃ a m', Reaches x m (.ok a m') ∧ Reaches (fun fuel => f fuel a) m' r) ∨
      ∃ e m', Reaches x m (.error e m') ∧ r = .error e m' := by
  obtain ⟨n, hn⟩ := h
  rcases of_bind_eq_some hn with ⟨a, m', hfirst, hrest⟩ | ⟨e, m', hfirst, hr⟩
  · exact Or.inl ⟨a, m', ⟨n, hfirst⟩, n, hrest⟩
  · exact Or.inr ⟨e, m', ⟨n, hfirst⟩, hr⟩

theorem Reaches.of_succ {α : Type} {x : Nat → Run α} {m : Machine} {r : Outcome α}
    (h : Reaches (fun fuel => x (fuel + 1)) m r) : Reaches x m r := by
  obtain ⟨n, hn⟩ := h
  exact ⟨n + 1, hn⟩

/-- A family that answers nothing without steps answers with one step more. -/
theorem Reaches.succ {α : Type} {x : Nat → Run α} {m : Machine} {r : Outcome α}
    (hzero : x 0 = exhausted) (h : Reaches x m r) : Reaches (fun fuel => x (fuel + 1)) m r := by
  obtain ⟨n, hn⟩ := h
  cases n with
  | zero =>
      rw [hzero] at hn
      cases hn
  | succ n => exact ⟨n, hn⟩

/-- The computation succeeds, and the machine that it leaves passes a test. -/
def passes {α : Type} (x : Run α) (m : Machine) (test : Machine → Bool) : Bool :=
  match x m with
  | some (.ok _ m') => test m'
  | _ => false

/-- The computation fails, and its error and the machine that it leaves pass a test. -/
def fails {α : Type} (x : Run α) (m : Machine) (test : Error → Machine → Bool) : Bool :=
  match x m with
  | some (.error e m') => test e m'
  | _ => false

theorem of_passes {α : Type} {x : Run α} {m : Machine} {test : Machine → Bool}
    (h : x.passes m test = true) : ∃ a m', x m = some (.ok a m') ∧ test m' = true := by
  unfold passes at h
  split at h
  · exact ⟨_, _, ‹_›, h⟩
  · cases h

theorem of_fails {α : Type} {x : Run α} {m : Machine} {test : Error → Machine → Bool}
    (h : x.fails m test = true) : ∃ e m', x m = some (.error e m') ∧ test e m' = true := by
  unfold fails at h
  split at h
  · exact ⟨_, _, ‹_›, h⟩
  · cases h

/-- An action has its outcome as its only answer. -/
theorem reaches_lift_iff {α : Type} {x : Action α} {m : Machine} {r : Outcome α} :
    Reaches (fun _ => (liftM x : Run α)) m r ↔ x m = r := by
  constructor
  · rintro ⟨_, h⟩
    exact Option.some.inj h
  · intro h
    exact ⟨0, congrArg some h⟩

end Run

namespace Machine

/-- One round of the inner interpreter: an operation is read, and what is left to execute follows it. -/
theorem thread_succ (fuel nested : Nat) :
    thread (fuel + 1) nested = (do
      match ← (fetchOp : Run Op) with
      | .primitive p =>
          p.execute
          thread fuel nested
      | .body address =>
          saveIp
          setIp address
          thread fuel (nested + 1)
      | .exit =>
          match nested with
          | 0 => pure ()
          | outer + 1 =>
              restoreIp
              thread fuel outer) := by
  rw [thread]
  unfold step
  rw [Run.lift_bind, bind_assoc]
  congr 1
  funext op
  cases op with
  | primitive p => simp only [Run.lift_bind, bind_assoc, Run.lift_pure, pure_bind]
  | body address => simp only [Run.lift_bind, bind_assoc, Run.lift_pure, pure_bind]
  | exit =>
      cases nested with
      | zero => rfl
      | succ outer => simp only [Run.lift_bind, bind_assoc, Run.lift_pure, pure_bind]

theorem dispatch_apply (fuel : Nat) (word : String) (m : Machine) :
    dispatch fuel word m = (match m.mode, m.dictionary.find? word with
      | .interpret, some op => call fuel op
      | .interpret, none => do
          let n ← (number word : Run Int64)
          push (.int n)
      | .compile, some op =>
          if m.dictionary.isImmediate word then call fuel op else append (.op op)
      | .compile, none => do
          let n ← (number word : Run Int64)
          append (.op (.primitive .lit))
          append (.int n)) m := rfl

/-- A word is called, compiled, or taken for a number that is pushed or compiled. -/
theorem dispatch_cases (fuel : Nat) (word : String) (m : Machine) :
    (∃ op, m.dictionary.find? word = some op ∧
      (m.mode = .interpret ∨ m.dictionary.isImmediate word = true) ∧
        dispatch fuel word m = call fuel op m) ∨
    (∃ op, m.dictionary.find? word = some op ∧ m.mode = .compile ∧
      m.dictionary.isImmediate word = false ∧
        dispatch fuel word m = (liftM (append (.op op)) : Run Unit) m) ∨
    (m.dictionary.find? word = none ∧ m.mode = .interpret ∧
      dispatch fuel word m =
        ((liftM (number word) : Run Int64) >>= fun n => liftM (push (.int n))) m) ∨
    (m.dictionary.find? word = none ∧ m.mode = .compile ∧
      dispatch fuel word m =
        ((liftM (number word) : Run Int64) >>= fun n =>
          (liftM (append (.op (.primitive .lit))) : Run Unit) >>= fun _ =>
            liftM (append (.int n))) m) := by
  rw [dispatch_apply]
  cases hfind : m.dictionary.find? word with
  | none =>
      cases hmode : m.mode with
      | interpret => exact Or.inr (Or.inr (Or.inl ⟨rfl, rfl, rfl⟩))
      | compile => exact Or.inr (Or.inr (Or.inr ⟨rfl, rfl, rfl⟩))
  | some op =>
      cases hmode : m.mode with
      | interpret => exact Or.inl ⟨op, rfl, Or.inl rfl, rfl⟩
      | compile =>
          cases himmediate : m.dictionary.isImmediate word with
          | true => exact Or.inl ⟨op, rfl, Or.inr rfl, rfl⟩
          | false => exact Or.inr (Or.inl ⟨op, rfl, rfl, rfl, rfl⟩)

end Machine

end Forth

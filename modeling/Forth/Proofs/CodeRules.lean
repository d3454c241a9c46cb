/-
Rules for code that lies in the heap.  Code at a place executes a computation if threading through it
has the effect of the computation on everything but the instruction pointer and the return stack,
answers whenever the computation does and only then, and comes to the place that belongs to the result.
There is one rule for each way to put code together.
-/
import Forth.Proofs.Preservation
import Forth.Proofs.Steps

namespace Forth

open Machine Run

/-- Where the inner interpreter stands: the number of open bodies, the instruction pointer and the
return stack. -/
structure Place where
  nested : Nat
  ip : Nat
  returns : Stack

/-- Another address at the same depth. -/
def Place.to (p : Place) (ip : Nat) : Place :=
  { p with ip := ip }

/-- The machine at another place of its code. -/
def Machine.placed (m : Machine) (p : Place) : Machine :=
  { m with ip := p.ip, returns := p.returns }

def Outcome.placed {α : Type} (p : Place) : Outcome α → Outcome α
  | .ok a m => .ok a (m.placed p)
  | .error e m => .error e (m.placed p)

/-- The action has nothing to do with the instruction pointer and the return stack. -/
def Action.Placeless {α : Type} (x : Action α) : Prop :=
  ∀ m p, x (Machine.placed m p) = Outcome.placed p (x m)

namespace Action.Placeless

variable {α β : Type}

theorem pure (a : α) : Placeless (pure a) := fun _ _ => rfl

theorem throw (e : Error) : Placeless (throw e : Action α) := fun _ _ => rfl

theorem bind {x : Action α} {f : α → Action β} (hx : Placeless x) (hf : ∀ a, Placeless (f a)) :
    Placeless (x >>= f) := by
  intro m p
  change EStateM.bind x f _ = Outcome.placed p (EStateM.bind x f m)
  unfold EStateM.bind
  rw [hx m p]
  cases x m with
  | ok a m' => exact hf a m' p
  | error e m' => rfl

theorem demand (x : Except Error α) : Placeless (demand x) := by
  cases x with
  | ok a => exact pure a
  | error e => exact throw e

theorem push (c : Cell) : Placeless (push c) := fun _ _ => rfl

theorem pop : Placeless pop := by
  intro m p
  have hdata : (Machine.placed m p).data = m.data := rfl
  unfold Machine.pop
  rw [hdata]
  cases m.data.top? <;> rfl

theorem top : Placeless top := by
  intro m p
  have hdata : (Machine.placed m p).data = m.data := rfl
  unfold Machine.top
  rw [hdata]
  cases m.data.top? <;> rfl

theorem popInt : Placeless popInt := pop.bind fun _ => demand _

theorem popFlag : Placeless popFlag := pop.bind fun _ => demand _

theorem onInts (f : Int64 → Int64 → Int64) : Placeless (Primitive.onInts f) :=
  popInt.bind fun _ => popInt.bind fun _ => push _

theorem onFlags (f : Bool → Bool → Bool) : Placeless (Primitive.onFlags f) :=
  popFlag.bind fun _ => popFlag.bind fun _ => push _

theorem divide : Placeless Primitive.divide := by
  apply popInt.bind
  intro b
  apply popInt.bind
  intro a
  by_cases hb : b = 0
  · simp only [hb, ↓reduceIte]
    exact (throw _).bind fun _ => push _
  · simp only [hb, ↓reduceIte]
    exact (pure _).bind fun _ => push _

/-- Primitives on the data stack do not depend on their place. -/
theorem execute {p : Primitive} (hp : p.isDataWord = true) : Placeless p.execute := by
  cases p with
  | add => exact onInts _
  | sub => exact onInts _
  | mul => exact onInts _
  | div => exact divide
  | logicalAnd => exact onFlags _
  | logicalOr => exact onFlags _
  | logicalNot => exact popFlag.bind fun _ => push _
  | equal => exact pop.bind fun _ => pop.bind fun _ => (demand _).bind fun _ => push _
  | less => exact popInt.bind fun _ => popInt.bind fun _ => push _
  | pushTrue => exact push _
  | pushFalse => exact push _
  | drop => exact pop.bind fun _ => pure _
  | dup => exact top.bind fun _ => push _
  | swap => exact pop.bind fun _ => pop.bind fun _ => (push _).bind fun _ => push _
  | clear => exact fun _ _ => rfl
  | display => exact pop.bind fun _ _ _ => rfl
  | displayStack => exact fun _ _ => rfl
  | _ => cases hp

theorem here : Placeless (Primitive.execute .here) := fun _ _ => rfl

theorem append (c : Cell) : Placeless (append c) := by
  intro m p
  unfold Machine.append
  change (if m.heap.here < m.heap.capacity then _ else _) = _
  split <;> rfl

theorem comma : Placeless (Primitive.execute .comma) := pop.bind fun _ => append _

end Action.Placeless

namespace Heap

/-- The filled part of the heap has a cell at an address. -/
def Filled (heap : Heap) (address : Nat) (c : Cell) : Prop :=
  address < heap.here ∧ heap.get? address = some c

/-- The filled part of the heap has cells from an address on. -/
def Holds (heap : Heap) (address : Nat) (cells : List Cell) : Prop :=
  ∀ i c, cells[i]? = some c → heap.Filled (address + i) c

variable {heap heap' : Heap} {a : Nat} {c : Cell} {xs ys : List Cell}

theorem Filled.of_extends (h : heap.Filled a c) (hext : heap.Extends heap') : heap'.Filled a c :=
  ⟨Nat.lt_of_lt_of_le h.1 hext.here_le, (hext.get? a h.1).trans h.2⟩

theorem Holds.of_extends (h : heap.Holds a xs) (hext : heap.Extends heap') : heap'.Holds a xs :=
  fun i c hi => (h i c hi).of_extends hext

theorem holds_append : heap.Holds a (xs ++ ys) ↔ heap.Holds a xs ∧ heap.Holds (a + xs.length) ys := by
  constructor
  · intro h
    refine ⟨fun i c hi => h i c ?_, fun i c hi => ?_⟩
    · rw [List.getElem?_append_left (List.getElem?_eq_some_iff.mp hi).1]
      exact hi
    · have hcell := h (xs.length + i) c (by rw [List.getElem?_append_right (by omega)]; simpa using hi)
      rwa [Nat.add_assoc]
  · rintro ⟨hxs, hys⟩ i c hi
    by_cases hlt : i < xs.length
    · rw [List.getElem?_append_left hlt] at hi
      exact hxs i c hi
    · rw [List.getElem?_append_right (by omega)] at hi
      have hcell := hys _ c hi
      rwa [show a + xs.length + (i - xs.length) = a + i by omega] at hcell

theorem holds_cons : heap.Holds a (c :: xs) ↔ heap.Filled a c ∧ heap.Holds (a + 1) xs := by
  constructor
  · intro h
    refine ⟨h 0 c rfl, fun i d hi => ?_⟩
    rw [Nat.add_assoc, Nat.add_comm 1 i]
    exact h (i + 1) d hi
  · rintro ⟨hc, hxs⟩ i d hi
    cases i with
    | zero => exact Option.some.inj hi ▸ hc
    | succ i =>
        have hcell := hxs i d hi
        rwa [Nat.add_assoc, Nat.add_comm 1 i] at hcell

end Heap

/-- The machine has the filled part of the given heap, and the limit of the return stack. -/
structure Machine.Hosts (heap : Heap) (limit : Nat) (m : Machine) : Prop where
  heap_extends : heap.Extends m.heap
  limit_eq : m.returnLimit = limit

namespace Machine.Hosts

variable {heap : Heap} {limit : Nat} {m m' : Machine}

theorem get? (h : m.Hosts heap limit) {a : Nat} {c : Cell} (hcell : heap.Filled a c) :
    m.heap.get? a = some c :=
  (hcell.of_extends h.heap_extends).2

theorem quiet (h : m.Hosts heap limit) (hquiet : m.Quiet m') : m'.Hosts heap limit :=
  ⟨h.heap_extends.trans hquiet.heap, hquiet.returnLimit.trans h.limit_eq⟩

end Machine.Hosts

/-- Runs a computation again and again, as long as it says so. -/
def Run.repeatWhile (x : Nat → Run Bool) : Nat → Run Unit
  | 0 => Run.exhausted
  | fuel + 1 => do
      if ← x fuel then repeatWhile x fuel else pure ()

theorem Run.Steady.repeatWhile {x : Nat → Run Bool} (hx : Steady x) : Steady (repeatWhile x) := by
  intro n
  induction n with
  | zero => exact fun _ _ => Below.exhausted _
  | succ n ih =>
      intro k hk
      obtain ⟨k, rfl⟩ : ∃ j, k = j + 1 := ⟨k - 1, by omega⟩
      apply Below.bind (hx (Nat.le_of_succ_le_succ hk))
      intro again
      cases again with
      | true => exact ih (Nat.le_of_succ_le_succ hk)
      | false => exact Below.refl _

/-- The loop comes to a step that fails. -/
def Machine.Fails (nested : Nat) (m : Machine) (e : Error) (m' : Machine) : Prop :=
  ∃ nested₁ m₁, Steps nested m nested₁ m₁ ∧ step nested₁ m₁ = .error e m'

theorem Machine.Fails.of_steps {n n₁ : Nat} {m m₁ m' : Machine} {e : Error} (h : Steps n m n₁ m₁)
    (hfails : Fails n₁ m₁ e m') : Fails n m e m' := by
  obtain ⟨n₂, m₂, hsteps, hstep⟩ := hfails
  exact ⟨n₂, m₂, h.trans hsteps, hstep⟩

/-- The code at a place, in a machine with the given heap, executes a computation and comes to the exit
of its result.  A run of the loop through the code takes at least `least` steps. -/
structure Executes {α : Type} (heap : Heap) (limit : Nat) (p : Place) (least : Nat) (x : Nat → Run α)
    (exit : α → Place) : Prop where
  ok : ∀ {m a m'}, m.Hosts heap limit → Reaches x m (.ok a m') → m'.Hosts heap limit ∧
    Steps p.nested (m.placed p) (exit a).nested (m'.placed (exit a))
  error : ∀ {m e m'}, m.Hosts heap limit → Reaches x m (.error e m') →
    ∃ q, Fails p.nested (m.placed p) e (m'.placed q)
  answers : ∀ {m fuel r}, m.Hosts heap limit → thread fuel p.nested (m.placed p) = some r →
    (∃ e m', Reaches x m (.error e m')) ∨
      ∃ a m' fuel', Reaches x m (.ok a m') ∧ fuel' + least ≤ fuel ∧
        thread fuel' (exit a).nested (m'.placed (exit a)) = some r

namespace Executes

variable {α β : Type} {heap : Heap} {limit : Nat} {p q : Place} {k l : Nat}

theorem pure (heap : Heap) (limit : Nat) (v : α) (exit : α → Place) :
    Executes heap limit (exit v) 0 (fun _ => pure v) exit where
  ok := by
    rintro m v' m' hm ⟨_, hr⟩
    cases hr
    exact ⟨hm, .refl _ _⟩
  error := by
    rintro m e m' hm ⟨_, hr⟩
    cases hr
  answers hm hr := Or.inr ⟨v, _, _, ⟨0, rfl⟩, Nat.le_refl _, hr⟩

theorem weaken {x : Nat → Run α} {exit : α → Place} (h : Executes heap limit p k x exit)
    (hl : l ≤ k) : Executes heap limit p l x exit where
  ok := h.ok
  error := h.error
  answers := by
    intro m fuel r hm hr
    rcases h.answers hm hr with he | ⟨v, m', fuel', hv, hle, hrest⟩
    · exact Or.inl he
    · exact Or.inr ⟨v, m', fuel', hv, by omega, hrest⟩

/-- Code that lies where the first piece ends goes on with its result. -/
theorem bind {x : Nat → Run α} {f : Nat → α → Run β} {mid : α → Place} {exit : β → Place}
    (hx : Executes heap limit p k x mid)
    (hf : ∀ v, Executes heap limit (mid v) l (fun fuel => f fuel v) exit)
    (hxs : Steady x) (hfs : ∀ v, Steady fun fuel => f fuel v) :
    Executes heap limit p (k + l) (fun fuel => x fuel >>= f fuel) exit where
  ok := by
    intro m w m' hm hr
    rcases Reaches.of_bind_family hr with ⟨v, m₁, hfirst, hrest⟩ | ⟨e, m₁, _, hcontra⟩
    · obtain ⟨hm₁, hsteps₁⟩ := hx.ok hm hfirst
      obtain ⟨hm', hsteps₂⟩ := (hf v).ok hm₁ hrest
      exact ⟨hm', hsteps₁.trans hsteps₂⟩
    · cases hcontra
  error := by
    intro m e m' hm hr
    rcases Reaches.of_bind_family hr with ⟨v, m₁, hfirst, hrest⟩ | ⟨e, m₁, hfirst, heq⟩
    · obtain ⟨hm₁, hsteps⟩ := hx.ok hm hfirst
      obtain ⟨q, hfails⟩ := (hf v).error hm₁ hrest
      exact ⟨q, hfails.of_steps hsteps⟩
    · cases heq
      exact hx.error hm hfirst
  answers := by
    intro m fuel r hm hr
    rcases hx.answers hm hr with ⟨e, m', he⟩ | ⟨v, m₁, fuel₁, hv, hle₁, hr₁⟩
    · exact Or.inl ⟨e, m', Reaches.bind_error he⟩
    · have hm₁ := (hx.ok hm hv).1
      rcases (hf v).answers hm₁ hr₁ with ⟨e, m', he⟩ | ⟨w, m', fuel₂, hw, hle₂, hr₂⟩
      · exact Or.inl ⟨e, m', Reaches.bind_ok hxs (hfs v) hv he⟩
      · exact Or.inr ⟨w, m', fuel₂, Reaches.bind_ok hxs (hfs v) hv hw, by omega, hr₂⟩

/-- Code that lies where a piece without effect leads to. -/
theorem before {x : Nat → Run α} {exit : α → Place} (hx : Executes heap limit q l x exit)
    (hmove : Executes heap limit p k (fun _ => (Pure.pure () : Run Unit)) (fun _ => q))
    (hxs : Steady x) : Executes heap limit p (k + l) x exit :=
  hmove.bind (f := fun fuel _ => x fuel) (fun _ => hx) (Steady.const _) fun _ => hxs

/-- Code that is followed by a piece without effect. -/
theorem after {q' : Place} {x : Nat → Run Unit} (hx : Executes heap limit p k x (fun _ => q))
    (hmove : Executes heap limit q l (fun _ => (Pure.pure () : Run Unit)) (fun _ => q'))
    (hxs : Steady x) : Executes heap limit p (k + l) x (fun _ => q') := by
  have hbind := hx.bind (f := fun _ _ => Pure.pure ()) (fun _ => hmove) hxs fun _ => Steady.const _
  simpa only [bind_pure_unit] using hbind

theorem lift_bind {x : Action α} {f : α → Action β} {mid : α → Place} {exit : β → Place}
    (hx : Executes heap limit p k (fun _ => (liftM x : Run α)) mid)
    (hf : ∀ v, Executes heap limit (mid v) l (fun _ => (liftM (f v) : Run β)) exit) :
    Executes heap limit p (k + l) (fun _ => (liftM (x >>= f) : Run β)) exit := by
  have hbind := hx.bind (f := fun _ v => liftM (f v)) hf (Steady.const _) fun _ => Steady.const _
  simpa only [Run.lift_bind] using hbind

/-! ### Single cells -/

/-- A cell whose step has the outcome of an action. -/
theorem of_step {x : Action α} {exit : α → Place}
    (hok : ∀ m v m', m.Hosts heap limit → x m = .ok v m' → m'.Hosts heap limit ∧
      step p.nested (m.placed p) = .ok (.more (exit v).nested) (m'.placed (exit v)))
    (herror : ∀ m e m', m.Hosts heap limit → x m = .error e m' →
      ∃ q, step p.nested (m.placed p) = .error e (m'.placed q)) :
    Executes heap limit p 1 (fun _ => (liftM x : Run α)) exit where
  ok := by
    intro m v m' hm hr
    obtain ⟨hm', hstep⟩ := hok m v m' hm (reaches_lift_iff.mp hr)
    exact ⟨hm', .single hstep⟩
  error := by
    intro m e m' hm hr
    obtain ⟨q, hstep⟩ := herror m e m' hm (reaches_lift_iff.mp hr)
    exact ⟨q, p.nested, _, .refl _ _, hstep⟩
  answers := by
    intro m fuel r hm hr
    cases hx : x m with
    | error e m' => exact Or.inl ⟨e, m', reaches_lift_iff.mpr hx⟩
    | ok v m' =>
        obtain ⟨hm', hstep⟩ := hok m v m' hm hx
        cases fuel with
        | zero => cases hr
        | succ fuel =>
            rw [thread_of_step_more fuel hstep] at hr
            exact Or.inr ⟨v, m', fuel, reaches_lift_iff.mpr hx, Nat.le_refl _, hr⟩

theorem primitive {o : Primitive} (hplaced : Action.Placeless o.execute) (ho : o.isOrdinary = true)
    (hcell : heap.Filled p.ip (.op (.primitive o))) :
    Executes heap limit p 1 (fun _ => (liftM o.execute : Run Unit)) (fun _ => p.to (p.ip + 1)) := by
  apply of_step
  · intro m _ m' hm hx
    have hquiet := quiet_ordinary.keeps_execute ho m
    rw [hx] at hquiet
    have hexecute := hplaced m (p.to (p.ip + 1))
    rw [hx] at hexecute
    exact ⟨hm.quiet hquiet, step_primitive_ok (hm.get? hcell) hexecute⟩
  · intro m e m' hm hx
    have hexecute := hplaced m (p.to (p.ip + 1))
    rw [hx] at hexecute
    exact ⟨_, step_primitive_error (hm.get? hcell) hexecute⟩

/-- A cell that follows `lit` or `[']` is pushed. -/
theorem literal {o : Primitive} {c : Cell} (ho : o.execute = Primitive.pushInline)
    (hcell : heap.Filled p.ip (.op (.primitive o))) (hoperand : heap.Filled (p.ip + 1) c) :
    Executes heap limit p 1 (fun _ => (liftM (push c) : Run Unit)) (fun _ => p.to (p.ip + 2)) := by
  apply of_step
  · intro m _ m' hm hx
    cases hx
    have hinline := pushInline_of_get? (m := m.placed (p.to (p.ip + 1))) (hm.get? hoperand)
    rw [← ho] at hinline
    exact ⟨⟨hm.heap_extends, hm.limit_eq⟩, step_primitive_ok (hm.get? hcell) hinline⟩
  · intro m e m' hm hx
    cases hx

/-- A conditional jump takes a flag, and goes on behind its offset if that is true. -/
theorem branch {offset : Int64} {target : Nat} (hcell : heap.Filled p.ip (.op (.primitive .jumpIfFalse)))
    (hoffset : heap.Filled (p.ip + 1) (.int offset)) (hip : p.ip + 1 < Cell.addressLimit)
    (htarget : (target : Int) = (p.ip + 1 : Nat) + offset.toInt) (hlimit : target < Cell.addressLimit) :
    Executes heap limit p 1 (fun _ => (liftM popFlag : Run Bool))
      (fun b => p.to (if b then p.ip + 2 else target)) := by
  have hplaced := Action.Placeless.popFlag
  apply of_step
  · intro m b m' hm hx
    have hquiet := quiet_ordinary.keeps_popFlag m
    rw [hx] at hquiet
    have hm' := hm.quiet hquiet
    have hpop := hplaced m (p.to (p.ip + 1))
    rw [hx] at hpop
    have hexecute := jumpIfFalse_of_popFlag_ok hpop
    refine ⟨hm', step_primitive_ok (hm.get? hcell) (hexecute.trans ?_)⟩
    cases b with
    | true => rfl
    | false => exact jumpInline_of_get? (hm'.get? hoffset) hip htarget hlimit
  · intro m e m' hm hx
    have hpop := hplaced m (p.to (p.ip + 1))
    rw [hx] at hpop
    exact ⟨_, step_primitive_error (hm.get? hcell) (jumpIfFalse_of_popFlag_error hpop)⟩

/-- A cell whose step changes nothing but the place. -/
theorem move (hstep : ∀ m : Machine, m.Hosts heap limit →
      step p.nested (m.placed p) = .ok (.more q.nested) (m.placed q)) :
    Executes heap limit p 1 (fun _ => (Pure.pure () : Run Unit)) (fun _ => q) := by
  have hpure : (fun _ => Pure.pure ()) = fun _ : Nat => (liftM (Pure.pure () : Action Unit) : Run Unit) :=
    rfl
  rw [hpure]
  apply of_step
  · intro m _ m' hm hx
    cases hx
    exact ⟨hm, hstep m hm⟩
  · intro m e m' hm hx
    cases hx

theorem jump {offset : Int64} {target : Nat} (hcell : heap.Filled p.ip (.op (.primitive .jump)))
    (hoffset : heap.Filled (p.ip + 1) (.int offset)) (hip : p.ip + 1 < Cell.addressLimit)
    (htarget : (target : Int) = (p.ip + 1 : Nat) + offset.toInt) (hlimit : target < Cell.addressLimit) :
    Executes heap limit p 1 (fun _ => (Pure.pure () : Run Unit)) (fun _ => p.to target) := by
  apply move
  intro m hm
  have hjump : Primitive.execute .jump (m.placed (p.to (p.ip + 1))) = .ok () (m.placed (p.to target)) :=
    jumpInline_of_get? (hm.get? hoffset) hip htarget hlimit
  exact step_primitive_ok (hm.get? hcell) hjump

/-- Entering a body. -/
theorem enter {callee : Nat} (hcell : heap.Filled p.ip (.op (.body callee)))
    (hroom : p.returns.depth < limit) :
    Executes heap limit p 1 (fun _ => (Pure.pure () : Run Unit))
      (fun _ => ⟨p.nested + 1, callee, p.returns.push (Cell.ofAddress (p.ip + 1))⟩) := by
  apply move
  intro m hm
  have hlimit : (m.placed p).returns.depth < (m.placed p).returnLimit := hm.limit_eq ▸ hroom
  exact step_body_ok (hm.get? hcell) hlimit

/-- Leaving a body. -/
theorem leave {n a b : Nat} {rs : Stack} (hcell : heap.Filled a (.op .exit))
    (hb : b < Cell.addressLimit) :
    Executes heap limit ⟨n + 1, a, rs.push (Cell.ofAddress b)⟩ 1 (fun _ => (Pure.pure () : Run Unit))
      (fun _ => ⟨n, b, rs⟩) := by
  apply move
  intro m hm
  exact step_exit_succ (hm.get? hcell) hb rfl

theorem toReturn (hcell : heap.Filled p.ip (.op (.primitive .toReturn)))
    (hroom : p.returns.depth < limit) :
    Executes heap limit p 1 (fun _ => (liftM pop : Run Cell))
      (fun c => ⟨p.nested, p.ip + 1, p.returns.push c⟩) := by
  have hplaced := Action.Placeless.pop
  apply of_step
  · intro m c m' hm hx
    have hquiet := quiet_ordinary.keeps_pop m
    rw [hx] at hquiet
    have hm' := hm.quiet hquiet
    have hpop := hplaced m (p.to (p.ip + 1))
    rw [hx] at hpop
    have hexecute : Primitive.execute .toReturn (m.placed (p.to (p.ip + 1))) =
        .ok () (m'.placed ⟨p.nested, p.ip + 1, p.returns.push c⟩) := by
      have hlimit : (m'.placed (p.to (p.ip + 1))).returns.depth < m'.returnLimit := hm'.limit_eq ▸ hroom
      exact (Action.bind_of_ok hpop).trans (if_pos hlimit)
    exact ⟨hm', step_primitive_ok (hm.get? hcell) hexecute⟩
  · intro m e m' hm hx
    have hpop := hplaced m (p.to (p.ip + 1))
    rw [hx] at hpop
    have hexecute : Primitive.execute .toReturn (m.placed (p.to (p.ip + 1))) =
        .error e (m'.placed (p.to (p.ip + 1))) := Action.bind_of_error hpop
    exact ⟨_, step_primitive_error (hm.get? hcell) hexecute⟩

theorem fromReturn {n a : Nat} {c : Cell} {rs : Stack}
    (hcell : heap.Filled a (.op (.primitive .fromReturn))) :
    Executes heap limit ⟨n, a, rs.push c⟩ 1 (fun _ => (liftM (push c) : Run Unit))
      (fun _ => ⟨n, a + 1, rs⟩) := by
  apply of_step
  · intro m _ m' hm hx
    cases hx
    have hexecute := fromReturn_of_returns (m := m.placed ⟨n, a + 1, rs.push c⟩) rfl
    rw [show (m.placed ⟨n, a + 1, rs.push c⟩).returns.pop = rs from Stack.pop_push rs c] at hexecute
    exact ⟨⟨hm.heap_extends, hm.limit_eq⟩, step_primitive_ok (hm.get? hcell) hexecute⟩
  · intro m e m' hm hx
    cases hx

/-! ### Loops -/

/-- Code that comes back to its start as long as its computation says so. -/
theorem loop {x : Nat → Run Bool} (hx : Executes heap limit p (k + 1) x (fun b => if b then p else q))
    (hxs : Steady x) : Executes heap limit p 0 (repeatWhile x) (fun _ => q) where
  ok := by
    rintro m _ m' hm ⟨fuel, hr⟩
    -- by induction on the rounds
    induction fuel generalizing m with
    | zero => cases hr
    | succ fuel ih =>
        rcases of_bind_eq_some hr with ⟨again, m₁, hfirst, hrest⟩ | ⟨e, m₁, _, hcontra⟩
        · obtain ⟨hm₁, hsteps⟩ := hx.ok hm ⟨fuel, hfirst⟩
          cases again with
          | true =>
              obtain ⟨hm', hmore⟩ := ih hm₁ hrest
              exact ⟨hm', hsteps.trans hmore⟩
          | false =>
              cases hrest
              exact ⟨hm₁, hsteps⟩
        · cases hcontra
  error := by
    rintro m e m' hm ⟨fuel, hr⟩
    induction fuel generalizing m with
    | zero => cases hr
    | succ fuel ih =>
        rcases of_bind_eq_some hr with ⟨again, m₁, hfirst, hrest⟩ | ⟨e, m₁, hfirst, heq⟩
        · obtain ⟨hm₁, hsteps⟩ := hx.ok hm ⟨fuel, hfirst⟩
          cases again with
          | true =>
              obtain ⟨place, hfails⟩ := ih hm₁ hrest
              exact ⟨place, hfails.of_steps hsteps⟩
          | false => cases hrest
        · cases heq
          exact hx.error hm ⟨fuel, hfirst⟩
  answers := by
    intro m fuel r hm hr
    -- every round takes a step, so the steps bound the rounds
    induction fuel using Nat.strongRecOn generalizing m with
    | ind fuel ih =>
        have hround : ∀ {again m₁ s}, Reaches x m (.ok again m₁) →
            Reaches (fun n => if again then repeatWhile x n else Pure.pure ()) m₁ s →
              Reaches (repeatWhile x) m s := by
          intro again m₁ s hfirst hrest
          apply Reaches.of_succ
          refine Reaches.bind_ok hxs ?_ hfirst hrest
          cases again with
          | true => exact hxs.repeatWhile
          | false => exact Steady.const _
        rcases hx.answers hm hr with ⟨e, m', he⟩ | ⟨again, m₁, fuel₁, hv, hle, hr₁⟩
        · exact Or.inl ⟨e, m', Reaches.of_succ (Reaches.bind_error he)⟩
        · have hm₁ := (hx.ok hm hv).1
          cases again with
          | false => exact Or.inr ⟨(), m₁, fuel₁, hround hv ⟨0, rfl⟩, by omega, hr₁⟩
          | true =>
              rcases ih fuel₁ (by omega) hm₁ hr₁ with ⟨e, m', he⟩ | ⟨_, m', fuel₂, hw, hle₂, hr₂⟩
              · exact Or.inl ⟨e, m', hround hv he⟩
              · exact Or.inr ⟨(), m', fuel₂, hround hv hw, by omega, hr₂⟩

end Executes

end Forth

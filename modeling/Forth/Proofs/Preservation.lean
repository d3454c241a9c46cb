/-
What the machine keeps whatever it executes.  A relation between a machine and what becomes of it is
checked once for each elementary change of the state; it then holds across every action, every run of
threaded code and every evaluation, whether these succeed or fail.
-/
import Forth.Proofs.Answers

namespace Forth

open Machine

theorem Outcome.machine_bind_pure {α β : Type} {x : Action α} {f : α → β} {m : Machine} :
    Outcome.machine ((x >>= fun a => pure (f a)) m) = Outcome.machine (x m) := by
  change Outcome.machine (EStateM.bind x _ m) = _
  unfold EStateM.bind
  cases x m <;> rfl

/-- The relation holds between a machine and what the action leaves of it, also if the action fails. -/
def Action.Keeps {α : Type} (R : Machine → Machine → Prop) (x : Action α) : Prop :=
  ∀ m, R m (Outcome.machine (x m))

/-- The relation holds between a machine and what the computation leaves of it, if it answers. -/
def Run.Keeps {α : Type} (R : Machine → Machine → Prop) (x : Run α) : Prop :=
  ∀ m r, x m = some r → R m (Outcome.machine r)

/-- A relation that can be followed through a sequence of actions and holds across every change of data
stack and output. -/
structure DataOnly (R : Machine → Machine → Prop) : Prop where
  refl : ∀ m, R m m
  trans : ∀ {m₁ m₂ m₃}, R m₁ m₂ → R m₂ m₃ → R m₁ m₃
  data : ∀ m s, R m { m with data := s }
  output : ∀ m e, R m { m with output := e :: m.output }

/-- A relation that holds across the changes of the state that ordinary primitives make. -/
structure Ordinary (R : Machine → Machine → Prop) : Prop extends DataOnly R where
  append : ∀ m c, m.heap.here < m.heap.capacity → R m { m with heap := m.heap.push c }
  markImmediate : ∀ m name, R m { m with dictionary := m.dictionary.markImmediate name }
  beginDefinition : ∀ m name, R m { m with
    dictionary := m.dictionary.define name (.body m.heap.here)
    lastWord := some name
    mode := .compile }
  mode : ∀ m mode, R m { m with mode := mode }
  source : ∀ m s s', m.source = some s → R m { m with source := some s' }

/-- A relation that holds across the changes of the state that leave the instruction pointer where it
is. -/
structure Stationary (R : Machine → Machine → Prop) : Prop extends Ordinary R where
  pushReturn : ∀ m c, m.returns.depth < m.returnLimit → R m { m with returns := m.returns.push c }
  popReturn : ∀ m, R m { m with returns := m.returns.pop }
  store : ∀ m a c, R m { m with heap := m.heap.set a c }

/-- A relation that holds across all changes of the state that executing threaded code can make. -/
structure Elementary (R : Machine → Machine → Prop) : Prop extends Stationary R where
  ip : ∀ m a, R m { m with ip := a }

/-- The primitives that work on the data stack, and may print it. -/
def Primitive.isDataWord : Primitive → Bool
  | .add | .sub | .mul | .div | .logicalAnd | .logicalOr | .logicalNot | .equal | .less
  | .pushTrue | .pushFalse | .drop | .dup | .swap | .clear | .display | .displayStack => true
  | _ => false

/-- The primitives that neither move the instruction pointer nor change the return stack, and leave
alone what is in the heap. -/
def Primitive.isOrdinary : Primitive → Bool
  | .lit | .tick | .toReturn | .fromReturn | .store | .jump | .jumpIfFalse => false
  | _ => true

/-- The primitives that do not move the instruction pointer. -/
def Primitive.isStationary : Primitive → Bool
  | .lit | .tick | .jump | .jumpIfFalse => false
  | _ => true

namespace DataOnly

variable {R : Machine → Machine → Prop} {α β : Type}

theorem keeps_pure (hR : DataOnly R) (a : α) : Action.Keeps R (pure a) := hR.refl

theorem keeps_throw (hR : DataOnly R) (e : Error) : Action.Keeps R (throw e : Action α) := hR.refl

theorem keeps_bind (hR : DataOnly R) {x : Action α} {f : α → Action β} (hx : Action.Keeps R x)
    (hf : ∀ a, Action.Keeps R (f a)) : Action.Keeps R (x >>= f) := by
  intro m
  have hfirst := hx m
  cases h : x m with
  | ok a m' =>
      rw [h] at hfirst
      rw [Action.bind_of_ok h]
      exact hR.trans hfirst (hf a m')
  | error e m' =>
      rw [h] at hfirst
      rw [Action.bind_of_error h]
      exact hfirst

theorem keeps_demand (hR : DataOnly R) (x : Except Error α) : Action.Keeps R (demand x) := by
  cases x <;> exact hR.refl

theorem keeps_push (hR : DataOnly R) (c : Cell) : Action.Keeps R (push c) :=
  fun m => hR.data m _

theorem keeps_pop (hR : DataOnly R) : Action.Keeps R pop := by
  intro m
  unfold pop
  split
  · exact hR.data m _
  · exact hR.refl m

theorem keeps_top (hR : DataOnly R) : Action.Keeps R top := by
  intro m
  unfold top
  split <;> exact hR.refl m

theorem keeps_popInt (hR : DataOnly R) : Action.Keeps R popInt :=
  hR.keeps_bind hR.keeps_pop fun _ => hR.keeps_demand _

theorem keeps_popFlag (hR : DataOnly R) : Action.Keeps R popFlag :=
  hR.keeps_bind hR.keeps_pop fun _ => hR.keeps_demand _

theorem keeps_popAddress (hR : DataOnly R) : Action.Keeps R popAddress :=
  hR.keeps_bind hR.keeps_pop fun _ => hR.keeps_demand _

theorem keeps_print (hR : DataOnly R) (text : String) : Action.Keeps R (print text) :=
  fun m => hR.output m _

theorem keeps_onInts (hR : DataOnly R) (f : Int64 → Int64 → Int64) :
    Action.Keeps R (Primitive.onInts f) :=
  hR.keeps_bind hR.keeps_popInt fun _ => hR.keeps_bind hR.keeps_popInt fun _ => hR.keeps_push _

theorem keeps_onFlags (hR : DataOnly R) (f : Bool → Bool → Bool) :
    Action.Keeps R (Primitive.onFlags f) :=
  hR.keeps_bind hR.keeps_popFlag fun _ => hR.keeps_bind hR.keeps_popFlag fun _ => hR.keeps_push _

theorem keeps_divide (hR : DataOnly R) : Action.Keeps R Primitive.divide := by
  apply hR.keeps_bind hR.keeps_popInt
  intro b
  apply hR.keeps_bind hR.keeps_popInt
  intro a
  by_cases hb : b = 0
  · simp only [hb, ↓reduceIte]
    exact hR.keeps_bind (hR.keeps_throw _) fun _ => hR.keeps_push _
  · simp only [hb, ↓reduceIte]
    exact hR.keeps_bind (hR.keeps_pure _) fun _ => hR.keeps_push _

theorem keeps_execute (hR : DataOnly R) {p : Primitive} (hp : p.isDataWord = true) :
    Action.Keeps R p.execute := by
  cases p with
  | add => exact hR.keeps_onInts _
  | sub => exact hR.keeps_onInts _
  | mul => exact hR.keeps_onInts _
  | div => exact hR.keeps_divide
  | logicalAnd => exact hR.keeps_onFlags _
  | logicalOr => exact hR.keeps_onFlags _
  | logicalNot => exact hR.keeps_bind hR.keeps_popFlag fun _ => hR.keeps_push _
  | equal =>
      exact hR.keeps_bind hR.keeps_pop fun _ => hR.keeps_bind hR.keeps_pop fun _ =>
        hR.keeps_bind (hR.keeps_demand _) fun _ => hR.keeps_push _
  | less =>
      exact hR.keeps_bind hR.keeps_popInt fun _ => hR.keeps_bind hR.keeps_popInt fun _ =>
        hR.keeps_push _
  | pushTrue => exact hR.keeps_push _
  | pushFalse => exact hR.keeps_push _
  | drop => exact hR.keeps_bind hR.keeps_pop fun _ => hR.keeps_pure _
  | dup => exact hR.keeps_bind hR.keeps_top fun _ => hR.keeps_push _
  | swap =>
      exact hR.keeps_bind hR.keeps_pop fun _ => hR.keeps_bind hR.keeps_pop fun _ =>
        hR.keeps_bind (hR.keeps_push _) fun _ => hR.keeps_push _
  | clear => exact fun m => hR.data m _
  | display => exact hR.keeps_bind hR.keeps_pop fun _ m => hR.keeps_print _ m
  | displayStack => exact fun m => hR.keeps_print _ m
  | _ => cases hp

theorem run_keeps_lift (x : Action α) (hx : Action.Keeps R x) : Run.Keeps R (liftM x : Run α) := by
  intro m r hr
  cases hr
  exact hx m

theorem run_keeps_pure (hR : DataOnly R) (a : α) : Run.Keeps R (pure a : Run α) := by
  intro m r hr
  cases hr
  exact hR.refl m

theorem run_keeps_bind (hR : DataOnly R) {x : Run α} {f : α → Run β} (hx : Run.Keeps R x)
    (hf : ∀ a, Run.Keeps R (f a)) : Run.Keeps R (x >>= f) := by
  intro m r hr
  rcases Run.of_bind_eq_some hr with ⟨a, m', hfirst, hrest⟩ | ⟨e, m', hfirst, rfl⟩
  · exact hR.trans (hx m _ hfirst) (hf a m' r hrest)
  · exact hx m _ hfirst

end DataOnly

namespace Ordinary

variable {R : Machine → Machine → Prop}

theorem keeps_peekReturn (hR : Ordinary R) (distance : Nat) :
    Action.Keeps R (peekReturn distance) := by
  intro m
  unfold peekReturn
  split <;> exact hR.refl m

theorem keeps_fetch (hR : Ordinary R) (a : Nat) : Action.Keeps R (fetch a) := by
  intro m
  unfold fetch
  split <;> exact hR.refl m

theorem keeps_append (hR : Ordinary R) (c : Cell) : Action.Keeps R (Machine.append c) := by
  intro m
  unfold Machine.append
  split
  · rename_i hroom
    exact hR.append m c hroom
  · exact hR.refl m

theorem keeps_fetchHere (hR : Ordinary R) : Action.Keeps R fetchHere :=
  fun m => hR.keeps_fetch m.ip m

theorem keeps_markLastWord (hR : Ordinary R) : Action.Keeps R markLastWord := by
  intro m
  unfold markLastWord
  split
  · exact hR.markImmediate m _
  · exact hR.refl m

theorem keeps_nextToken (hR : Ordinary R) : Action.Keeps R nextToken := by
  intro m
  unfold nextToken
  split
  · rename_i s hs
    exact hR.source m s _ hs
  · exact hR.refl m

theorem keeps_nextName (hR : Ordinary R) : Action.Keeps R nextName := by
  apply hR.keeps_bind hR.keeps_nextToken
  intro token
  cases token with
  | none => exact hR.keeps_throw _
  | some token => exact hR.keeps_pure _

theorem keeps_skipPast (hR : Ordinary R) (word : String) : Action.Keeps R (skipPast word) := by
  intro m
  cases hs : m.source with
  | none =>
      have hsame : Outcome.machine (skipPast word m) = m := by
        unfold skipPast
        rw [hs, Option.map_none, ← hs]
        rfl
      rw [hsame]
      exact hR.refl m
  | some s =>
      have hskip := hR.source m s (s.skipPast word) hs
      simpa [skipPast, Outcome.machine, hs] using hskip

theorem keeps_execute (hR : Ordinary R) {p : Primitive} (hp : p.isOrdinary = true) :
    Action.Keeps R p.execute := by
  by_cases hdata : p.isDataWord = true
  · exact hR.toDataOnly.keeps_execute hdata
  · cases p with
    | here => exact fun m => hR.keeps_push _ m
    | loopIndex => exact hR.keeps_bind (hR.keeps_peekReturn _) fun _ => hR.keeps_push _
    | loopLimit => exact hR.keeps_bind (hR.keeps_peekReturn _) fun _ => hR.keeps_push _
    | comma => exact hR.keeps_bind hR.keeps_pop fun _ => hR.keeps_append _
    | fetch =>
        exact hR.keeps_bind hR.keeps_popAddress fun _ => hR.keeps_bind (hR.keeps_fetch _) fun _ =>
          hR.keeps_push _
    | immediate => exact hR.keeps_markLastWord
    | words => exact fun m => hR.keeps_print _ m
    | colon => exact hR.keeps_bind hR.keeps_nextName fun name m => hR.beginDefinition m name
    | semicolon => exact hR.keeps_bind (hR.keeps_append _) fun _ m => hR.mode m _
    | comment => exact hR.keeps_skipPast _
    | lit | tick | toReturn | fromReturn | store | jump | jumpIfFalse => cases hp
    | _ => exact absurd rfl hdata

theorem keeps_number (hR : Ordinary R) (word : String) : Action.Keeps R (number word) := by
  unfold number
  split
  · exact hR.keeps_pure _
  · exact hR.keeps_throw _

/-- A word that is dispatched calls its operation, or is a number or compiled, which is ordinary. -/
theorem of_dispatch (hR : Ordinary R) {fuel : Nat} {word : String} {m : Machine} {r : Outcome Unit}
    (hr : dispatch fuel word m = some r) :
    R m (Outcome.machine r) ∨ ∃ op, m.dictionary.find? word = some op ∧
      (m.mode = .interpret ∨ m.dictionary.isImmediate word = true) ∧ call fuel op m = some r := by
  have hnumber := DataOnly.run_keeps_lift _ (hR.keeps_number word)
  have happend : ∀ c, Run.Keeps R (liftM (Machine.append c) : Run Unit) :=
    fun c => DataOnly.run_keeps_lift _ (hR.keeps_append c)
  rcases dispatch_cases fuel word m with ⟨op, hfind, hexecute, hcall⟩ | ⟨op, _, _, _, hcompile⟩ |
    ⟨_, _, hpush⟩ | ⟨_, _, hcells⟩
  · exact Or.inr ⟨op, hfind, hexecute, hcall.symm.trans hr⟩
  · exact Or.inl (happend _ m r (hcompile.symm.trans hr))
  · have hkeeps := hR.run_keeps_bind hnumber fun n => DataOnly.run_keeps_lift _ (hR.keeps_push (.int n))
    exact Or.inl (hkeeps m r (hpush.symm.trans hr))
  · have hkeeps := hR.run_keeps_bind hnumber fun n =>
      hR.run_keeps_bind (happend (.op (.primitive .lit))) fun _ => happend (.int n)
    exact Or.inl (hkeeps m r (hcells.symm.trans hr))

end Ordinary

namespace Stationary

variable {R : Machine → Machine → Prop}

theorem keeps_pushReturn (hR : Stationary R) (c : Cell) : Action.Keeps R (Machine.pushReturn c) := by
  intro m
  unfold Machine.pushReturn
  split
  · rename_i hdepth
    exact hR.pushReturn m c hdepth
  · exact hR.refl m

theorem keeps_popReturn (hR : Stationary R) : Action.Keeps R Machine.popReturn := by
  intro m
  unfold Machine.popReturn
  split
  · exact hR.popReturn m
  · exact hR.refl m

theorem keeps_store (hR : Stationary R) (a : Nat) (c : Cell) :
    Action.Keeps R (Machine.store a c) := by
  intro m
  unfold Machine.store
  split
  · exact hR.store m a c
  · exact hR.refl m

theorem keeps_saveIp (hR : Stationary R) : Action.Keeps R saveIp :=
  fun m => hR.keeps_pushReturn _ m

theorem keeps_execute (hR : Stationary R) {p : Primitive} (hp : p.isStationary = true) :
    Action.Keeps R p.execute := by
  by_cases hordinary : p.isOrdinary = true
  · exact hR.toOrdinary.keeps_execute hordinary
  · cases p with
    | toReturn => exact hR.keeps_bind hR.keeps_pop fun _ => hR.keeps_pushReturn _
    | fromReturn => exact hR.keeps_bind hR.keeps_popReturn fun _ => hR.keeps_push _
    | store =>
        exact hR.keeps_bind hR.keeps_popAddress fun _ => hR.keeps_bind hR.keeps_pop fun _ =>
          hR.keeps_store _ _
    | lit | tick | jump | jumpIfFalse => cases hp
    | _ => exact absurd rfl hordinary

end Stationary

namespace Elementary

open DataOnly

variable {R : Machine → Machine → Prop} {α β : Type}

/-- A weaker relation holds across the same changes if it can be followed through a sequence. -/
theorem imp {S : Machine → Machine → Prop} (hR : Elementary R) (hRS : ∀ {m m'}, R m m' → S m m')
    (htrans : ∀ {m₁ m₂ m₃}, S m₁ m₂ → S m₂ m₃ → S m₁ m₃) : Elementary S where
  refl m := hRS (hR.refl m)
  trans := htrans
  data m s := hRS (hR.data m s)
  pushReturn m c hroom := hRS (hR.pushReturn m c hroom)
  popReturn m := hRS (hR.popReturn m)
  store m a c := hRS (hR.store m a c)
  append m c hroom := hRS (hR.append m c hroom)
  ip m a := hRS (hR.ip m a)
  markImmediate m name := hRS (hR.markImmediate m name)
  beginDefinition m name := hRS (hR.beginDefinition m name)
  mode m mode := hRS (hR.mode m mode)
  source m s s' hs := hRS (hR.source m s s' hs)
  output m e := hRS (hR.output m e)

theorem keeps_setIp (hR : Elementary R) (a : Nat) : Action.Keeps R (setIp a) :=
  fun m => hR.ip m a

theorem keeps_advance (hR : Elementary R) : Action.Keeps R advance :=
  fun m => hR.ip m _

theorem keeps_jumpBy (hR : Elementary R) (offset : Int64) : Action.Keeps R (jumpBy offset) := by
  intro m
  unfold jumpBy
  dsimp only
  split
  · exact hR.ip m _
  · exact hR.refl m

theorem keeps_restoreIp (hR : Elementary R) : Action.Keeps R restoreIp :=
  hR.keeps_bind hR.keeps_popReturn fun _ =>
    hR.keeps_bind (hR.keeps_demand _) fun _ => hR.keeps_setIp _

theorem keeps_pushInline (hR : Elementary R) : Action.Keeps R Primitive.pushInline :=
  hR.keeps_bind hR.keeps_fetchHere fun _ =>
    hR.keeps_bind hR.keeps_advance fun _ => hR.keeps_push _

theorem keeps_jumpInline (hR : Elementary R) : Action.Keeps R Primitive.jumpInline :=
  hR.keeps_bind hR.keeps_fetchHere fun _ =>
    hR.keeps_bind (hR.keeps_demand _) fun _ => hR.keeps_jumpBy _

theorem keeps_execute (hR : Elementary R) (p : Primitive) : Action.Keeps R p.execute := by
  by_cases hp : p.isStationary = true
  · exact hR.toStationary.keeps_execute hp
  · cases p with
    | lit => exact hR.keeps_pushInline
    | tick => exact hR.keeps_pushInline
    | jump => exact hR.keeps_jumpInline
    | jumpIfFalse =>
        apply hR.keeps_bind hR.keeps_popFlag
        intro b
        cases b with
        | false => exact hR.keeps_jumpInline
        | true => exact hR.keeps_advance
    | _ => exact absurd rfl hp

theorem keeps_fetchOp (hR : Elementary R) : Action.Keeps R fetchOp :=
  hR.keeps_bind hR.keeps_fetchHere fun _ => hR.keeps_bind (hR.keeps_demand _) fun _ =>
    hR.keeps_bind hR.keeps_advance fun _ => hR.keeps_pure _

theorem keeps_step (hR : Elementary R) (nested : Nat) : Action.Keeps R (step nested) := by
  apply hR.keeps_bind hR.keeps_fetchOp
  intro op
  cases op with
  | primitive p => exact hR.keeps_bind (hR.keeps_execute p) fun _ => hR.keeps_pure _
  | body address =>
      exact hR.keeps_bind hR.keeps_saveIp fun _ => hR.keeps_bind (hR.keeps_setIp _) fun _ =>
        hR.keeps_pure _
  | exit =>
      cases nested with
      | zero => exact hR.keeps_pure _
      | succ outer => exact hR.keeps_bind hR.keeps_restoreIp fun _ => hR.keeps_pure _

theorem keeps_thread (hR : Elementary R) (fuel nested : Nat) : Run.Keeps R (thread fuel nested) := by
  induction fuel generalizing nested with
  | zero =>
      intro m r hr
      cases hr
  | succ fuel ih =>
      apply hR.run_keeps_bind (run_keeps_lift _ (hR.keeps_step nested))
      intro turn
      cases turn with
      | finished => exact hR.run_keeps_pure _
      | more nested' => exact ih nested'

theorem keeps_run (hR : Elementary R) (fuel address : Nat) : Run.Keeps R (run fuel address) :=
  hR.run_keeps_bind (run_keeps_lift _ (hR.keeps_setIp _)) fun _ => hR.keeps_thread fuel 0

theorem keeps_call (hR : Elementary R) (fuel : Nat) (op : Op) : Run.Keeps R (call fuel op) := by
  cases op with
  | primitive p => exact run_keeps_lift _ (hR.keeps_execute p)
  | body address =>
      apply hR.run_keeps_bind (run_keeps_lift _ hR.keeps_saveIp)
      intro _
      apply hR.run_keeps_bind (hR.keeps_run fuel address)
      intro _
      exact run_keeps_lift _ hR.keeps_restoreIp
  | exit => exact hR.run_keeps_pure _

theorem keeps_dispatch (hR : Elementary R) (fuel : Nat) (word : String) :
    Run.Keeps R (dispatch fuel word) := by
  intro m r hr
  rcases hR.of_dispatch hr with hordinary | ⟨op, _, _, hcall⟩
  · exact hordinary
  · exact hR.keeps_call fuel op m r hcall

theorem keeps_build (hR : Elementary R) (fuel : Nat) : Run.Keeps R (build fuel) := by
  induction fuel with
  | zero =>
      intro m r hr
      cases hr
  | succ fuel ih =>
      apply hR.run_keeps_bind (run_keeps_lift _ hR.keeps_nextToken)
      intro token
      cases token with
      | none => exact hR.run_keeps_pure _
      | some token => exact hR.run_keeps_bind (hR.keeps_dispatch fuel token.text) fun _ => ih

end Elementary

namespace Heap

/-- The filled part of a heap is still there in a later one. -/
structure Extends (heap heap' : Heap) : Prop where
  here_le : heap.here ≤ heap'.here
  get? : ∀ a < heap.here, heap'.get? a = heap.get? a
  capacity : heap'.capacity = heap.capacity

theorem Extends.refl (heap : Heap) : heap.Extends heap :=
  ⟨Nat.le_refl _, fun _ _ => rfl, rfl⟩

theorem Extends.trans {heap₁ heap₂ heap₃ : Heap} (h : heap₁.Extends heap₂)
    (h' : heap₂.Extends heap₃) : heap₁.Extends heap₃ where
  here_le := Nat.le_trans h.here_le h'.here_le
  get? := by
    intro a ha
    rw [h'.get? a (Nat.lt_of_lt_of_le ha h.here_le), h.get? a ha]
  capacity := h'.capacity.trans h.capacity

theorem extends_push (heap : Heap) (c : Cell) : heap.Extends (heap.push c) where
  here_le := by simp
  get? := by
    intro a ha
    rw [get?_push, if_neg (by omega)]
  capacity := by simp

end Heap

/-- What an ordinary primitive leaves alone: instruction pointer, return stack, its limit, and the filled
part of the heap. -/
structure Machine.Quiet (m m' : Machine) : Prop where
  ip : m'.ip = m.ip
  returns : m'.returns = m.returns
  returnLimit : m'.returnLimit = m.returnLimit
  heap : m.heap.Extends m'.heap

theorem Machine.quiet_ordinary : Ordinary Machine.Quiet where
  refl _ := ⟨rfl, rfl, rfl, Heap.Extends.refl _⟩
  trans h h' :=
    ⟨h'.ip.trans h.ip, h'.returns.trans h.returns, h'.returnLimit.trans h.returnLimit,
      h.heap.trans h'.heap⟩
  data _ _ := ⟨rfl, rfl, rfl, Heap.Extends.refl _⟩
  append m c _ := ⟨rfl, rfl, rfl, m.heap.extends_push c⟩
  markImmediate _ _ := ⟨rfl, rfl, rfl, Heap.Extends.refl _⟩
  beginDefinition _ _ := ⟨rfl, rfl, rfl, Heap.Extends.refl _⟩
  mode _ _ := ⟨rfl, rfl, rfl, Heap.Extends.refl _⟩
  source _ _ _ _ := ⟨rfl, rfl, rfl, Heap.Extends.refl _⟩
  output _ _ := ⟨rfl, rfl, rfl, Heap.Extends.refl _⟩

end Forth

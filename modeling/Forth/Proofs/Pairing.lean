/-
Two machines that execute the same code side by side.  A relation between them is checked once for each
way in which a primitive looks at the state or changes it; the two then go the same way through every
run of threaded code, with the same values, the same errors and the same end.  An error may be excused:
where the first machine stops with it, nothing is said of the second.
-/
import Forth.Proofs.Preservation
import Forth.Proofs.Reading
import Forth.Proofs.Steps

namespace Forth

open Machine

/-! ### What comes to be executed -/

namespace Machine

/-- The loop comes to execute a primitive, on the machine given last. -/
inductive ThreadExecutes : Nat → Machine → Primitive → Machine → Prop where
  | here {nested : Nat} {m m₁ : Machine} {p : Primitive} :
      fetchOp m = .ok (.primitive p) m₁ → ThreadExecutes nested m p m₁
  | later {nested nested₁ : Nat} {m m₁ m₂ : Machine} {p : Primitive} :
      step nested m = .ok (.more nested₁) m₁ → ThreadExecutes nested₁ m₁ p m₂ →
        ThreadExecutes nested m p m₂

/-- A call comes to execute a primitive. -/
inductive CallExecutes (m : Machine) : Op → Primitive → Machine → Prop where
  | primitive {p : Primitive} : CallExecutes m (.primitive p) p m
  | body {address : Nat} {m₁ m₂ : Machine} {p : Primitive} :
      saveIp m = .ok () m₁ → ThreadExecutes 0 { m₁ with ip := address } p m₂ →
        CallExecutes m (.body address) p m₂

/-- A word that is dispatched comes to execute a primitive. -/
def DispatchExecutes (m : Machine) (word : String) (p : Primitive) (m' : Machine) : Prop :=
  ∃ op, m.dictionary.find? word = some op ∧
    (m.mode = .interpret ∨ m.dictionary.isImmediate word = true) ∧ CallExecutes m op p m'

end Machine

/-! ### What a machine holds -/

/-- All cells on the stacks and in the heap of the machine have a property. -/
structure Machine.HoldsOnly (A : Cell → Prop) (m : Machine) : Prop where
  data : ∀ c ∈ m.data.cells, A c
  returns : ∀ c ∈ m.returns.cells, A c
  heap : ∀ c ∈ m.heap.cells, A c

namespace Machine.HoldsOnly

variable {A B : Cell → Prop} {m : Machine} {c : Cell}

theorem mono (h : m.HoldsOnly A) (hAB : ∀ c, A c → B c) : m.HoldsOnly B :=
  ⟨fun c hc => hAB c (h.data c hc), fun c hc => hAB c (h.returns c hc),
    fun c hc => hAB c (h.heap c hc)⟩

theorem set (h : m.HoldsOnly A) (a : Nat) (hc : A c) :
    { m with heap := m.heap.set a c }.HoldsOnly A := by
  refine ⟨h.data, h.returns, fun d hd => ?_⟩
  rcases Array.mem_or_eq_of_mem_setIfInBounds hd with hold | rfl
  · exact h.heap d hold
  · exact hc

theorem push (h : m.HoldsOnly A) (hc : A c) : { m with heap := m.heap.push c }.HoldsOnly A := by
  refine ⟨h.data, h.returns, fun d hd => ?_⟩
  rcases Array.mem_or_eq_of_mem_setIfInBounds hd with hold | rfl
  · exact h.heap d hold
  · exact hc

end Machine.HoldsOnly

/-! ### Pairings -/

/-- The primitives whose effect depends on how deep the data stack is. -/
def Primitive.seesWholeStack : Primitive → Bool
  | .clear | .displayStack => true
  | _ => false

/-- What two machines that run side by side have in common. -/
structure Pairing where
  related : Machine → Machine → Prop
  /-- The errors of the first machine behind which the second may do anything. -/
  excused : Error → Prop
  /-- The cells that the first machine may hold on its stacks and in its heap. -/
  admits : Cell → Prop
  /-- Where the first machine may execute a primitive that reads on in the source. -/
  allows : Primitive → Machine → Prop

namespace Pairing

variable {α β : Type}

/-- Two actions went the same way: with one value, of which something may be known, or with one error,
and to related machines. -/
def Agrees (P : Pairing) (V : α → Prop) : Outcome α → Outcome α → Prop
  | .ok a m, o => V a ∧ ∃ m', o = .ok a m' ∧ P.related m m'
  | .error e m, o => P.excused e ∨ ∃ m', o = .error e m' ∧ P.related m m'

/-- Two computations went the same way, in the same number of steps. -/
def Answers (P : Pairing) : Option (Outcome α) → Option (Outcome α) → Prop
  | none, o => o = none
  | some (.ok a m), o => ∃ m', o = some (.ok a m') ∧ P.related m m'
  | some (.error e m), o => P.excused e ∨ ∃ m', o = some (.error e m') ∧ P.related m m'

/-- The two machines read the same word next, or both none. -/
def ReadsAlike (P : Pairing) (m m' : Machine) : Prop :=
  (∃ m₁ m₁', nextToken m = .ok none m₁ ∧ nextToken m' = .ok none m₁' ∧ P.related m₁ m₁') ∨
    ∃ token token' m₁ m₁', nextToken m = .ok (some token) m₁ ∧ nextToken m' = .ok (some token') m₁' ∧
      token'.text = token.text ∧ P.related m₁ m₁'

/-- The relation bears all that primitives on the data stack do, and the two machines have the same
data stack. -/
structure OnData (P : Pairing) : Prop where
  admits_int : ∀ n, P.admits (.int n)
  admits_flag : ∀ b, P.admits (.flag b)
  admits_data : ∀ {m m'}, P.related m m' → ∀ c ∈ m.data.cells, P.admits c
  data : ∀ {m m'}, P.related m m' → m'.data = m.data
  render : ∀ {m m'}, P.related m m' → ∀ c, m'.render c = m.render c
  withData : ∀ {m m' s}, P.related m m' → (∀ c ∈ s.cells, P.admits c) →
    P.related { m with data := s } { m' with data := s }
  withOutput : ∀ {m m' e}, P.related m m' →
    P.related { m with output := e :: m.output } { m' with output := e :: m'.output }

/-- The relation bears what threaded code does to all but stacks and output. -/
structure OnRest (P : Pairing) : Prop where
  admits_exit : P.admits (.op .exit)
  ip : ∀ {m m'}, P.related m m' → m'.ip = m.ip
  withIp : ∀ {m m' a}, P.related m m' → P.related { m with ip := a } { m' with ip := a }
  here : ∀ {m m'}, P.related m m' → m'.heap.here = m.heap.here
  get? : ∀ {m m' a c}, P.related m m' → m.heap.get? a = some c →
    P.admits c ∧ m'.heap.get? a = some c
  outside : ∀ {m m' a}, P.related m m' → m.heap.get? a = none →
    m'.heap.get? a = none ∨ P.excused .invalidAddress ∧ P.excused .heapOverflow
  withSet : ∀ {m m' a c}, P.related m m' → a < m.heap.capacity → P.admits c →
    P.related { m with heap := m.heap.set a c } { m' with heap := m'.heap.set a c }
  withPush : ∀ {m m' c}, P.related m m' → m.heap.here < m.heap.capacity → P.admits c →
    P.related { m with heap := m.heap.push c } { m' with heap := m'.heap.push c }
  lastWord : ∀ {m m'}, P.related m m' → m'.lastWord = m.lastWord
  withImmediate : ∀ {m m' name}, P.related m m' → m.lastWord = some name → P.related
    { m with dictionary := m.dictionary.markImmediate name }
    { m' with dictionary := m'.dictionary.markImmediate name }
  withDefinition : ∀ {m m' name}, P.related m m' → P.related
    { m with
      dictionary := m.dictionary.define name (.body m.heap.here)
      lastWord := some name
      mode := .compile }
    { m' with
      dictionary := m'.dictionary.define name (.body m.heap.here)
      lastWord := some name
      mode := .compile }
  withMode : ∀ {m m' mode}, P.related m m' →
    P.related { m with mode := mode } { m' with mode := mode }
  words : ∀ {m m'}, P.related m m' → P.admits (.op (.primitive .words)) →
    m'.dictionary.words = m.dictionary.words
  nextToken : ∀ {m m'}, P.related m m' → P.allows .colon m → P.ReadsAlike m m'
  comment : ∀ {m m'}, P.related m m' → P.allows .comment m → P.related
    { m with source := m.source.map (Source.skipPast ")") }
    { m' with source := m'.source.map (Source.skipPast ")") }

/-- The relation bears all that threaded code does, and the two machines have the same stacks. -/
structure OnCode (P : Pairing) : Prop extends OnData P, OnRest P where
  admits_returns : ∀ {m m'}, P.related m m' → ∀ c ∈ m.returns.cells, P.admits c
  returns : ∀ {m m'}, P.related m m' → m'.returns = m.returns
  withReturns : ∀ {m m' s}, P.related m m' → (∀ c ∈ s.cells, P.admits c) →
    P.related { m with returns := s } { m' with returns := s }
  returnLimit : ∀ {m m'}, P.related m m' → m'.returnLimit = m.returnLimit ∨
    m.returnLimit ≤ m'.returnLimit ∧ P.excused .returnStackOverflow

/-- The two machines go the same way whenever they execute the action from related states. -/
def Carries (P : Pairing) (V : α → Prop) (x : Action α) : Prop :=
  ∀ m m', P.related m m' → P.Agrees V (x m) (x m')

/-- The relation bears what primitives do at the top of the data stack; below, the two machines may
differ. -/
structure OnTop (P : Pairing) : Prop where
  admits_int : ∀ n, P.admits (.int n)
  admits_flag : ∀ b, P.admits (.flag b)
  render : ∀ {m m'}, P.related m m' → ∀ c, m'.render c = m.render c
  withOutput : ∀ {m m' e}, P.related m m' →
    P.related { m with output := e :: m.output } { m' with output := e :: m'.output }
  carries_push : ∀ {c}, P.admits c → P.Carries (fun _ => True) (push c)
  carries_pop : P.Carries P.admits pop
  carries_top : P.Carries P.admits top

/-- The relation bears all that a step of threaded code does, if the primitives that see a whole stack
are either not admitted or borne, too. -/
structure OnSteps (P : Pairing) : Prop extends OnTop P, OnRest P where
  carries_whole : ∀ {p : Primitive}, p.seesWholeStack = true → P.admits (.op (.primitive p)) →
    P.Carries (fun _ => True) p.execute
  carries_pushReturn : ∀ {c}, P.admits c → P.Carries (fun _ => True) (pushReturn c)
  carries_popReturn : P.Carries P.admits popReturn
  carries_peekReturn : ∀ distance, P.Carries P.admits (peekReturn distance)

section

variable {P : Pairing} {V : α → Prop} {W : β → Prop} {m m' : Machine}

theorem agrees_bind {x : Action α} {f : α → Action β} (hx : P.Agrees V (x m) (x m'))
    (hf : ∀ a m₁ m₁', x m = .ok a m₁ → V a → P.related m₁ m₁' →
      P.Agrees W (f a m₁) (f a m₁')) :
    P.Agrees W ((x >>= f) m) ((x >>= f) m') := by
  cases h : x m with
  | ok a m₁ =>
      rw [h] at hx
      obtain ⟨ha, m₁', h', hrelated⟩ := hx
      rw [Action.bind_of_ok h, Action.bind_of_ok h']
      exact hf a m₁ m₁' h ha hrelated
  | error e m₁ =>
      rw [h] at hx
      rw [Action.bind_of_error h]
      rcases hx with hexcused | ⟨m₁', h', hrelated⟩
      · exact Or.inl hexcused
      · exact Or.inr ⟨m₁', Action.bind_of_error h', hrelated⟩

theorem answers_bind {x x' : Run α} {f f' : α → Run β} (hx : P.Answers (x m) (x' m'))
    (hf : ∀ a m₁ m₁', x m = some (.ok a m₁) → P.related m₁ m₁' → P.Answers (f a m₁) (f' a m₁')) :
    P.Answers ((x >>= f) m) ((x' >>= f') m') := by
  rw [Run.bind_apply, Run.bind_apply]
  rcases h : x m with _ | ⟨a, m₁⟩ | ⟨e, m₁⟩
  · rw [h] at hx
    rw [show x' m' = none from hx]
    rfl
  · rw [h] at hx
    obtain ⟨m₁', h', hrelated⟩ := hx
    rw [h']
    exact hf a m₁ m₁' h hrelated
  · rw [h] at hx
    rcases hx with hexcused | ⟨m₁', h', hrelated⟩
    · exact Or.inl hexcused
    · rw [h']
      exact Or.inr ⟨m₁', rfl, hrelated⟩

/-- An action that went the same way on both machines is a computation that answered alike. -/
theorem answers_of_agrees {r r' : Outcome α} (h : P.Agrees V r r') :
    P.Answers (some r) (some r') := by
  cases r with
  | ok a m₁ =>
      obtain ⟨_, m₁', rfl, hrelated⟩ := h
      exact ⟨m₁', rfl, hrelated⟩
  | error e m₁ =>
      rcases h with hexcused | ⟨m₁', rfl, hrelated⟩
      · exact Or.inl hexcused
      · exact Or.inr ⟨m₁', rfl, hrelated⟩

theorem answers_lift {x : Action α} (h : P.Agrees V (x m) (x m')) :
    P.Answers ((liftM x : Run α) m) ((liftM x : Run α) m') := by
  rw [Run.lift_apply, Run.lift_apply]
  exact answers_of_agrees h

/-- A success of the first computation is one of the second. -/
theorem reaches_ok {x x' : Nat → Run α} (h : ∀ fuel, P.Answers (x fuel m) (x' fuel m')) {a : α}
    {m₁ : Machine} (hr : Run.Reaches x m (.ok a m₁)) :
    ∃ m₁', Run.Reaches x' m' (.ok a m₁') ∧ P.related m₁ m₁' := by
  obtain ⟨fuel, hfuel⟩ := hr
  have hanswer := h fuel
  rw [hfuel] at hanswer
  obtain ⟨m₁', h', hrelated⟩ := hanswer
  exact ⟨m₁', ⟨fuel, h'⟩, hrelated⟩

/-- A failure of the first computation is one of the second, unless it is excused. -/
theorem reaches_error {x x' : Nat → Run α} (h : ∀ fuel, P.Answers (x fuel m) (x' fuel m')) {e : Error}
    {m₁ : Machine} (hr : Run.Reaches x m (.error e m₁)) :
    P.excused e ∨ ∃ m₁', Run.Reaches x' m' (.error e m₁') ∧ P.related m₁ m₁' := by
  obtain ⟨fuel, hfuel⟩ := hr
  have hanswer := h fuel
  rw [hfuel] at hanswer
  rcases hanswer with hexcused | ⟨m₁', h', hrelated⟩
  · exact Or.inl hexcused
  · exact Or.inr ⟨m₁', ⟨fuel, h'⟩, hrelated⟩

/-- Where the second computation answers, so does the first. -/
theorem reaches_of_reaches {x x' : Nat → Run α} (h : ∀ fuel, P.Answers (x fuel m) (x' fuel m'))
    {r' : Outcome α} (hr : Run.Reaches x' m' r') : ∃ r, Run.Reaches x m r := by
  obtain ⟨fuel, hfuel⟩ := hr
  cases hx : x fuel m with
  | none =>
      have hanswer := h fuel
      rw [hx] at hanswer
      have hnone : x' fuel m' = none := hanswer
      rw [hnone] at hfuel
      cases hfuel
  | some r => exact ⟨r, fuel, hx⟩

theorem carries_bind {x : Action α} {f : α → Action β} (hx : P.Carries V x)
    (hf : ∀ a, V a → P.Carries W (f a)) : P.Carries W (x >>= f) :=
  fun m m' h => agrees_bind (hx m m' h) fun a m₁ m₁' _ ha h₁ => hf a ha m₁ m₁' h₁

theorem carries_pure {a : α} (ha : V a) : P.Carries V (pure a) :=
  fun _ m' h => ⟨ha, m', rfl, h⟩

theorem carries_throw (e : Error) : P.Carries V (throw e : Action α) :=
  fun _ m' h => Or.inr ⟨m', rfl, h⟩

theorem carries_demand {x : Except Error α} (hx : ∀ a, x = .ok a → V a) : P.Carries V (demand x) := by
  cases x with
  | ok a => exact carries_pure (hx a rfl)
  | error e => exact carries_throw e

/-- Machines with one source read alike, if the relation bears that both have read a token from it. -/
theorem readsAlike_of_source (hsource : m'.source = m.source) (h : P.related m m')
    (hread : ∀ s, m.source = some s →
      P.related { m with source := some s.next.2 } { m' with source := some s.next.2 }) :
    P.ReadsAlike m m' := by
  unfold ReadsAlike nextToken
  rw [hsource]
  cases hs : m.source with
  | none => exact Or.inl ⟨m, m', rfl, rfl, h⟩
  | some s =>
      have hrest := hread s hs
      dsimp only
      cases s.next.1 with
      | none => exact Or.inl ⟨_, _, rfl, rfl, hrest⟩
      | some token => exact Or.inr ⟨token, token, _, _, rfl, rfl, rfl, hrest⟩

theorem ReadsAlike.nextName (h : P.ReadsAlike m m') :
    P.Agrees (fun _ => True) (nextName m) (nextName m') := by
  unfold Machine.nextName
  rcases h with ⟨m₁, m₁', hnext, hnext', h₁⟩ | ⟨token, token', m₁, m₁', hnext, hnext', htext, h₁⟩
  · rw [Action.bind_of_ok hnext, Action.bind_of_ok hnext']
    exact carries_throw _ m₁ m₁' h₁
  · rw [Action.bind_of_ok hnext, Action.bind_of_ok hnext']
    dsimp only
    rw [htext]
    exact carries_pure trivial m₁ m₁' h₁

end

namespace OnTop

variable {P : Pairing} {V : α → Prop}

theorem carries_popInt (hP : OnTop P) : P.Carries (fun _ => True) popInt :=
  carries_bind hP.carries_pop fun _ _ => carries_demand fun _ _ => trivial

theorem carries_popFlag (hP : OnTop P) : P.Carries (fun _ => True) popFlag :=
  carries_bind hP.carries_pop fun _ _ => carries_demand fun _ _ => trivial

theorem carries_popAddress (hP : OnTop P) : P.Carries (fun _ => True) popAddress :=
  carries_bind hP.carries_pop fun _ _ => carries_demand fun _ _ => trivial

theorem carries_pushInt (hP : OnTop P) (n : Int64) : P.Carries (fun _ => True) (push (.int n)) :=
  hP.carries_push (hP.admits_int n)

theorem carries_pushFlag (hP : OnTop P) (b : Bool) : P.Carries (fun _ => True) (push (.flag b)) :=
  hP.carries_push (hP.admits_flag b)

theorem agrees_print (hP : OnTop P) {m m' : Machine} (h : P.related m m') {text text' : String}
    (htext : text' = text) : P.Agrees (fun _ => True) (print text m) (print text' m') := by
  subst htext
  exact ⟨trivial, _, rfl, hP.withOutput h⟩

theorem carries_onInts (hP : OnTop P) (f : Int64 → Int64 → Int64) :
    P.Carries (fun _ => True) (Primitive.onInts f) :=
  carries_bind hP.carries_popInt fun _ _ => carries_bind hP.carries_popInt fun _ _ =>
    hP.carries_pushInt _

theorem carries_onFlags (hP : OnTop P) (f : Bool → Bool → Bool) :
    P.Carries (fun _ => True) (Primitive.onFlags f) :=
  carries_bind hP.carries_popFlag fun _ _ => carries_bind hP.carries_popFlag fun _ _ =>
    hP.carries_pushFlag _

theorem carries_divide (hP : OnTop P) : P.Carries (fun _ => True) Primitive.divide := by
  apply carries_bind hP.carries_popInt
  intro b _
  apply carries_bind hP.carries_popInt
  intro a _
  by_cases hb : b = 0
  · simp only [hb, ↓reduceIte]
    exact carries_bind (V := fun _ => True) (carries_throw _) fun _ _ => hP.carries_pushInt _
  · simp only [hb, ↓reduceIte]
    exact carries_bind (V := fun _ => True) (carries_pure trivial) fun _ _ => hP.carries_pushInt _

theorem carries_display (hP : OnTop P) : P.Carries (fun _ => True) (Primitive.execute .display) := by
  apply carries_bind hP.carries_pop
  intro c _ m m' h
  exact hP.agrees_print h (congrArg (· ++ "\n") (hP.render h c))

/-- The two machines go the same way through a primitive that sees only so many cells of the data
stack. -/
theorem carries_execute (hP : OnTop P) {p : Primitive} (hp : p.isDataWord = true)
    (htop : p.seesWholeStack = false) : P.Carries (fun _ => True) p.execute := by
  cases p with
  | add => exact hP.carries_onInts _
  | sub => exact hP.carries_onInts _
  | mul => exact hP.carries_onInts _
  | div => exact hP.carries_divide
  | logicalAnd => exact hP.carries_onFlags _
  | logicalOr => exact hP.carries_onFlags _
  | logicalNot => exact carries_bind hP.carries_popFlag fun _ _ => hP.carries_pushFlag _
  | equal =>
      exact carries_bind hP.carries_pop fun _ _ => carries_bind hP.carries_pop fun _ _ =>
        carries_bind (V := fun _ => True) (carries_demand fun _ _ => trivial) fun _ _ =>
          hP.carries_pushFlag _
  | less =>
      exact carries_bind hP.carries_popInt fun _ _ => carries_bind hP.carries_popInt fun _ _ =>
        hP.carries_pushFlag _
  | pushTrue => exact hP.carries_pushFlag _
  | pushFalse => exact hP.carries_pushFlag _
  | drop => exact carries_bind hP.carries_pop fun _ _ => carries_pure trivial
  | dup => exact carries_bind hP.carries_top fun _ hc => hP.carries_push hc
  | swap =>
      exact carries_bind hP.carries_pop fun _ hb => carries_bind hP.carries_pop fun _ ha =>
        carries_bind (hP.carries_push hb) fun _ _ => hP.carries_push ha
  | display => exact hP.carries_display
  | clear | displayStack => cases htop
  | _ => cases hp

end OnTop

namespace OnData

variable {P : Pairing}

theorem carries_push (hP : OnData P) {c : Cell} (hc : P.admits c) :
    P.Carries (fun _ => True) (push c) := by
  intro m m' h
  have hcells : ∀ d ∈ (m.data.push c).cells, P.admits d :=
    List.forall_mem_cons.mpr ⟨hc, hP.admits_data h⟩
  refine ⟨trivial, _, ?_, hP.withData h hcells⟩
  rw [push, hP.data h]

theorem carries_pop (hP : OnData P) : P.Carries P.admits pop := by
  intro m m' h
  unfold pop
  rw [hP.data h]
  cases htop : m.data.top? with
  | none => exact Or.inr ⟨m', rfl, h⟩
  | some c =>
      have hcells := hP.admits_data h
      have hc : c ∈ m.data.cells := List.mem_of_head? htop
      exact ⟨hcells c hc, _, rfl, hP.withData h fun d hd => hcells d (List.mem_of_mem_tail hd)⟩

theorem carries_top (hP : OnData P) : P.Carries P.admits top := by
  intro m m' h
  unfold top
  rw [hP.data h]
  cases htop : m.data.top? with
  | none => exact Or.inr ⟨m', rfl, h⟩
  | some c => exact ⟨hP.admits_data h c (List.mem_of_head? htop), m', rfl, h⟩

theorem onTop (hP : OnData P) : OnTop P where
  admits_int := hP.admits_int
  admits_flag := hP.admits_flag
  render := hP.render
  withOutput := hP.withOutput
  carries_push := hP.carries_push
  carries_pop := hP.carries_pop
  carries_top := hP.carries_top

theorem carries_pushInt (hP : OnData P) (n : Int64) : P.Carries (fun _ => True) (push (.int n)) :=
  hP.onTop.carries_pushInt n

theorem carries_displayStack (hP : OnData P) :
    P.Carries (fun _ => True) (Primitive.execute .displayStack) := by
  intro m m' h
  have hrender : m'.render = m.render := funext (hP.render h)
  apply hP.onTop.agrees_print h
  simp only [Primitive.stackLine, hP.data h, hrender]

/-- On the same data stack the primitives that see all of it go the same way, too. -/
theorem carries_whole (hP : OnData P) {p : Primitive} (hp : p.seesWholeStack = true) :
    P.Carries (fun _ => True) p.execute := by
  cases p with
  | clear => exact fun m m' h => ⟨trivial, _, rfl, hP.withData h (by simp)⟩
  | displayStack => exact hP.carries_displayStack
  | _ => cases hp

theorem carries_execute (hP : OnData P) {p : Primitive} (hp : p.isDataWord = true) :
    P.Carries (fun _ => True) p.execute := by
  cases hwhole : p.seesWholeStack with
  | true => exact hP.carries_whole hwhole
  | false => exact hP.onTop.carries_execute hp hwhole

end OnData

namespace OnRest

variable {P : Pairing} {m m' : Machine}

theorem carries_fetch (hP : OnRest P) (a : Nat) : P.Carries P.admits (fetch a) := by
  intro m m' h
  unfold fetch
  cases hcell : m.heap.get? a with
  | none =>
      rcases hP.outside h hcell with hcell' | ⟨hexcused, _⟩
      · rw [hcell']
        exact Or.inr ⟨m', rfl, h⟩
      · exact Or.inl hexcused
  | some c =>
      obtain ⟨hc, hcell'⟩ := hP.get? h hcell
      rw [hcell']
      exact ⟨hc, m', rfl, h⟩

/-- An address of the first heap is one of the second. -/
theorem lt_capacity (hP : OnRest P) (h : P.related m m') {a : Nat} (ha : a < m.heap.capacity) :
    a < m'.heap.capacity := by
  cases hcell : m.heap.get? a with
  | none => exact absurd (Heap.get?_eq_none_iff.mp hcell) (Nat.not_le.mpr ha)
  | some c => exact Heap.lt_capacity_of_get? (hP.get? h hcell).2

theorem carries_store (hP : OnRest P) (a : Nat) {c : Cell} (hc : P.admits c) :
    P.Carries (fun _ => True) (store a c) := by
  intro m m' h
  unfold store
  by_cases ha : a < m.heap.capacity
  · rw [if_pos ha, if_pos (hP.lt_capacity h ha)]
    exact ⟨trivial, _, rfl, hP.withSet h ha hc⟩
  · rw [if_neg ha]
    rcases hP.outside h (Heap.get?_eq_none_iff.mpr (Nat.not_lt.mp ha)) with hcell | ⟨hexcused, _⟩
    · rw [if_neg (Nat.not_lt.mpr (Heap.get?_eq_none_iff.mp hcell))]
      exact Or.inr ⟨m', rfl, h⟩
    · exact Or.inl hexcused

theorem carries_append (hP : OnRest P) {c : Cell} (hc : P.admits c) :
    P.Carries (fun _ => True) (append c) := by
  intro m m' h
  unfold append
  by_cases hroom : m.heap.here < m.heap.capacity
  · have hroom' := hP.lt_capacity h hroom
    rw [← hP.here h] at hroom'
    rw [if_pos hroom, if_pos hroom']
    exact ⟨trivial, _, rfl, hP.withPush h hroom hc⟩
  · rw [if_neg hroom]
    rcases hP.outside h (Heap.get?_eq_none_iff.mpr (Nat.not_lt.mp hroom)) with hcell | ⟨_, hexcused⟩
    · rw [← hP.here h] at hcell
      rw [if_neg (Nat.not_lt.mpr (Heap.get?_eq_none_iff.mp hcell))]
      exact Or.inr ⟨m', rfl, h⟩
    · exact Or.inl hexcused

theorem carries_setIp (hP : OnRest P) (a : Nat) : P.Carries (fun _ => True) (setIp a) :=
  fun _ _ h => ⟨trivial, _, rfl, hP.withIp h⟩

theorem carries_advance (hP : OnRest P) : P.Carries (fun _ => True) advance := by
  intro m m' h
  unfold advance
  rw [hP.ip h]
  exact ⟨trivial, _, rfl, hP.withIp h⟩

theorem carries_fetchHere (hP : OnRest P) : P.Carries P.admits fetchHere := by
  intro m m' h
  unfold fetchHere
  rw [hP.ip h]
  exact hP.carries_fetch m.ip m m' h

theorem carries_jumpBy (hP : OnRest P) (offset : Int64) : P.Carries (fun _ => True) (jumpBy offset) := by
  intro m m' h
  unfold jumpBy
  rw [hP.ip h]
  dsimp only
  split
  · exact ⟨trivial, _, rfl, hP.withIp h⟩
  · exact Or.inr ⟨m', rfl, h⟩

theorem carries_jumpInline (hP : OnRest P) : P.Carries (fun _ => True) Primitive.jumpInline :=
  carries_bind hP.carries_fetchHere fun _ _ =>
    carries_bind (V := fun _ => True) (carries_demand fun _ _ => trivial) fun _ _ => hP.carries_jumpBy _

theorem carries_markLastWord (hP : OnRest P) : P.Carries (fun _ => True) markLastWord := by
  intro m m' h
  unfold markLastWord
  rw [hP.lastWord h]
  cases hname : m.lastWord with
  | none => exact ⟨trivial, m', rfl, h⟩
  | some name => exact ⟨trivial, _, rfl, hP.withImmediate h hname⟩

theorem carries_setMode (hP : OnRest P) (mode : Mode) : P.Carries (fun _ => True) (setMode mode) :=
  fun _ _ h => ⟨trivial, _, rfl, hP.withMode h⟩

theorem agrees_colon (hP : OnRest P) (h : P.related m m') (hallows : P.allows .colon m) :
    P.Agrees (fun _ => True) (Primitive.execute .colon m) (Primitive.execute .colon m') := by
  refine agrees_bind (hP.nextToken h hallows).nextName ?_
  intro name m₁ m₁' _ _ h₁
  refine ⟨trivial, _, rfl, ?_⟩
  rw [hP.here h₁]
  exact hP.withDefinition h₁

theorem carries_fetchOp (hP : OnRest P) : P.Carries (fun op => P.admits (.op op)) fetchOp := by
  apply carries_bind hP.carries_fetchHere
  intro c hc
  apply carries_bind (V := fun op => P.admits (.op op))
  · apply carries_demand
    intro op hop
    cases c with
    | op o =>
        cases hop
        exact hc
    | _ => cases hop
  · exact fun op hop => carries_bind hP.carries_advance fun _ _ => carries_pure hop

end OnRest

namespace OnSteps

variable {P : Pairing} {m m' : Machine}

theorem carries_saveIp (hP : OnSteps P) : P.Carries (fun _ => True) saveIp := by
  intro m m' h
  unfold saveIp
  rw [hP.ip h]
  exact hP.carries_pushReturn (hP.admits_int _) m m' h

theorem carries_restoreIp (hP : OnSteps P) : P.Carries (fun _ => True) restoreIp :=
  carries_bind hP.carries_popReturn fun _ _ =>
    carries_bind (V := fun _ => True) (carries_demand fun _ _ => trivial) fun a _ => hP.carries_setIp a

theorem carries_pushInline (hP : OnSteps P) : P.Carries (fun _ => True) Primitive.pushInline :=
  carries_bind hP.carries_fetchHere fun _ hc =>
    carries_bind hP.carries_advance fun _ _ => hP.carries_push hc

theorem carries_here (hP : OnSteps P) : P.Carries (fun _ => True) (Primitive.execute .here) := by
  intro m m' h
  have hpush := hP.carries_pushInt (Int64.ofNat m.heap.here) m m' h
  change P.Agrees _ (push (Cell.ofAddress m.heap.here) m) (push (Cell.ofAddress m'.heap.here) m')
  rw [hP.here h]
  exact hpush

theorem agrees_words (hP : OnSteps P) (h : P.related m m')
    (hadmits : P.admits (.op (.primitive .words))) :
    P.Agrees (fun _ => True) (Primitive.execute .words m) (Primitive.execute .words m') := by
  apply hP.agrees_print h
  simp only [Primitive.wordsLine, hP.words h hadmits]

/-- The two machines go the same way through a primitive that is admitted and allowed. -/
theorem agrees_execute (hP : OnSteps P) (p : Primitive) (h : P.related m m')
    (hadmits : P.admits (.op (.primitive p))) (hallows : P.allows p m) :
    P.Agrees (fun _ => True) (p.execute m) (p.execute m') := by
  by_cases hp : p.isDataWord = true
  · cases hwhole : p.seesWholeStack with
    | true => exact hP.carries_whole hwhole hadmits m m' h
    | false => exact hP.carries_execute hp hwhole m m' h
  · suffices hcase : P.allows p m → P.Agrees (fun _ => True) (p.execute m) (p.execute m') from
      hcase hallows
    cases p with
    | here => exact fun _ => hP.carries_here m m' h
    | lit => exact fun _ => hP.carries_pushInline m m' h
    | tick => exact fun _ => hP.carries_pushInline m m' h
    | toReturn =>
        exact fun _ => carries_bind hP.carries_pop (fun _ hc => hP.carries_pushReturn hc) m m' h
    | fromReturn =>
        exact fun _ => carries_bind hP.carries_popReturn (fun _ hc => hP.carries_push hc) m m' h
    | loopIndex =>
        exact fun _ => carries_bind (hP.carries_peekReturn 0) (fun _ hc => hP.carries_push hc) m m' h
    | loopLimit =>
        exact fun _ => carries_bind (hP.carries_peekReturn 1) (fun _ hc => hP.carries_push hc) m m' h
    | comma => exact fun _ => carries_bind hP.carries_pop (fun _ hc => hP.carries_append hc) m m' h
    | store =>
        exact fun _ => carries_bind hP.carries_popAddress
          (fun a _ => carries_bind hP.carries_pop fun _ hc => hP.carries_store a hc) m m' h
    | fetch =>
        exact fun _ => carries_bind hP.carries_popAddress
          (fun a _ => carries_bind (hP.carries_fetch a) fun _ hc => hP.carries_push hc) m m' h
    | immediate => exact fun _ => hP.carries_markLastWord m m' h
    | words => exact fun _ => hP.agrees_words h hadmits
    | jumpIfFalse =>
        intro _
        refine carries_bind (W := fun _ => True) hP.carries_popFlag ?_ m m' h
        intro b _
        cases b with
        | false => exact hP.carries_jumpInline
        | true => exact hP.carries_advance
    | jump => exact fun _ => hP.carries_jumpInline m m' h
    | colon => exact hP.agrees_colon h
    | semicolon =>
        exact fun _ => carries_bind (hP.carries_append hP.admits_exit)
          (fun _ _ => hP.carries_setMode _) m m' h
    | comment => exact fun hallows => ⟨trivial, _, rfl, hP.comment h hallows⟩
    | _ => exact absurd rfl hp

/-- One step.  Only the primitive that it comes to execute has to be allowed. -/
theorem agrees_step (hP : OnSteps P) (nested : Nat) (h : P.related m m')
    (hallows : ∀ p m₁, fetchOp m = .ok (.primitive p) m₁ → P.allows p m₁) :
    P.Agrees (fun _ => True) (step nested m) (step nested m') := by
  refine agrees_bind (hP.carries_fetchOp m m' h) ?_
  intro op m₁ m₁' hfetch hadmits h₁
  cases op with
  | primitive p =>
      refine agrees_bind (hP.agrees_execute p h₁ hadmits (hallows p m₁ hfetch)) ?_
      exact fun _ _ _ _ _ h₂ => carries_pure trivial _ _ h₂
  | body address =>
      exact carries_bind hP.carries_saveIp (fun _ _ => carries_bind (hP.carries_setIp address) fun _ _ =>
        carries_pure trivial) m₁ m₁' h₁
  | exit =>
      cases nested with
      | zero => exact carries_pure trivial m₁ m₁' h₁
      | succ outer =>
          exact carries_bind hP.carries_restoreIp (fun _ _ => carries_pure trivial) m₁ m₁' h₁

theorem answers_thread (hP : OnSteps P) (fuel : Nat) {nested : Nat} (h : P.related m m')
    (hallows : ∀ p m₁, ThreadExecutes nested m p m₁ → P.allows p m₁) :
    P.Answers (thread fuel nested m) (thread fuel nested m') := by
  induction fuel generalizing nested m m' with
  | zero => rfl
  | succ fuel ih =>
      have hstep := hP.agrees_step nested h fun p m₁ hfetch => hallows p m₁ (.here hfetch)
      refine answers_bind (answers_lift hstep) ?_
      intro turn m₁ m₁' hturn h₁
      cases turn with
      | finished => exact ⟨m₁', rfl, h₁⟩
      | more nested₁ =>
          exact ih h₁ fun p m₂ hlater => hallows p m₂ (.later (Option.some.inj hturn) hlater)

theorem answers_run (hP : OnSteps P) (fuel address : Nat) (h : P.related m m')
    (hallows : ∀ p m₁, ThreadExecutes 0 { m with ip := address } p m₁ → P.allows p m₁) :
    P.Answers (run fuel address m) (run fuel address m') := by
  refine answers_bind (answers_lift (hP.carries_setIp address m m' h)) ?_
  intro _ m₁ m₁' hset h₁
  cases hset
  exact hP.answers_thread fuel h₁ hallows

/-- A call.  The operation itself has to be admitted, and what it comes to execute allowed. -/
theorem answers_call (hP : OnSteps P) (fuel : Nat) {op : Op} (h : P.related m m')
    (hadmits : P.admits (.op op)) (hallows : ∀ p m₁, CallExecutes m op p m₁ → P.allows p m₁) :
    P.Answers (call fuel op m) (call fuel op m') := by
  cases op with
  | primitive p => exact answers_lift (hP.agrees_execute p h hadmits (hallows p m .primitive))
  | body address =>
      refine answers_bind (answers_lift (hP.carries_saveIp m m' h)) ?_
      intro _ m₁ m₁' hsave h₁
      have hbody := hP.answers_run fuel address h₁ fun p m₂ hp =>
        hallows p m₂ (.body (Option.some.inj hsave) hp)
      refine answers_bind hbody ?_
      exact fun _ m₂ m₂' _ h₂ => answers_lift (hP.carries_restoreIp m₂ m₂' h₂)
  | exit => exact ⟨m', rfl, h⟩

end OnSteps

namespace OnCode

variable {P : Pairing} {m m' : Machine}

theorem carries_pushReturn (hP : OnCode P) {c : Cell} (hc : P.admits c) :
    P.Carries (fun _ => True) (pushReturn c) := by
  intro m m' h
  have hcells : ∀ d ∈ (m.returns.push c).cells, P.admits d :=
    List.forall_mem_cons.mpr ⟨hc, hP.admits_returns h⟩
  unfold pushReturn
  rw [hP.returns h]
  by_cases hroom : m.returns.depth < m.returnLimit
  · have hroom' : m.returns.depth < m'.returnLimit := by
      rcases hP.returnLimit h with hlimit | ⟨hlimit, _⟩ <;> omega
    rw [if_pos hroom, if_pos hroom']
    exact ⟨trivial, _, rfl, hP.withReturns h hcells⟩
  · rw [if_neg hroom]
    rcases hP.returnLimit h with hlimit | ⟨_, hexcused⟩
    · rw [hlimit, if_neg hroom]
      exact Or.inr ⟨m', rfl, h⟩
    · exact Or.inl hexcused

theorem carries_popReturn (hP : OnCode P) : P.Carries P.admits popReturn := by
  intro m m' h
  unfold popReturn
  rw [hP.returns h]
  cases htop : m.returns.top? with
  | none => exact Or.inr ⟨m', rfl, h⟩
  | some c =>
      have hcells := hP.admits_returns h
      have hc : c ∈ m.returns.cells := List.mem_of_head? htop
      exact ⟨hcells c hc, _, rfl, hP.withReturns h fun d hd => hcells d (List.mem_of_mem_tail hd)⟩

theorem carries_peekReturn (hP : OnCode P) (distance : Nat) :
    P.Carries P.admits (peekReturn distance) := by
  intro m m' h
  unfold peekReturn
  rw [hP.returns h]
  cases hpeek : m.returns.peek? distance with
  | none => exact Or.inr ⟨m', rfl, h⟩
  | some c => exact ⟨hP.admits_returns h c (List.mem_of_getElem? hpeek), m', rfl, h⟩

theorem onSteps (hP : OnCode P) : OnSteps P where
  toOnTop := hP.toOnData.onTop
  toOnRest := hP.toOnRest
  carries_whole hp _ := hP.toOnData.carries_whole hp
  carries_pushReturn := hP.carries_pushReturn
  carries_popReturn := hP.carries_popReturn
  carries_peekReturn := hP.carries_peekReturn

theorem answers_call (hP : OnCode P) (fuel : Nat) {op : Op} (h : P.related m m')
    (hadmits : P.admits (.op op)) (hallows : ∀ p m₁, CallExecutes m op p m₁ → P.allows p m₁) :
    P.Answers (call fuel op m) (call fuel op m') :=
  hP.onSteps.answers_call fuel h hadmits hallows

end OnCode

/-- The relation bears all that reading a word leads to: the two machines have one dictionary. -/
structure OnReading (P : Pairing) : Prop extends OnSteps P where
  admits_lit : P.admits (.op (.primitive .lit))
  mode : ∀ {m m'}, P.related m m' → m'.mode = m.mode
  dictionary : ∀ {m m'}, P.related m m' → m'.dictionary = m.dictionary

namespace OnReading

variable {P : Pairing} {m m' : Machine}

theorem carries_number (word : String) : P.Carries (fun _ => True) (number word) := by
  unfold number
  cases Numeral.int64? word with
  | none => exact carries_throw _
  | some n => exact carries_pure trivial

/-- A word is dispatched.  What it stands for has to be admitted, and what it comes to execute
allowed. -/
theorem answers_dispatch (hP : OnReading P) (fuel : Nat) {word : String} (h : P.related m m')
    (hadmits : ∀ op, m.dictionary.find? word = some op → P.admits (.op op))
    (hallows : ∀ p m₁, DispatchExecutes m word p m₁ → P.allows p m₁) :
    P.Answers (dispatch fuel word m) (dispatch fuel word m') := by
  have hnumber := answers_lift (carries_number word m m' h)
  have happend : ∀ c m₁ m₁', P.admits c → P.related m₁ m₁' →
      P.Answers ((liftM (append c) : Run Unit) m₁) ((liftM (append c) : Run Unit) m₁') :=
    fun c m₁ m₁' hc h₁ => answers_lift (hP.carries_append hc m₁ m₁' h₁)
  have hcall : ∀ {op}, m.dictionary.find? word = some op →
      (m.mode = .interpret ∨ m.dictionary.isImmediate word = true) →
        P.Answers (call fuel op m) (call fuel op m') :=
    fun hfind hexecute => hP.answers_call fuel h (hadmits _ hfind) fun p m₁ hp =>
      hallows p m₁ ⟨_, hfind, hexecute, hp⟩
  rw [dispatch_apply, dispatch_apply, hP.mode h, hP.dictionary h]
  cases hmode : m.mode with
  | interpret =>
      cases hfind : m.dictionary.find? word with
      | none =>
          refine answers_bind hnumber ?_
          exact fun n m₁ m₁' _ h₁ => answers_lift (hP.carries_pushInt n m₁ m₁' h₁)
      | some op => exact hcall hfind (Or.inl hmode)
  | compile =>
      cases hfind : m.dictionary.find? word with
      | none =>
          refine answers_bind hnumber fun n m₁ m₁' _ h₁ => ?_
          refine answers_bind (happend _ m₁ m₁' hP.admits_lit h₁) fun _ m₂ m₂' _ h₂ => ?_
          exact happend _ m₂ m₂' (hP.admits_int n) h₂
      | some op =>
          by_cases himmediate : m.dictionary.isImmediate word = true
          · simp only [himmediate, ↓reduceIte]
            exact hcall hfind (Or.inr himmediate)
          · simp only [himmediate]
            exact happend _ m m' (hadmits op hfind) h

/-- A source is read to its end.  What its words stand for has to be admitted wherever they are met. -/
theorem answers_build (hP : OnReading P) (fuel : Nat) (hallows : ∀ p m, P.allows p m)
    (hadmits : ∀ {m m' token m₁ op}, P.related m m' → nextToken m = .ok (some token) m₁ →
      m₁.dictionary.find? token.text = some op → P.admits (.op op)) (h : P.related m m') :
    P.Answers (build fuel m) (build fuel m') := by
  induction fuel generalizing m m' with
  | zero => rfl
  | succ fuel ih =>
      rw [build]
      rcases hP.nextToken h (hallows .colon m) with ⟨m₁, m₁', hnext, hnext', h₁⟩ |
        ⟨token, token', m₁, m₁', hnext, hnext', htext, h₁⟩
      · rw [Run.bind_of_ok (congrArg some hnext), Run.bind_of_ok (congrArg some hnext')]
        exact ⟨m₁', rfl, h₁⟩
      · rw [Run.bind_of_ok (congrArg some hnext), Run.bind_of_ok (congrArg some hnext')]
        dsimp only
        rw [htext]
        have hword := hP.answers_dispatch fuel h₁ (fun _ hfind => hadmits h hnext hfind)
          fun p m₂ _ => hallows p m₂
        exact answers_bind hword fun _ m₂ m₂' _ h₂ => ih h₂

end OnReading

/-- The relation bears all that reading a word leads to: the two machines have the same stacks and one
dictionary, and any cell may be compiled. -/
structure OnWords (P : Pairing) : Prop extends OnCode P where
  admits_all : ∀ c, P.admits c
  mode : ∀ {m m'}, P.related m m' → m'.mode = m.mode
  dictionary : ∀ {m m'}, P.related m m' → m'.dictionary = m.dictionary

theorem OnWords.onReading {P : Pairing} (hP : OnWords P) : OnReading P where
  toOnSteps := hP.onSteps
  admits_lit := hP.admits_all _
  mode := hP.mode
  dictionary := hP.dictionary

theorem OnWords.answers_dispatch {P : Pairing} (hP : OnWords P) (fuel : Nat) (word : String)
    {m m' : Machine} (h : P.related m m')
    (hallows : ∀ p m₁, DispatchExecutes m word p m₁ → P.allows p m₁) :
    P.Answers (dispatch fuel word m) (dispatch fuel word m') :=
  hP.onReading.answers_dispatch fuel h (fun _ _ => hP.admits_all _) hallows

/-- The relation bears all that reading a text leads to: words may be read anywhere. -/
structure OnText (P : Pairing) : Prop extends OnWords P where
  allows_all : ∀ p m, P.allows p m

theorem OnText.answers_build {P : Pairing} (hP : OnText P) (fuel : Nat) {m m' : Machine}
    (h : P.related m m') : P.Answers (build fuel m) (build fuel m') :=
  hP.onReading.answers_build fuel hP.allows_all (fun _ _ _ => hP.admits_all _) h

/-! ### Machines that differ in what they read and print -/

/-- The two machines differ in the sources they read and in what they have printed at most, and nothing
else decides on whether they are related. -/
structure OnStreams (P : Pairing) : Prop where
  admits_all : ∀ c, P.admits c
  same : ∀ {m m'}, P.related m m' → m' = { m with source := m'.source, output := m'.output }
  moves : ∀ {m m' m₁}, P.related m m' → m₁.source = m.source → m₁.output = m.output →
    P.related m₁ { m₁ with source := m'.source, output := m'.output }
  withOutput : ∀ {m m' e}, P.related m m' →
    P.related { m with output := e :: m.output } { m' with output := e :: m'.output }
  nextToken : ∀ {m m'}, P.related m m' → P.allows .colon m → P.ReadsAlike m m'
  comment : ∀ {m m'}, P.related m m' → P.allows .comment m → P.related
    { m with source := m.source.map (Source.skipPast ")") }
    { m' with source := m'.source.map (Source.skipPast ")") }

namespace OnStreams

variable {P : Pairing} {m m' : Machine}

/-- What does not depend on the streams is the same in both machines. -/
theorem view (hP : OnStreams P) (h : P.related m m') {γ : Type} (f : Machine → γ)
    (hf : ∀ m source output, f { m with source := source, output := output } = f m) : f m' = f m := by
  rw [hP.same h]
  exact hf m m'.source m'.output

/-- A change of the machine that neither depends on the streams nor touches them is borne. -/
theorem map (hP : OnStreams P) (h : P.related m m') (f : Machine → Machine)
    (hf : ∀ m source output, f { m with source := source, output := output } =
      { f m with source := source, output := output }) :
    P.related (f m) (f m') := by
  have hm : f m = { f m with source := m.source, output := m.output } := hf m m.source m.output
  have hm' : f m' = { f m with source := m'.source, output := m'.output } := by
    rw [hP.same h]
    exact hf m m'.source m'.output
  rw [hm']
  exact hP.moves h (by rw [hm]) (by rw [hm])

/-- All that words lead to, other than reading on and printing, is such a change. -/
theorem onWords (hP : OnStreams P) : OnWords P where
  admits_int _ := hP.admits_all _
  admits_flag _ := hP.admits_all _
  admits_data _ _ _ := hP.admits_all _
  data h := hP.view h Machine.data fun _ _ _ => rfl
  render h c := hP.view h (fun m => m.render c) fun _ _ _ => rfl
  withData := by
    intro m m' s h _
    exact hP.map h (fun m => { m with data := s }) fun _ _ _ => rfl
  withOutput := hP.withOutput
  admits_exit := hP.admits_all _
  ip h := hP.view h Machine.ip fun _ _ _ => rfl
  withIp := by
    intro m m' a h
    exact hP.map h (fun m => { m with ip := a }) fun _ _ _ => rfl
  admits_returns _ _ _ := hP.admits_all _
  returns h := hP.view h Machine.returns fun _ _ _ => rfl
  withReturns := by
    intro m m' s h _
    exact hP.map h (fun m => { m with returns := s }) fun _ _ _ => rfl
  returnLimit h := Or.inl (hP.view h Machine.returnLimit fun _ _ _ => rfl)
  here h := hP.view h (fun m => m.heap.here) fun _ _ _ => rfl
  get? := by
    intro m m' a c h hcell
    exact ⟨hP.admits_all c, (hP.view h (fun m => m.heap.get? a) fun _ _ _ => rfl).trans hcell⟩
  outside := by
    intro m m' a h hcell
    exact Or.inl ((hP.view h (fun m => m.heap.get? a) fun _ _ _ => rfl).trans hcell)
  withSet := by
    intro m m' a c h _ _
    exact hP.map h (fun m => { m with heap := m.heap.set a c }) fun _ _ _ => rfl
  withPush := by
    intro m m' c h _ _
    exact hP.map h (fun m => { m with heap := m.heap.push c }) fun _ _ _ => rfl
  lastWord h := hP.view h Machine.lastWord fun _ _ _ => rfl
  withImmediate := by
    intro m m' name h _
    exact hP.map h (fun m => { m with dictionary := m.dictionary.markImmediate name }) fun _ _ _ => rfl
  withDefinition := by
    intro m m' name h
    let f (m₁ : Machine) : Machine :=
      { m₁ with
        dictionary := m₁.dictionary.define name (.body m.heap.here)
        lastWord := some name
        mode := .compile }
    exact hP.map h f fun _ _ _ => rfl
  withMode := by
    intro m m' mode h
    exact hP.map h (fun m => { m with mode := mode }) fun _ _ _ => rfl
  words h _ := hP.view h (fun m => m.dictionary.words) fun _ _ _ => rfl
  nextToken := hP.nextToken
  comment := hP.comment
  admits_all := hP.admits_all
  mode h := hP.view h Machine.mode fun _ _ _ => rfl
  dictionary h := hP.view h Machine.dictionary fun _ _ _ => rfl

end OnStreams

end Pairing

end Forth

/-
How far the instruction pointer can go.  No evaluation resets it, and a call keeps it in a cell, where
only addresses below 2 ^ 63 survive.  Jumps are checked against that bound and code ends with the heap, so
one word alone can lead beyond: the conditional branch, executed by itself on a flag that is true.
-/
import Mathlib.Algebra.Group.Nat.Defs
import Forth.Proofs.Concatenation
import Forth.Proofs.Provenance
import Forth.Proofs.Structured.Booted

namespace Forth

open Machine Run

namespace Cell

variable {c : Cell} {a : Nat}

/-- What is read back as an address fits a cell. -/
theorem lt_addressLimit_of_toAddress (h : c.toAddress = .ok a) : a < addressLimit := by
  unfold toAddress at h
  split at h
  · rename_i n _
    split at h
    · cases h
    · cases h
      have hbound := n.toInt_lt
      simp only [Int64.toNatClampNeg, addressLimit]
      omega
  · cases h

/-- From the limit on, an address becomes negative in its cell. -/
theorem toAddress_ofAddress_of_le (hlow : addressLimit ≤ a) (hhigh : a < 2 ^ 64) :
    (ofAddress a).toAddress = .error .invalidAddress := by
  have hnegative : Int64.ofNat a < 0 := by
    unfold addressLimit at hlow
    have hwrapped : (Int64.ofNat a).toInt = (a : Int) - 2 ^ 64 := by
      rw [Int64.toInt_ofNat', Int.bmod_def, Int64.size]
      omega
    rw [Int64.lt_iff_toInt_lt, hwrapped]
    change (a : Int) - 2 ^ 64 < 0
    omega
  simp [toAddress, ofAddress, toInt, hnegative]

/-- If the cell is a body, it begins where a cell can tell. -/
def Enterable (c : Cell) : Prop :=
  ∀ a, c = .op (.body a) → a < addressLimit

/-- Execution makes no bodies. -/
theorem onSteps_enterable : Pairing.OnSteps (Pairing.holding Enterable) :=
  (Pairing.onCode_holding (fun n a h => by cases h) (fun b a h => by cases h) fun a h => by cases h).onSteps

end Cell

namespace Machine

variable {m m₁ : Machine} {op : Op} {p : Primitive}

/-! ### A call around a run -/

/-- A call of a body of which the run is known: what is left to do is to take the return address. -/
theorem reaches_call_of_run {a : Nat} {r : Outcome Unit} (hroom : m.returns.depth < m.returnLimit)
    (hrun : Reaches (fun fuel => run fuel a)
      { m with returns := m.returns.push (Cell.ofAddress m.ip) } (.ok () m₁))
    (hrestore : restoreIp m₁ = r) : Reaches (fun fuel => call fuel (.body a)) m r := by
  have hbehind : Reaches (fun fuel => run fuel a >>= fun _ => (liftM restoreIp : Run Unit))
      { m with returns := m.returns.push (Cell.ofAddress m.ip) } r :=
    Reaches.bind_ok (run_steady a) (Steady.const _) hrun (reaches_lift_iff.mpr hrestore)
  obtain ⟨fuel, hfuel⟩ := hbehind
  have hsave : (liftM saveIp : Run Unit) m =
      some (.ok () { m with returns := m.returns.push (Cell.ofAddress m.ip) }) := by
    rw [Run.lift_apply, saveIp_of_room hroom]
  exact ⟨fuel, (Run.bind_of_ok hsave).trans hfuel⟩

/-- A return address from the limit on is taken and refused. -/
theorem restoreIp_of_le {a : Nat} {rest : Stack} (hlow : Cell.addressLimit ≤ a) (hhigh : a < 2 ^ 64)
    (h : m.returns = rest.push (Cell.ofAddress a)) :
    restoreIp m = .error .invalidAddress { m with returns := rest } := by
  rw [restoreIp_of_push h, Cell.toAddress_ofAddress_of_le hlow hhigh]

/-! ### One primitive -/

/-- Instruction pointer and heap are of a size that cells can tell.  An operation in the last cell of the
heap is passed, and so is the offset behind it: the heap ends two addresses earlier. -/
structure Addressable (m : Machine) : Prop where
  ip : m.ip < Cell.addressLimit
  capacity : m.heap.capacity + 1 < Cell.addressLimit

/-- The conditional branch would pass its offset, and leave an instruction pointer that no cell tells. -/
def Overruns (m : Machine) : Prop :=
  m.data.top? = some (.flag true) ∧ Cell.addressLimit ≤ m.ip + 1

/-- What executing must not lose. -/
def StaysAddressable (m m' : Machine) : Prop :=
  m.Addressable → m'.Addressable

theorem staysAddressable_stationary : Stationary StaysAddressable where
  refl _ := id
  trans h h' hm := h' (h hm)
  data _ _ h := ⟨h.ip, h.capacity⟩
  pushReturn _ _ _ h := ⟨h.ip, h.capacity⟩
  popReturn _ h := ⟨h.ip, h.capacity⟩
  store m a c h := ⟨h.ip, Heap.capacity_set m.heap a c ▸ h.capacity⟩
  append m c _ h := ⟨h.ip, Heap.capacity_push m.heap c ▸ h.capacity⟩
  markImmediate _ _ h := ⟨h.ip, h.capacity⟩
  beginDefinition _ _ h := ⟨h.ip, h.capacity⟩
  mode _ _ h := ⟨h.ip, h.capacity⟩
  source _ _ _ _ h := ⟨h.ip, h.capacity⟩
  output _ _ h := ⟨h.ip, h.capacity⟩

namespace StaysAddressable

theorem keeps_setIp {a : Nat} (ha : a < Cell.addressLimit) :
    Action.Keeps StaysAddressable (setIp a) :=
  fun _ h => ⟨ha, h.capacity⟩

/-- A return address comes out of a cell, whatever a program has put there. -/
theorem keeps_restoreIp : Action.Keeps StaysAddressable restoreIp := by
  apply staysAddressable_stationary.keeps_bind staysAddressable_stationary.keeps_popReturn
  intro c
  cases haddress : c.toAddress with
  | ok a => exact keeps_setIp (Cell.lt_addressLimit_of_toAddress haddress)
  | error e => exact staysAddressable_stationary.keeps_throw e

/-- A jump is refused if it leads out of what a cell can tell. -/
theorem keeps_jumpBy (offset : Int64) : Action.Keeps StaysAddressable (jumpBy offset) := by
  intro m
  unfold jumpBy
  dsimp only
  split
  · have hbelow : ((Int64.ofNat m.ip).toInt + offset.toInt).toNat < Cell.addressLimit := by
      unfold Cell.addressLimit
      omega
    exact fun h => ⟨hbelow, h.capacity⟩
  · exact id

theorem keeps_jumpInline : Action.Keeps StaysAddressable Primitive.jumpInline :=
  staysAddressable_stationary.keeps_bind staysAddressable_stationary.keeps_fetchHere fun _ =>
    staysAddressable_stationary.keeps_bind (staysAddressable_stationary.keeps_demand _) fun _ =>
      keeps_jumpBy _

end StaysAddressable

variable {m m₁ : Machine} {op : Op} {p : Primitive} {r : Outcome Unit} {fuel nested : Nat}

theorem Addressable.with_source (h : m.Addressable) (source : Option Source)
    (failure : Option Failure) : { m with source := source, lastError := failure }.Addressable :=
  ⟨h.ip, h.capacity⟩

/-- A cell that is there can be passed. -/
theorem Addressable.passing (h : m.Addressable) {c : Cell} (hcell : m.heap.get? m.ip = some c) :
    { m with ip := m.ip + 1 }.Addressable where
  ip := Nat.lt_of_le_of_lt (Heap.lt_capacity_of_get? hcell) (Nat.lt_of_succ_lt h.capacity)
  capacity := h.capacity

theorem Addressable.pushInline (h : m.Addressable) :
    (Outcome.machine (Primitive.pushInline m)).Addressable := by
  cases hcell : m.heap.get? m.ip with
  | none =>
      rw [pushInline_of_none hcell]
      exact h
  | some c =>
      rw [pushInline_of_get? hcell]
      exact ⟨(h.passing hcell).ip, h.capacity⟩

theorem Addressable.jumpIfFalse (h : m.Addressable) (hwithin : ¬ m.Overruns) :
    (Outcome.machine (Primitive.execute .jumpIfFalse m)).Addressable := by
  rcases popFlag_cases m with ⟨b, s, hpop⟩ | ⟨e, s, hpop⟩
  · rw [jumpIfFalse_of_popFlag_ok hpop]
    cases b with
    | false => exact StaysAddressable.keeps_jumpInline _ ⟨h.ip, h.capacity⟩
    | true =>
        have htop := top?_of_popFlag_ok hpop
        have hbelow : m.ip + 1 < Cell.addressLimit :=
          Nat.lt_of_not_le fun hle => hwithin ⟨htop, hle⟩
        exact ⟨hbelow, h.capacity⟩
  · rw [jumpIfFalse_of_popFlag_error hpop]
    exact ⟨h.ip, h.capacity⟩

/-- One primitive. -/
theorem Addressable.execute (h : m.Addressable) (hwithin : p = .jumpIfFalse → ¬ m.Overruns) :
    (Outcome.machine (p.execute m)).Addressable := by
  by_cases hp : p.isStationary = true
  · exact staysAddressable_stationary.keeps_execute hp m h
  · cases p with
    | lit => exact h.pushInline
    | tick => exact h.pushInline
    | jump => exact StaysAddressable.keeps_jumpInline m h
    | jumpIfFalse => exact h.jumpIfFalse (hwithin rfl)
    | _ => exact absurd rfl hp

/-! ### Threaded code -/

/-- One step.  An operation in the heap leaves room for the offset behind it. -/
theorem Addressable.step (h : m.Addressable) (hcells : m.HoldsOnly Cell.Enterable) (nested : Nat) :
    (Outcome.machine (step nested m)).Addressable := by
  rcases fetchOp_cases m with ⟨op, hcell⟩ | ⟨e, hfetch⟩
  · have hpassed := h.passing hcell
    change (Outcome.machine (EStateM.bind fetchOp _ m)).Addressable
    rw [EStateM.bind, fetchOp_of_get? hcell]
    cases op with
    | primitive p =>
        -- the operation itself is in the heap, so its offset is at most one address behind the end
        have hwithin : ¬ Overruns { m with ip := m.ip + 1 } := by
          rintro ⟨_, hle⟩
          have hover : Cell.addressLimit ≤ m.ip + 1 + 1 := hle
          have hroom := Heap.lt_capacity_of_get? hcell
          have hcapacity := h.capacity
          omega
        have hexecute := hpassed.execute (p := p) fun _ => hwithin
        exact (Outcome.machine_bind_pure (f := fun _ => Turn.more nested)) ▸ hexecute
    | body a =>
        have ha := hcells.heap _ (Array.mem_of_getElem? hcell) a rfl
        exact staysAddressable_stationary.keeps_bind staysAddressable_stationary.keeps_saveIp
          (fun _ => staysAddressable_stationary.keeps_bind (StaysAddressable.keeps_setIp ha) fun _ =>
            staysAddressable_stationary.keeps_pure _) _ hpassed
    | exit =>
        cases nested with
        | zero => exact hpassed
        | succ outer =>
            exact staysAddressable_stationary.keeps_bind StaysAddressable.keeps_restoreIp
              (fun _ => staysAddressable_stationary.keeps_pure _) _ hpassed
  · change (Outcome.machine (EStateM.bind fetchOp _ m)).Addressable
    rw [EStateM.bind, hfetch]
    exact h

/-- The loop.  Execution makes no bodies, so those in the cells stay what they were. -/
theorem Addressable.thread (h : m.Addressable) (hcells : m.HoldsOnly Cell.Enterable)
    (hr : thread fuel nested m = some r) : (Outcome.machine r).Addressable := by
  induction fuel generalizing nested m with
  | zero => cases hr
  | succ fuel ih =>
      have hstep := h.step hcells nested
      have hholds := Pairing.holdsOnly_of_agrees
        (Cell.onSteps_enterable.agrees_step nested ⟨hcells, rfl⟩ fun _ _ _ => trivial)
      rcases of_lift_bind_eq_some hr with ⟨turn, m₁, hturn, hrest⟩ | ⟨e, m₁, hturn, rfl⟩
      · rw [hturn] at hstep hholds
        cases turn with
        | finished =>
            cases hrest
            exact hstep
        | more nested₁ => exact ih hstep hholds hrest
      · rw [hturn] at hstep
        exact hstep

theorem Addressable.run (h : m.Addressable) (hcells : m.HoldsOnly Cell.Enterable) {a : Nat}
    (ha : a < Cell.addressLimit) (hr : run fuel a m = some r) : (Outcome.machine r).Addressable :=
  thread (m := { m with ip := a }) ⟨ha, h.capacity⟩ ⟨hcells.data, hcells.returns, hcells.heap⟩ hr

/-- A call.  Only a conditional branch that is called by itself can go too far. -/
theorem Addressable.call (h : m.Addressable) (hcells : m.HoldsOnly Cell.Enterable)
    (hop : Cell.Enterable (.op op)) (hwithin : op = .primitive .jumpIfFalse → ¬ m.Overruns)
    (hr : call fuel op m = some r) : (Outcome.machine r).Addressable := by
  cases op with
  | primitive p =>
      cases hr
      exact h.execute fun hp => hwithin (congrArg Op.primitive hp)
  | body a =>
      have hsaved := staysAddressable_stationary.keeps_saveIp m h
      have hholds := Pairing.holdsOnly_of_agrees
        (Cell.onSteps_enterable.carries_saveIp m m ⟨hcells, rfl⟩)
      rcases of_lift_bind_eq_some hr with ⟨_, m₁, hsave, hrest⟩ | ⟨e, m₁, hsave, rfl⟩
      · rw [hsave] at hsaved hholds
        rcases of_bind_eq_some hrest with ⟨_, m₂, hrun, hrestore⟩ | ⟨e, m₂, hrun, rfl⟩
        · cases hrestore
          exact StaysAddressable.keeps_restoreIp m₂ (hsaved.run hholds (hop a rfl) hrun)
        · exact hsaved.run hholds (hop a rfl) hrun
      · rw [hsave] at hsaved
        exact hsaved
  | exit =>
      cases hr
      exact h

/-! ### Reading a text -/

/-- A body that is listed begins within the heap. -/
theorem Attests.enterable {c : Cell} (hc : m.Attests c) (h : m.Addressable) (hsound : m.Sound) :
    c.Enterable := by
  intro a hbody
  have hbegun := (hc (.body a) hbody).begun a rfl
  have hfilled := hsound.here_le
  have hcapacity := h.capacity
  omega

/-- One word. -/
theorem Addressable.dispatch (h : m.Addressable) (hgenuine : m.Genuine) (hsound : m.Sound) {word : String}
    (hwithin : ∀ m₁, DispatchExecutes m word .jumpIfFalse m₁ → ¬ m₁.Overruns)
    (hr : dispatch fuel word m = some r) : (Outcome.machine r).Addressable := by
  rcases staysAddressable_stationary.of_dispatch hr with hordinary | ⟨op, hfind, hexecute, hcall⟩
  · exact hordinary h
  · have hcells := hgenuine.cells.mono fun c hc => hc.enterable h hsound
    have hop := (hgenuine.attests_find? hfind).enterable h hsound
    refine h.call hcells hop ?_ hcall
    rintro rfl
    exact hwithin m ⟨_, hfind, hexecute, .primitive⟩

/-- A text, as long as no word of it goes too far. -/
theorem Addressable.build (h : m.Addressable) (hgenuine : m.Genuine) (hsound : m.Sound)
    (hwithin : ∀ m₁, BuildExecutes m .jumpIfFalse m₁ → ¬ m₁.Overruns)
    (hr : build fuel m = some r) : (Outcome.machine r).Addressable := by
  induction fuel generalizing m with
  | zero => cases hr
  | succ fuel ih =>
      have hread := staysAddressable_stationary.keeps_nextToken m h
      have hreads := hgenuine.nextToken
      have hsounds := (evolves_elementary.keeps_nextToken m).sound hsound
      rw [Machine.build] at hr
      rcases of_lift_bind_eq_some hr with ⟨token, m₁, hnext, hrest⟩ | ⟨e, m₁, hnext, rfl⟩
      · rw [hnext] at hread hreads hsounds
        cases token with
        | none =>
            cases hrest
            exact hread
        | some token =>
            have hhere : ∀ m₂, DispatchExecutes m₁ token.text .jumpIfFalse m₂ → ¬ m₂.Overruns :=
              fun m₂ hexecutes => hwithin m₂ (.here hnext hexecutes)
            rcases of_bind_eq_some hrest with ⟨_, m₂, hword, hrest⟩ | ⟨e, m₂, hword, rfl⟩
            · have hevolves := evolves_elementary.keeps_dispatch fuel token.text m₁ _ hword
              refine ih (dispatch hread hreads hsounds hhere hword) (hreads.dispatch hword)
                (hevolves.sound hsounds) ?_ hrest
              exact fun m₃ hlater => hwithin m₃ (.later hnext ⟨fuel, hword⟩ hlater)
            · exact dispatch hread hreads hsounds hhere hword
      · rw [hnext] at hread
        exact hread

theorem Addressable.evalSource (h : m.Addressable) (hgenuine : m.Genuine) (hsound : m.Sound)
    {source : Source}
    (hwithin : ∀ m₁, BuildExecutes { m with source := some source } .jumpIfFalse m₁ → ¬ m₁.Overruns)
    (hr : evalSource fuel source m = some r) : (Outcome.machine r).Addressable := by
  rw [evalSource_eq] at hr
  obtain ⟨r₀, hr₀, rfl⟩ := Option.map_eq_some_iff.mp hr
  have hend := (h.with_source (some source) m.lastError).build (hgenuine.with_source _ _)
    ⟨hsound.here_le, hsound.immediates, hsound.lastWord⟩ hwithin hr₀
  cases r₀ with
  | ok _ m₁ => exact hend.with_source m.source m₁.lastError
  | error e m₁ => exact hend.with_source m.source _

/-! ### A session -/

/-- The library is read with the instruction pointer at the start of the heap. -/
theorem Addressable.of_boot {capacity : Nat} (hroom : 185 ≤ capacity)
    (h : boot fuel capacity = some (.ok () m)) : m.Addressable := by
  have hfits := (boot_eq_some_iff.mp h).1
  obtain ⟨fuel', hboot⟩ := reaches_boot hroom hfits
  rw [boot_unique h hboot]
  have hcapacity : capacity + 1 < Cell.addressLimit :=
    Nat.lt_of_le_of_lt (Nat.succ_le_succ hfits) (by decide)
  have hip : (booted capacity).ip < Cell.addressLimit := Nat.zero_lt_of_lt hcapacity
  exact ⟨hip, (capacity_booted capacity).symm ▸ hcapacity⟩

/-- The text, read on the machine, comes to a conditional branch that goes too far. -/
def TextOverruns (m : Machine) (text : String) : Prop :=
  ∃ m₁, BuildExecutes { m with source := some (Source.ofChars bufferName text.toList) } .jumpIfFalse m₁ ∧
    m₁.Overruns

end Machine

/-- One of the evaluations that lead from a machine to another has come to a conditional branch that goes
too far. -/
def Overran (m₀ m : Machine) : Prop :=
  ∃ (m₁ : Machine) (text : String) (fuel : Nat) (r : Outcome Unit), Evaluated m₀ m₁ ∧
    eval fuel text m₁ = some r ∧ m₁.TextOverruns text ∧ Evaluated (Outcome.machine r) m

/-- Evaluations leave an instruction pointer that a cell can tell, unless one of them went too far. -/
theorem Evaluated.addressable {m₀ m : Machine} (h : Evaluated m₀ m) (hgenuine : m₀.Genuine)
    (hsound : m₀.Sound) (hm₀ : m₀.Addressable) : m.Addressable ∨ Overran m₀ m := by
  induction h with
  | start => exact Or.inl hm₀
  | @eval m r fuel text hbefore heval ih =>
      rcases ih with haddressable | ⟨m₁, text₁, fuel₁, r₁, hfirst, heval₁, hoverruns, hlater⟩
      -- behind a text that goes too far nothing is known but that it did
      · by_cases hoverruns : m.TextOverruns text
        · exact Or.inr ⟨m, text, fuel, r, hbefore, heval, hoverruns, .start⟩
        · left
          refine haddressable.evalSource (hbefore.genuine hgenuine) (hbefore.sound hsound) ?_ heval
          exact fun m₁ hexecutes hover => hoverruns ⟨m₁, hexecutes, hover⟩
      · exact Or.inr ⟨m₁, text₁, fuel₁, r₁, hfirst, heval₁, hoverruns, .eval fuel text hlater heval⟩

/-- A call puts the instruction pointer back, whatever evaluations have done to it before, if a cell can
tell it: wherever the body itself runs to its end and leaves the return stack as it was.  Otherwise the
call fails behind the body, and one of the evaluations has taken a conditional branch that was executed
by itself beyond the last address. -/
theorem call_restores_ip {fuel a : Nat} {m₀ m m₁ : Machine}
    (hboot : boot fuel defaultCapacity = some (.ok () m₀)) (hm : Evaluated m₀ m)
    (hroom : m.returns.depth < m.returnLimit)
    (hrun : Reaches (fun fuel => run fuel a)
      { m with returns := m.returns.push (Cell.ofAddress m.ip) } (.ok () m₁))
    (hbalanced : m₁.returns = m.returns.push (Cell.ofAddress m.ip)) :
    (m.ip < Cell.addressLimit → Reaches (fun fuel => call fuel (.body a)) m
      (.ok () { m₁ with ip := m.ip, returns := m.returns })) ∧
    (Cell.addressLimit ≤ m.ip → Overran m₀ m ∧ (m.ip < 2 ^ 64 →
      Reaches (fun fuel => call fuel (.body a)) m
        (.error .invalidAddress { m₁ with returns := m.returns }))) := by
  refine ⟨fun hip => ?_, fun hip => ⟨?_, fun hhigh => ?_⟩⟩
  · exact reaches_call_of_run hroom hrun (restoreIp_of_returns hip hbalanced)
  · have hfresh : m₀.Fresh := Or.inr ⟨fuel, defaultCapacity, hboot⟩
    have hstart : m₀.Addressable := .of_boot (by decide) hboot
    rcases hm.addressable hfresh.genuine hfresh.sound.1 hstart with haddressable | hover
    · exact absurd haddressable.ip (Nat.not_lt.mpr hip)
    · exact hover
  · exact reaches_call_of_run hroom hrun (restoreIp_of_le hip hhigh hbalanced)

/-- A call behind an evaluation that failed inside a body: the return address of that body is still on the
return stack, and the instruction pointer behind the primitive that failed. -/
theorem call_restores_ip_behind_failure :
    ∃ (fuel : Nat) (m₀ m m₁ : Machine), boot fuel defaultCapacity = some (.ok () m₀) ∧
      Evaluated m₀ m ∧ m.ip = 189 ∧ m.returns.cells = [Cell.ofAddress 0] ∧
      m.returns.depth < m.returnLimit ∧
      Reaches (fun fuel => run fuel 185)
        { m with returns := m.returns.push (Cell.ofAddress m.ip) } (.ok () m₁) ∧
      m₁.returns = m.returns.push (Cell.ofAddress m.ip) ∧ m₁.ip = 188 ∧
      Reaches (fun fuel => call fuel (.body 185)) m
        (.ok () { m₁ with ip := m.ip, returns := m.returns }) := by
  have hrun : (eval 20 ": v 7 ; : w + ; w").fails (booted defaultCapacity) (fun _ m =>
      decide (m.ip = 189 ∧ m.returns.cells = [Cell.ofAddress 0] ∧ m.returns.depth < m.returnLimit) &&
        (run 20 185).passes { m with returns := m.returns.push (Cell.ofAddress m.ip) } fun m₁ =>
          decide (m₁.returns = m.returns.push (Cell.ofAddress m.ip) ∧ m₁.ip = 188)) = true := by
    decide +kernel
  obtain ⟨e, m, heval, htest⟩ := of_fails hrun
  obtain ⟨hstate, hbody⟩ := Bool.and_eq_true_iff.mp htest
  obtain ⟨hip, hreturns, hroom⟩ := of_decide_eq_true hstate
  obtain ⟨_, m₁, hm₁, hend⟩ := of_passes hbody
  obtain ⟨hbalanced, hip₁⟩ := of_decide_eq_true hend
  obtain ⟨fuel, hboot⟩ : ∃ fuel, boot fuel defaultCapacity = some (.ok () (booted defaultCapacity)) :=
    reaches_boot (by decide) (by decide)
  have hmet : Evaluated (booted defaultCapacity) m := .eval 20 _ .start heval
  have hbelow : m.ip < Cell.addressLimit := hip ▸ (by decide : 189 < Cell.addressLimit)
  have hcall := (call_restores_ip hboot hmet hroom ⟨20, hm₁⟩ hbalanced).1 hbelow
  exact ⟨fuel, _, m, m₁, hboot, hmet, hip, hreturns, hroom, ⟨20, hm₁⟩, hbalanced, hip₁, hcall⟩

/-- Without the bound on the instruction pointer, a call need not put it back: a conditional branch,
executed by itself at the last address, takes it where no return address is read back. -/
theorem not_call_restores_ip :
    ¬ ∀ (fuel a : Nat) (m₀ m m₁ : Machine), boot fuel defaultCapacity = some (.ok () m₀) →
      Evaluated m₀ m → (∃ e ∈ m.dictionary.entries, e.op = .body a) →
      m.returns.depth < m.returnLimit →
      Reaches (fun fuel => run fuel a)
        { m with returns := m.returns.push (Cell.ofAddress m.ip) } (.ok () m₁) →
      m₁.returns = m.returns.push (Cell.ofAddress m.ip) →
      ∃ m', Reaches (fun fuel => call fuel (.body a)) m (.ok () m') ∧ m'.returns = m.returns ∧
        m'.ip = m.ip := by
  have hrun : (eval 30 "9223372036854775807 0 ! jmp true jmp#f : w ;").passes (booted defaultCapacity)
      (fun m =>
        decide (m.ip = Cell.addressLimit ∧ (∃ e ∈ m.dictionary.entries, e.op = .body 185) ∧
            m.returns.depth < m.returnLimit) &&
          (run 20 185).passes { m with returns := m.returns.push (Cell.ofAddress m.ip) } fun m₁ =>
            decide (m₁.returns = m.returns.push (Cell.ofAddress m.ip))) = true := by
    decide +kernel
  obtain ⟨_, m, heval, htest⟩ := of_passes hrun
  obtain ⟨hstate, hbody⟩ := Bool.and_eq_true_iff.mp htest
  obtain ⟨hip, hlisted, hroom⟩ := of_decide_eq_true hstate
  obtain ⟨_, m₁, hm₁, hend⟩ := of_passes hbody
  have hbalanced := of_decide_eq_true hend
  obtain ⟨fuel, hboot⟩ : ∃ fuel, boot fuel defaultCapacity = some (.ok () (booted defaultCapacity)) :=
    reaches_boot (by decide) (by decide)
  have hmet : Evaluated (booted defaultCapacity) m := .eval 30 _ .start heval
  have hhigh : m.ip < 2 ^ 64 := hip ▸ (by decide : Cell.addressLimit < 2 ^ 64)
  have hfails := reaches_call_of_run hroom ⟨20, hm₁⟩ (restoreIp_of_le (Nat.le_of_eq hip.symm) hhigh hbalanced)
  intro hrestores
  obtain ⟨m', hcall, _⟩ := hrestores fuel 185 _ m m₁ hboot hmet hlisted hroom ⟨20, hm₁⟩ hbalanced
  cases (call_steady (.body 185)).reaches_unique hfails hcall

end Forth

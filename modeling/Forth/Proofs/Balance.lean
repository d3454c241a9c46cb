/-
Code that balances the return stack.  Values and return addresses share one stack, so code is annotated
with the number of values that it has put there since its body was entered.  If the annotation is
consistent, a call that succeeds leaves the return stack and the instruction pointer as they were, and
a call that fails has not touched what lay below, nor gone wrong in reading its own code.
-/
import Forth.Proofs.Preservation
import Forth.Proofs.Steps

namespace Forth

open Machine

/-- A number of values on the return stack for each address of some code. -/
abbrev Depths : Type := Nat → Option Nat

namespace Depths

/-- The cell behind an address holds an offset that leads to code of the given depth. -/
def Jumps (d : Depths) (heap : Heap) (address depth : Nat) : Prop :=
  ∃ (offset : Int64) (target : Nat), heap.get? (address + 1) = some (.int offset) ∧
    (target : Int) = (address + 1 : Nat) + offset.toInt ∧ d target = some depth

/-- What the operation at an address asks of the depths around it. -/
def Fits (d : Depths) (heap : Heap) (address depth : Nat) : Op → Prop
  | .exit => depth = 0
  | .body callee => d callee = some 0 ∧ d (address + 1) = some depth
  | .primitive .toReturn => d (address + 1) = some (depth + 1)
  | .primitive .fromReturn => 1 ≤ depth ∧ d (address + 1) = some (depth - 1)
  | .primitive .lit | .primitive .tick => d (address + 2) = some depth
  | .primitive .jump => d.Jumps heap address depth
  | .primitive .jumpIfFalse => d.Jumps heap address depth ∧ d (address + 2) = some depth
  | .primitive .store => False
  | .primitive _ => d (address + 1) = some depth

/-- Every annotated address lies in the filled part of the heap and holds an operation that fits. -/
def Balances (d : Depths) (heap : Heap) : Prop :=
  ∀ address depth, d address = some depth →
    address < heap.here ∧ ∃ op, heap.get? address = some (.op op) ∧ d.Fits heap address depth op

/-- The offset of every annotated jump lies in the filled part of the heap, too. -/
def OffsetsFilled (d : Depths) (heap : Heap) : Prop :=
  ∀ address depth, d address = some depth →
    heap.get? address = some (.op (.primitive .jump)) → address + 1 < heap.here

variable {d : Depths} {heap heap' : Heap}

theorem Jumps.of_extends {address depth : Nat} (h : d.Jumps heap address depth)
    (hext : heap.Extends heap') (hfilled : address + 1 < heap.here) :
    d.Jumps heap' address depth := by
  obtain ⟨offset, target, hcell, htarget, hdepth⟩ := h
  exact ⟨offset, target, (hext.get? _ hfilled).trans hcell, htarget, hdepth⟩

/-- Appending to the heap does not disturb annotated code. -/
theorem Balances.of_extends (hb : d.Balances heap) (ho : d.OffsetsFilled heap)
    (hext : heap.Extends heap') : d.Balances heap' ∧ d.OffsetsFilled heap' := by
  constructor
  · intro address depth hdepth
    obtain ⟨hbelow, op, hcell, hfits⟩ := hb address depth hdepth
    refine ⟨Nat.lt_of_lt_of_le hbelow hext.here_le, op, (hext.get? _ hbelow).trans hcell, ?_⟩
    cases op with
    | primitive p =>
        cases p with
        | jump => exact hfits.of_extends hext (ho address depth hdepth hcell)
        | jumpIfFalse =>
            -- the code behind the offset is annotated, so the offset is filled
            have hbehind := (hb _ _ hfits.2).1
            exact ⟨hfits.1.of_extends hext (by omega), hfits.2⟩
        | _ => exact hfits
    | body callee => exact hfits
    | exit => exact hfits
  · intro address depth hdepth hcell
    have hbelow := (hb address depth hdepth).1
    have hfilled := ho address depth hdepth ((hext.get? _ hbelow).symm.trans hcell)
    exact Nat.lt_of_lt_of_le hfilled hext.here_le

end Depths

open Depths

/-! ### The frames of the return stack -/

/-- The return stack inside `nested` open bodies: on top as many values as the depth says, then, for
each body, the address to return to and the values of the body it was entered from.  What lay on the
stack before is at the bottom. -/
inductive Framed (d : Depths) (base : List Cell) : Nat → Nat → List Cell → Prop where
  | outermost {depth : Nat} {values : List Cell} :
      values.length = depth → Framed d base 0 depth (values ++ base)
  | inside {nested depth outer address : Nat} {values rest : List Cell} :
      values.length = depth → d address = some outer → Framed d base nested outer rest →
        Framed d base (nested + 1) depth (values ++ Cell.ofAddress address :: rest)

namespace Framed

variable {d : Depths} {base cells : List Cell} {nested depth : Nat}

theorem suffix (h : Framed d base nested depth cells) : base <:+ cells := by
  induction h with
  | outermost _ => exact List.suffix_append _ _
  | inside _ _ _ ih => exact ih.trans ((List.suffix_cons _ _).trans (List.suffix_append _ _))

theorem push (h : Framed d base nested depth cells) (c : Cell) :
    Framed d base nested (depth + 1) (c :: cells) := by
  cases h with
  | @outermost _ values hlength =>
      have hpushed : (c :: values).length = depth + 1 := by rw [List.length_cons, hlength]
      exact .outermost hpushed
  | @inside _ _ _ _ values rest hlength haddress hrest =>
      have hpushed : (c :: values).length = depth + 1 := by rw [List.length_cons, hlength]
      exact .inside hpushed haddress hrest

theorem pop (h : Framed d base nested (depth + 1) cells) :
    ∃ c rest, cells = c :: rest ∧ Framed d base nested depth rest := by
  cases h with
  | @outermost _ values hlength =>
      obtain ⟨c, values, rfl⟩ := List.exists_cons_of_length_eq_add_one hlength
      exact ⟨c, values ++ base, rfl, .outermost (by simpa using hlength)⟩
  | @inside _ _ _ _ values rest hlength haddress hrest =>
      obtain ⟨c, values, rfl⟩ := List.exists_cons_of_length_eq_add_one hlength
      exact ⟨c, _, rfl, .inside (by simpa using hlength) haddress hrest⟩

theorem call (h : Framed d base nested depth cells) {address : Nat} (ha : d address = some depth) :
    Framed d base (nested + 1) 0 (Cell.ofAddress address :: cells) :=
  .inside List.length_nil ha h

theorem leave (h : Framed d base (nested + 1) 0 cells) :
    ∃ address outer rest, cells = Cell.ofAddress address :: rest ∧ d address = some outer ∧
      Framed d base nested outer rest := by
  cases h with
  | @inside _ _ outer address values rest hlength haddress hrest =>
      obtain rfl := List.eq_nil_of_length_eq_zero hlength
      exact ⟨address, outer, rest, rfl, haddress, hrest⟩

theorem finish (h : Framed d base 0 0 cells) : cells = base := by
  cases h with
  | outermost hlength =>
      obtain rfl := List.eq_nil_of_length_eq_zero hlength
      rfl

end Framed

/-! ### The invariant of the loop -/

/-- A step that fails in the operation it has read: in a primitive, or in saving the return address of
a body. -/
inductive FailsInside (m : Machine) (e : Error) (m' : Machine) : Prop where
  | primitive {p : Primitive} {m₁ : Machine} :
      fetchOp m = .ok (.primitive p) m₁ → p.execute m₁ = .error e m' → FailsInside m e m'
  | entry {address : Nat} {m₁ : Machine} :
      fetchOp m = .ok (.body address) m₁ → saveIp m₁ = .error e m' → e = .returnStackOverflow →
        FailsInside m e m'

/-- The machine is about to execute annotated code, and its return stack is framed accordingly. -/
structure InBalance (d : Depths) (base : List Cell) (nested : Nat) (m : Machine) : Prop where
  code : d.Balances m.heap
  offsets : d.OffsetsFilled m.heap
  capacity : m.heap.capacity < Cell.addressLimit
  frames : ∃ depth, d m.ip = some depth ∧ Framed d base nested depth m.returns.cells

/-- What a step may lead to from a machine in balance. -/
def StepsInBalance (d : Depths) (base : List Cell) (m : Machine) : Outcome Turn → Prop
  | .ok .finished m' => m'.returns.cells = base
  | .ok (.more nested) m' => InBalance d base nested m'
  | .error e m' => base <:+ m'.returns.cells ∧ FailsInside m e m'

namespace InBalance

variable {d : Depths} {base : List Cell} {nested depth : Nat} {m m' : Machine}

/-- Annotated addresses are addresses of the heap, and the address behind one can still be stored in a
cell. -/
theorem address_lt (h : InBalance d base nested m) {a : Nat} (ha : d a = some depth) :
    a + 1 < Cell.addressLimit := by
  obtain ⟨_, op, hcell, _⟩ := h.code a depth ha
  exact Nat.lt_of_le_of_lt (Heap.lt_capacity_of_get? hcell) h.capacity

/-- Balance goes on at any annotated address with a fitting return stack, if the heap was only
extended. -/
theorem next (h : InBalance d base nested m) {nested' depth' : Nat}
    (hheap : m.heap.Extends m'.heap) (hip : d m'.ip = some depth')
    (hframes : Framed d base nested' depth' m'.returns.cells) : InBalance d base nested' m' := by
  obtain ⟨hcode, hoffsets⟩ := h.code.of_extends h.offsets hheap
  exact ⟨hcode, hoffsets, hheap.capacity ▸ h.capacity, depth', hip, hframes⟩

/-- A primitive keeps the balance if its success does and its failure leaves the return stack alone. -/
theorem step_primitive {p : Primitive} (hcell : m.heap.get? m.ip = some (.op (.primitive p)))
    (hok : ∀ m', p.execute { m with ip := m.ip + 1 } = .ok () m' → InBalance d base nested m')
    (herror : ∀ e m', p.execute { m with ip := m.ip + 1 } = .error e m' →
      base <:+ m'.returns.cells) :
    StepsInBalance d base m (step nested m) := by
  cases hp : p.execute { m with ip := m.ip + 1 } with
  | ok u m' =>
      rw [step_primitive_ok hcell hp]
      exact hok m' hp
  | error e m' =>
      rw [step_primitive_error hcell hp]
      exact ⟨herror e m' hp, .primitive (fetchOp_of_get? hcell) hp⟩

theorem step_ordinary (h : InBalance d base nested m) {p : Primitive} (hp : p.isOrdinary = true)
    (hcell : m.heap.get? m.ip = some (.op (.primitive p))) (hbehind : d (m.ip + 1) = some depth)
    (hframes : Framed d base nested depth m.returns.cells) :
    StepsInBalance d base m (step nested m) := by
  have hquiet := quiet_ordinary.keeps_execute hp { m with ip := m.ip + 1 }
  apply step_primitive hcell
  · intro m' hm'
    rw [hm'] at hquiet
    have hip : m'.ip = m.ip + 1 := hquiet.ip
    have hreturns : m'.returns = m.returns := hquiet.returns
    exact h.next hquiet.heap (hip ▸ hbehind) (hreturns ▸ hframes)
  · intro e m' hm'
    rw [hm'] at hquiet
    have hreturns : m'.returns = m.returns := hquiet.returns
    exact hreturns ▸ hframes.suffix

theorem step_inline (h : InBalance d base nested m) {p : Primitive}
    (hp : p.execute = Primitive.pushInline)
    (hcell : m.heap.get? m.ip = some (.op (.primitive p))) (hbehind : d (m.ip + 2) = some depth)
    (hframes : Framed d base nested depth m.returns.cells) :
    StepsInBalance d base m (step nested m) := by
  apply step_primitive hcell
  · intro m' hm'
    rw [hp] at hm'
    cases hoperand : m.heap.get? (m.ip + 1) with
    | none =>
        rw [pushInline_of_none hoperand] at hm'
        cases hm'
    | some c =>
        rw [pushInline_of_get? hoperand] at hm'
        cases hm'
        exact h.next (Heap.Extends.refl _) hbehind hframes
  · intro e m' hm'
    rw [hp] at hm'
    cases hoperand : m.heap.get? (m.ip + 1) with
    | none =>
        rw [pushInline_of_none hoperand] at hm'
        cases hm'
        exact hframes.suffix
    | some c =>
        rw [pushInline_of_get? hoperand] at hm'
        cases hm'

/-- A jump from behind an annotated address arrives where its annotation says. -/
theorem jumpInline (h : InBalance d base nested m) (hip : d m.ip = some depth) (s : Stack)
    (hjumps : d.Jumps m.heap m.ip depth) :
    ∃ target, d target = some depth ∧
      Primitive.jumpInline { m with ip := m.ip + 1, data := s } =
        .ok () { m with ip := target, data := s } := by
  obtain ⟨offset, target, hoffset, htarget, hdepth⟩ := hjumps
  have hlimit := h.address_lt hdepth
  refine ⟨target, hdepth, ?_⟩
  exact jumpInline_of_get? hoffset (h.address_lt hip) htarget (by omega)

theorem step_jump (h : InBalance d base nested m) (hip : d m.ip = some depth)
    (hcell : m.heap.get? m.ip = some (.op (.primitive .jump)))
    (hjumps : d.Jumps m.heap m.ip depth) (hframes : Framed d base nested depth m.returns.cells) :
    StepsInBalance d base m (step nested m) := by
  obtain ⟨target, hdepth, hjump⟩ := h.jumpInline hip m.data hjumps
  rw [step_primitive_ok hcell hjump]
  exact h.next (Heap.Extends.refl _) hdepth hframes

theorem step_jumpIfFalse (h : InBalance d base nested m) (hip : d m.ip = some depth)
    (hcell : m.heap.get? m.ip = some (.op (.primitive .jumpIfFalse)))
    (hjumps : d.Jumps m.heap m.ip depth) (hbehind : d (m.ip + 2) = some depth)
    (hframes : Framed d base nested depth m.returns.cells) :
    StepsInBalance d base m (step nested m) := by
  rcases popFlag_cases { m with ip := m.ip + 1 } with ⟨b, s, hpop⟩ | ⟨e, s, hpop⟩
  · have hexecute := jumpIfFalse_of_popFlag_ok hpop
    cases b with
    | true =>
        rw [step_primitive_ok hcell hexecute]
        exact h.next (Heap.Extends.refl _) hbehind hframes
    | false =>
        obtain ⟨target, hdepth, hjump⟩ := h.jumpInline hip s hjumps
        rw [step_primitive_ok hcell (hexecute.trans hjump)]
        exact h.next (Heap.Extends.refl _) hdepth hframes
  · have hexecute := jumpIfFalse_of_popFlag_error hpop
    rw [step_primitive_error hcell hexecute]
    exact ⟨hframes.suffix, .primitive (fetchOp_of_get? hcell) hexecute⟩

theorem step_toReturn (h : InBalance d base nested m)
    (hcell : m.heap.get? m.ip = some (.op (.primitive .toReturn)))
    (hbehind : d (m.ip + 1) = some (depth + 1))
    (hframes : Framed d base nested depth m.returns.cells) :
    StepsInBalance d base m (step nested m) := by
  rcases toReturn_cases { m with ip := m.ip + 1 } with ⟨c, s, hexecute⟩ | ⟨e, s, hexecute⟩
  · rw [step_primitive_ok hcell hexecute]
    exact h.next (Heap.Extends.refl _) hbehind (hframes.push c)
  · rw [step_primitive_error hcell hexecute]
    exact ⟨hframes.suffix, .primitive (fetchOp_of_get? hcell) hexecute⟩

theorem step_fromReturn (h : InBalance d base nested m)
    (hcell : m.heap.get? m.ip = some (.op (.primitive .fromReturn)))
    (hbehind : d (m.ip + 1) = some depth)
    (hframes : Framed d base nested (depth + 1) m.returns.cells) :
    StepsInBalance d base m (step nested m) := by
  obtain ⟨c, rest, hcells, hrest⟩ := hframes.pop
  have hexecute := fromReturn_of_returns (m := { m with ip := m.ip + 1 }) hcells
  have hpopped : Framed d base nested depth m.returns.pop.cells := by
    rw [Stack.cells_pop, hcells]
    exact hrest
  rw [step_primitive_ok hcell hexecute]
  exact h.next (Heap.Extends.refl _) hbehind hpopped

theorem step_body (h : InBalance d base nested m) {callee : Nat}
    (hcell : m.heap.get? m.ip = some (.op (.body callee))) (hcallee : d callee = some 0)
    (hbehind : d (m.ip + 1) = some depth) (hframes : Framed d base nested depth m.returns.cells) :
    StepsInBalance d base m (step nested m) := by
  by_cases hroom : m.returns.depth < m.returnLimit
  · rw [step_body_ok hcell hroom]
    exact h.next (Heap.Extends.refl _) hcallee (hframes.call hbehind)
  · rw [step_body_error hcell hroom]
    exact ⟨hframes.suffix, .entry (fetchOp_of_get? hcell) (saveIp_of_full hroom) rfl⟩

theorem step_exit (h : InBalance d base nested m) (hcell : m.heap.get? m.ip = some (.op .exit))
    (hframes : Framed d base nested 0 m.returns.cells) :
    StepsInBalance d base m (step nested m) := by
  cases nested with
  | zero =>
      rw [step_exit_zero hcell]
      exact hframes.finish
  | succ outer =>
      obtain ⟨address, depth, rest, hcells, hdepth, hrest⟩ := hframes.leave
      have hlimit := h.address_lt hdepth
      have hreturns : m.returns = (Stack.ofList rest).push (Cell.ofAddress address) :=
        Stack.ext_cells hcells
      rw [step_exit_succ hcell (by omega) hreturns]
      exact h.next (Heap.Extends.refl _) hdepth hrest

/-- A step keeps the balance, ends it with the stack as it was, or fails inside an operation. -/
theorem step (h : InBalance d base nested m) : StepsInBalance d base m (step nested m) := by
  obtain ⟨depth, hip, hframes⟩ := h.frames
  obtain ⟨_, op, hcell, hfits⟩ := h.code m.ip depth hip
  cases op with
  | exit =>
      obtain rfl : depth = 0 := hfits
      exact h.step_exit hcell hframes
  | body callee => exact h.step_body hcell hfits.1 hfits.2 hframes
  | primitive p =>
      by_cases hp : p.isOrdinary = true
      · apply h.step_ordinary hp hcell _ hframes
        cases p with
        | lit | tick | toReturn | fromReturn | store | jump | jumpIfFalse => cases hp
        | _ => exact hfits
      · cases p with
        | lit => exact h.step_inline rfl hcell hfits hframes
        | tick => exact h.step_inline rfl hcell hfits hframes
        | toReturn => exact h.step_toReturn hcell hfits hframes
        | fromReturn =>
            obtain ⟨outer, rfl⟩ : ∃ outer, depth = outer + 1 := ⟨depth - 1, by have := hfits.1; omega⟩
            exact h.step_fromReturn hcell hfits.2 hframes
        | store => exact hfits.elim
        | jump => exact h.step_jump hip hcell hfits hframes
        | jumpIfFalse => exact h.step_jumpIfFalse hip hcell hfits.1 hfits.2 hframes
        | _ => exact absurd rfl hp

/-- A run of the loop from a machine in balance ends with the stack as it was, or fails inside an
operation that it has come to. -/
theorem thread (h : InBalance d base nested m) {fuel : Nat} {r : Outcome Unit}
    (hr : thread fuel nested m = some r) :
    match r with
    | .ok () m' => m'.returns.cells = base
    | .error e m' => base <:+ m'.returns.cells ∧
        ∃ nested₁ m₁, Steps nested m nested₁ m₁ ∧ FailsInside m₁ e m' := by
  induction fuel generalizing nested m with
  | zero => cases hr
  | succ fuel ih =>
      have hsteps := h.step
      cases hstep : Machine.step nested m with
      | error e m' =>
          rw [hstep] at hsteps
          rw [thread_of_step_error fuel hstep] at hr
          cases hr
          exact ⟨hsteps.1, nested, m, .refl _ _, hsteps.2⟩
      | ok turn m' =>
          rw [hstep] at hsteps
          cases turn with
          | finished =>
              rw [thread_of_step_finished fuel hstep] at hr
              cases hr
              exact hsteps
          | more nested' =>
              rw [thread_of_step_more fuel hstep] at hr
              have hrest := ih hsteps hr
              cases r with
              | ok u m'' => exact hrest
              | error e m'' =>
                  obtain ⟨hsuffix, nested₁, m₁, hlater, hfails⟩ := hrest
                  exact ⟨hsuffix, nested₁, m₁, .head hstep hlater, hfails⟩

end InBalance

/-- The error of a call came from pushing a return address or from a primitive: the body could not be
entered, or the loop came to a step that failed inside its operation. -/
def FailsInCall (m : Machine) (address : Nat) (e : Error) (m' : Machine) : Prop :=
  (saveIp m = .error e m' ∧ e = .returnStackOverflow) ∨
    ∃ m₀, saveIp m = .ok () m₀ ∧
      ∃ nested m₁, Steps 0 { m₀ with ip := address } nested m₁ ∧ FailsInside m₁ e m'

/-- A call of balanced code.  If it succeeds, return stack and instruction pointer are as before; if it
fails, the return stack still has the old one at its bottom, and the error came from a primitive or
from the limit of the return stack, not from reading the code or from a return address. -/
theorem call_balanced {d : Depths} {m : Machine} {address : Nat} (hcode : d.Balances m.heap)
    (hoffsets : d.OffsetsFilled m.heap) (hcapacity : m.heap.capacity < Cell.addressLimit)
    (hip : m.ip < Cell.addressLimit) (haddress : d address = some 0) :
    (∀ m', Run.Reaches (fun fuel => call fuel (.body address)) m (.ok () m') →
        m'.returns = m.returns ∧ m'.ip = m.ip) ∧
      ∀ e m', Run.Reaches (fun fuel => call fuel (.body address)) m (.error e m') →
        m.returns.toList <+: m'.returns.toList ∧ FailsInCall m address e m' := by
  by_cases hroom : m.returns.depth < m.returnLimit
  · have hbalance : InBalance d (m.returns.push (Cell.ofAddress m.ip)).cells 0
        { m with ip := address, returns := m.returns.push (Cell.ofAddress m.ip) } :=
      ⟨hcode, hoffsets, hcapacity, 0, haddress, .outermost List.length_nil⟩
    have hrestore : ∀ m₁ : Machine, m₁.returns.cells = (m.returns.push (Cell.ofAddress m.ip)).cells →
        restoreIp m₁ = .ok () { m₁ with ip := m.ip, returns := m.returns } :=
      fun m₁ hcells => restoreIp_of_returns hip (Stack.ext_cells hcells)
    constructor
    · rintro m' ⟨fuel, hcall⟩
      have hrun := (call_body_of_room hroom).symm.trans hcall
      rcases Run.of_bind_eq_some hrun with ⟨_, m₁, hthread, hlast⟩ | ⟨_, _, _, hlast⟩
      · rw [Run.lift_apply, hrestore m₁ (hbalance.thread hthread)] at hlast
        cases hlast
        exact ⟨rfl, rfl⟩
      · cases hlast
    · rintro e m' ⟨fuel, hcall⟩
      have hrun := (call_body_of_room hroom).symm.trans hcall
      rcases Run.of_bind_eq_some hrun with ⟨_, m₁, hthread, hlast⟩ | ⟨_, _, hthread, hlast⟩
      · rw [Run.lift_apply, hrestore m₁ (hbalance.thread hthread)] at hlast
        cases hlast
      · cases hlast
        obtain ⟨hsuffix, hfails⟩ := hbalance.thread hthread
        exact ⟨List.reverse_prefix.mpr ((List.suffix_cons _ _).trans hsuffix),
          Or.inr ⟨_, saveIp_of_room hroom, hfails⟩⟩
  · constructor
    · rintro m' ⟨fuel, hcall⟩
      have hfull := (call_body_of_full hroom).symm.trans hcall
      cases hfull
    · rintro e m' ⟨fuel, hcall⟩
      have hfull := (call_body_of_full hroom).symm.trans hcall
      cases hfull
      exact ⟨List.prefix_refl _, Or.inl ⟨saveIp_of_full hroom, rfl⟩⟩

/-- A new machine whose heap holds the given cells and is filled up to an address. -/
def Machine.withCells (cells : List Cell) (here : Nat) : Machine :=
  { Machine.new 0 with heap := ⟨cells.toArray, here⟩ }

/-- A body that keeps a value on the return stack while it calls another one, which is at 4. -/
def nestedCode : List Cell :=
  [.op (.primitive .toReturn), .op (.body 4), .op (.primitive .fromReturn), .op .exit,
   .op (.primitive .clear), .op .exit]

def nestedDepths : Depths
  | 1 | 2 => some 1
  | 0 | 3 | 4 | 5 => some 0
  | _ => none

theorem balances_nestedCode : nestedDepths.Balances (withCells nestedCode 6).heap := by
  intro a depth ha
  match a, ha with
  | 0, ha => cases ha; exact ⟨by decide, _, rfl, rfl⟩
  | 1, ha => cases ha; exact ⟨by decide, _, rfl, rfl, rfl⟩
  | 2, ha => cases ha; exact ⟨by decide, _, rfl, by decide, rfl⟩
  | 3, ha => cases ha; exact ⟨by decide, _, rfl, rfl⟩
  | 4, ha => cases ha; exact ⟨by decide, _, rfl, rfl⟩
  | 5, ha => cases ha; exact ⟨by decide, _, rfl, rfl⟩

theorem offsetsFilled_nestedCode : nestedDepths.OffsetsFilled (withCells nestedCode 6).heap := by
  intro a depth ha hjump
  match a, ha with
  | 0, _ | 1, _ | 2, _ | 3, _ | 4, _ | 5, _ => cases hjump

/-- A machine that is about to call this code, with a cell of its own on the return stack. -/
def Machine.nestedMachine (returnLimit : Nat) : Machine :=
  { withCells nestedCode 6 with
    ip := 3
    data := .ofList [.int 7, .flag false]
    returns := .ofList [.flag true]
    returnLimit := returnLimit }

/-- The call keeps the upper cell on the return stack while the inner body clears the data stack, and comes
back to where it was called from.  With room for two more cells on the return stack only, the inner body
cannot be entered; the return address and the cell that was kept are left above the old return stack. -/
theorem call_balanced_of_nested :
    (∃ m', Run.Reaches (fun fuel => call fuel (.body 0)) (nestedMachine 4) (.ok () m') ∧
        m'.data.toList = [.int 7] ∧ m'.returns.toList = [.flag true] ∧ m'.ip = 3) ∧
      ∃ m', Run.Reaches (fun fuel => call fuel (.body 0)) (nestedMachine 3)
          (.error .returnStackOverflow m') ∧
        m'.returns.toList = [.flag true, .int 3, .int 7] ∧ [.flag true] <+: m'.returns.toList ∧
        FailsInCall (nestedMachine 3) 0 .returnStackOverflow m' := by
  have hstart : nestedDepths 0 = some 0 := rfl
  have hbalanced (limit : Nat) := call_balanced (m := nestedMachine limit) balances_nestedCode
    offsetsFilled_nestedCode (by decide : 6 < Cell.addressLimit) (by decide : 3 < Cell.addressLimit) hstart
  have hreturns : (Stack.ofList [.flag true]).toList = [.flag true] := by decide
  constructor
  · have hrun : (call 10 (.body 0)).passes (nestedMachine 4) (fun m' =>
        decide (m'.data.toList = [.int 7])) = true := by
      decide +kernel
    obtain ⟨_, m', hcall, htest⟩ := Run.of_passes hrun
    obtain ⟨hsame, hip⟩ := (hbalanced 4).1 m' ⟨10, hcall⟩
    exact ⟨m', ⟨10, hcall⟩, of_decide_eq_true htest, hsame ▸ hreturns, hip⟩
  · have hrun : (call 10 (.body 0)).fails (nestedMachine 3) (fun e m' =>
        decide (e = .returnStackOverflow ∧
          m'.returns.toList = [.flag true, .int 3, .int 7])) = true := by
      decide +kernel
    obtain ⟨e, m', hcall, htest⟩ := Run.of_fails hrun
    obtain ⟨rfl, hleft⟩ := of_decide_eq_true htest
    obtain ⟨hkept, hfails⟩ := (hbalanced 3).2 _ m' ⟨10, hcall⟩
    exact ⟨m', ⟨10, hcall⟩, hleft, hkept, hfails⟩

/-- A loop that appends a cell and jumps back.  Only its first four cells are filled, so that the cell
it appends is the offset of its own jump, which then leads to address 11. -/
def overwritingLoop : List Cell :=
  [.op (.primitive .lit), .int 7, .op (.primitive .comma), .op (.primitive .jump), .int (-4),
   .int 0, .int 0, .int 0, .int 0, .int 0, .int 0,
   .op (.primitive .here), .op (.primitive .toReturn), .op .exit]

def overwritingDepths : Depths
  | 0 | 2 | 3 => some 0
  | _ => none

/-- Without the condition on offsets a call may succeed and still leave return stack and instruction
pointer changed. -/
theorem call_unbalanced_of_unfilled_offset :
    ¬ ∀ (d : Depths) (m : Machine) (address : Nat), d.Balances m.heap →
      m.heap.capacity < Cell.addressLimit → m.ip < Cell.addressLimit → d address = some 0 →
        (∀ m', Run.Reaches (fun fuel => call fuel (.body address)) m (.ok () m') →
          m'.returns = m.returns ∧ m'.ip = m.ip) ∧
        ∀ e m', Run.Reaches (fun fuel => call fuel (.body address)) m (.error e m') →
          m.returns.toList <+: m'.returns.toList ∧ FailsInCall m address e m' := by
  intro hclaim
  have hcode : overwritingDepths.Balances (withCells overwritingLoop 4).heap := by
    intro a depth ha
    match a, ha with
    | 0, ha => cases ha; exact ⟨by decide, _, rfl, rfl⟩
    | 2, ha => cases ha; exact ⟨by decide, _, rfl, rfl⟩
    | 3, ha => cases ha; exact ⟨by decide, _, rfl, -4, 0, rfl, by decide, rfl⟩
  have hrun : (call 10 (.body 0)).passes (withCells overwritingLoop 4) (fun m' =>
      decide (m'.ip = 5)) = true := by
    decide +kernel
  obtain ⟨_, m', hm', htest⟩ := Run.of_passes hrun
  have hbalanced := (hclaim _ _ 0 hcode (by decide) (by decide) rfl).1 m' ⟨10, hm'⟩
  have hip : m'.ip = 5 := of_decide_eq_true htest
  rw [hbalanced.2] at hip
  cases hip

end Forth

/-
Recursion without backward jumps ends.  Inside a body the instruction pointer only moves forward, and a
body that is entered from another one leaves a cell on the return stack, which is bounded.  So the proof
is by induction on the room that is left there, and inside on the distance to the end of the code.
-/
import Forth.Proofs.Balance
import Forth.Proofs.CodeRules

namespace Forth

open Machine Run

namespace Depths

/-- Every annotated jump has an offset that leads forward. -/
def Forward (d : Depths) (heap : Heap) : Prop :=
  ∀ address depth p offset, d address = some depth → heap.get? address = some (.op (.primitive p)) →
    p = .jump ∨ p = .jumpIfFalse → heap.get? (address + 1) = some (.int offset) → 0 < offset.toInt

variable {d : Depths} {heap heap' : Heap}

/-- A jump that leads forward to annotated code has its offset in the filled part of the heap. -/
theorem Forward.offsetsFilled (hforward : d.Forward heap) (hcode : d.Balances heap) :
    d.OffsetsFilled heap := by
  intro address depth hdepth hcell
  obtain ⟨_, op, hop, hfits⟩ := hcode address depth hdepth
  obtain rfl : op = .primitive .jump := by
    rw [hcell] at hop
    cases hop
    rfl
  obtain ⟨offset, target, hoffset, htarget, hlands⟩ := hfits
  have hpositive := hforward address depth .jump offset hdepth hcell (Or.inl rfl) hoffset
  have hbelow := (hcode target depth hlands).1
  omega

/-- Appending to the heap does not turn jumps back. -/
theorem Forward.of_extends (hforward : d.Forward heap) (hcode : d.Balances heap)
    (hext : heap.Extends heap') : d.Forward heap' := by
  intro address depth p offset hdepth hcell hp hoffset
  obtain ⟨hbelow, op, hop, hfits⟩ := hcode address depth hdepth
  rw [hext.get? _ hbelow] at hcell
  obtain rfl : op = .primitive p := by
    rw [hcell] at hop
    cases hop
    rfl
  have hfilled : address + 1 < heap.here := by
    rcases hp with rfl | rfl
    · exact hforward.offsetsFilled hcode address depth hdepth hcell
    · -- the code behind the offset is annotated
      have hbehind := (hcode _ _ hfits.2).1
      omega
  rw [hext.get? _ hfilled] at hoffset
  exact hforward address depth p offset hdepth hcell hp hoffset

end Depths

/-! ### Moving forward -/

/-- The machine has moved forward in its code and has at most appended to the heap. -/
structure Machine.Advances (m m' : Machine) : Prop where
  ip : m.ip < m'.ip
  heap : m.heap.Extends m'.heap
  returnLimit : m'.returnLimit = m.returnLimit

theorem Machine.Advances.of_pushInline {m m' : Machine}
    (h : Primitive.pushInline { m with ip := m.ip + 1 } = .ok () m') : m.Advances m' := by
  cases hoperand : m.heap.get? (m.ip + 1) with
  | none =>
      rw [pushInline_of_none hoperand] at h
      cases h
  | some c =>
      rw [pushInline_of_get? hoperand] at h
      cases h
      exact ⟨Nat.lt_succ_of_lt (Nat.lt_succ_self m.ip), Heap.Extends.refl _, rfl⟩

namespace InBalance

variable {d : Depths} {base : List Cell} {nested depth : Nat} {m m' : Machine} {p : Primitive}

theorem advances_jumpInline (h : InBalance d base nested m) (hforward : d.Forward m.heap)
    (hcell : m.heap.get? m.ip = some (.op (.primitive p))) (hp : p = .jump ∨ p = .jumpIfFalse)
    (hip : d m.ip = some depth) (hjumps : d.Jumps m.heap m.ip depth) {s : Stack}
    (hjump : Primitive.jumpInline { m with ip := m.ip + 1, data := s } = .ok () m') :
    m.Advances m' := by
  obtain ⟨offset, target, hoffset, htarget, hlands⟩ := hjumps
  have hpositive := hforward m.ip depth p offset hip hcell hp hoffset
  have hlimit := h.address_lt hlands
  rw [jumpInline_of_get? (m := { m with ip := m.ip + 1, data := s }) hoffset (h.address_lt hip) htarget
    (by omega)] at hjump
  cases hjump
  exact ⟨show m.ip < target by omega, Heap.Extends.refl _, rfl⟩

/-- A primitive that succeeds moves forward. -/
theorem advances (h : InBalance d base nested m) (hforward : d.Forward m.heap)
    (hcell : m.heap.get? m.ip = some (.op (.primitive p)))
    (hp : p.execute { m with ip := m.ip + 1 } = .ok () m') : m.Advances m' := by
  obtain ⟨depth, hip, hframes⟩ := h.frames
  have hfits : d.Fits m.heap m.ip depth (.primitive p) := by
    obtain ⟨_, op, hop, hfits⟩ := h.code m.ip depth hip
    rw [hcell] at hop
    cases hop
    exact hfits
  by_cases hordinary : p.isOrdinary = true
  · have hquiet := quiet_ordinary.keeps_execute hordinary { m with ip := m.ip + 1 }
    rw [hp] at hquiet
    have hahead : m'.ip = m.ip + 1 := hquiet.ip
    exact ⟨by omega, hquiet.heap, hquiet.returnLimit⟩
  · cases p with
    | lit => exact .of_pushInline hp
    | tick => exact .of_pushInline hp
    | toReturn =>
        rcases toReturn_cases { m with ip := m.ip + 1 } with ⟨c, s, hexecute⟩ | ⟨e, s, hexecute⟩
        · rw [hexecute] at hp
          cases hp
          exact ⟨Nat.lt_succ_self m.ip, Heap.Extends.refl _, rfl⟩
        · rw [hexecute] at hp
          cases hp
    | fromReturn =>
        obtain ⟨outer, rfl⟩ : ∃ outer, depth = outer + 1 := ⟨depth - 1, by have := hfits.1; omega⟩
        obtain ⟨c, rest, hcells, _⟩ := hframes.pop
        rw [fromReturn_of_returns (m := { m with ip := m.ip + 1 }) hcells] at hp
        cases hp
        exact ⟨Nat.lt_succ_self m.ip, Heap.Extends.refl _, rfl⟩
    | store => exact hfits.elim
    | jump => exact h.advances_jumpInline hforward hcell (Or.inl rfl) hip hfits hp
    | jumpIfFalse =>
        rcases popFlag_cases { m with ip := m.ip + 1 } with ⟨b, s, hpop⟩ | ⟨e, s, hpop⟩
        · rw [jumpIfFalse_of_popFlag_ok hpop] at hp
          cases b with
          | true =>
              cases hp
              exact ⟨Nat.lt_succ_of_lt (Nat.lt_succ_self m.ip), Heap.Extends.refl _, rfl⟩
          | false => exact h.advances_jumpInline hforward hcell (Or.inr rfl) hip hfits.1 hp
        · rw [jumpIfFalse_of_popFlag_error hpop] at hp
          cases hp
    | _ => exact absurd rfl hordinary

end InBalance

/-! ### Coming to the end of a body -/

/-- The machine stands at the end of the body that another one was in, with the return stack as it was
when the body was entered. -/
structure AtEnd (d : Depths) (base : List Cell) (m m' : Machine) : Prop where
  balance : InBalance d base 0 m'
  exit : m'.heap.get? m'.ip = some (.op .exit)
  returns : m'.returns.cells = base
  heap : m.heap.Extends m'.heap
  returnLimit : m'.returnLimit = m.returnLimit

/-- The loop fails or comes to the end of the body that it is in. -/
def EndsBody (d : Depths) (base : List Cell) (nested : Nat) (m : Machine) : Prop :=
  (∃ e m', Fails nested m e m') ∨ ∃ m', Steps nested m nested m' ∧ AtEnd d base m m'

namespace EndsBody

variable {d : Depths} {base : List Cell} {nested depth callee : Nat} {m m₁ : Machine}

theorem of_steps (hsteps : Steps nested m nested m₁) (hheap : m.heap.Extends m₁.heap)
    (hlimit : m₁.returnLimit = m.returnLimit) (h : EndsBody d base nested m₁) :
    EndsBody d base nested m := by
  rcases h with ⟨e, m', hfails⟩ | ⟨m', hrest, hend⟩
  · exact Or.inl ⟨e, m', hfails.of_steps hsteps⟩
  · exact Or.inr ⟨m', hsteps.trans hrest, hend.balance, hend.exit, hend.returns,
      hheap.trans hend.heap, hend.returnLimit.trans hlimit⟩

/-- A primitive fails or leads on to a place in balance further ahead. -/
theorem of_primitive {p : Primitive} (h : InBalance d base 0 m) (hforward : d.Forward m.heap)
    (hcell : m.heap.get? m.ip = some (.op (.primitive p)))
    (hnext : ∀ m', InBalance d base 0 m' → m.Advances m' → EndsBody d base nested m') :
    EndsBody d base nested m := by
  cases hp : p.execute { m with ip := m.ip + 1 } with
  | error e m' => exact Or.inl ⟨e, m', nested, m, .refl _ _, step_primitive_error hcell hp⟩
  | ok _ m' =>
      have hadvances := h.advances hforward hcell hp
      have hstep := h.step
      rw [step_primitive_ok hcell hp] at hstep
      exact of_steps (.single (step_primitive_ok hcell hp)) hadvances.heap hadvances.returnLimit
        (hnext m' hstep hadvances)

/-- A body that is entered fails or comes back to where it was entered from. -/
theorem of_body (hcell : m.heap.get? m.ip = some (.op (.body callee)))
    (hroom : m.returns.depth < m.returnLimit) (hlimit : m.ip + 1 < Cell.addressLimit)
    (hcalled : EndsBody d (Cell.ofAddress (m.ip + 1) :: m.returns.cells) (nested + 1)
      { m with ip := callee, returns := m.returns.push (Cell.ofAddress (m.ip + 1)) })
    (hnext : ∀ m', d.Balances m'.heap → d.OffsetsFilled m'.heap → m'.returns = m.returns →
      m.Advances m' → m'.ip = m.ip + 1 → EndsBody d base nested m') : EndsBody d base nested m := by
  have henter : Machine.step nested m = .ok (.more (nested + 1)) _ := step_body_ok hcell hroom
  rcases hcalled with ⟨e, m', hfails⟩ | ⟨m₁, hsteps, hend⟩
  · exact Or.inl ⟨e, m', hfails.of_steps (.single henter)⟩
  · have hreturns : m₁.returns = m.returns.push (Cell.ofAddress (m.ip + 1)) :=
      Stack.ext_cells hend.returns
    have hleave := step_exit_succ (n := nested) hend.exit hlimit hreturns
    exact of_steps (.head henter (hsteps.tail hleave)) hend.heap hend.returnLimit
      (hnext _ hend.balance.code hend.balance.offsets rfl
        ⟨Nat.lt_succ_self m.ip, hend.heap, hend.returnLimit⟩ rfl)

end EndsBody

/-- A body ends, however it is called.  All its code lies below `bound`, and the return stack has room for
so many cells above `base`. -/
theorem InBalance.endsBody {d : Depths} {base : List Cell} {bound room nested : Nat} {m : Machine}
    (h : InBalance d base 0 m) (hforward : d.Forward m.heap)
    (hbound : ∀ a depth, d a = some depth → a < bound) (hroom : m.returnLimit ≤ base.length + room) :
    EndsBody d base nested m := by
  induction room using Nat.strongRecOn generalizing base m nested with
  | ind room inner =>
  obtain ⟨distance, hdistance⟩ : ∃ distance, bound ≤ m.ip + distance := ⟨bound, by omega⟩
  induction distance generalizing m with
  | zero =>
      obtain ⟨depth, hip, _⟩ := h.frames
      have hbelow := hbound m.ip depth hip
      omega
  | succ distance ahead =>
      have hahead : ∀ m', InBalance d base 0 m' → m.Advances m' → EndsBody d base nested m' := by
        intro m' h' hadvances
        have hip := hadvances.ip
        exact ahead h' (hforward.of_extends h.code hadvances.heap) (hadvances.returnLimit ▸ hroom)
          (by omega)
      obtain ⟨depth, hip, hframes⟩ := h.frames
      obtain ⟨_, op, hcell, hfits⟩ := h.code m.ip depth hip
      cases op with
      | exit =>
          obtain rfl : depth = 0 := hfits
          exact Or.inr ⟨m, .refl _ _, h, hcell, hframes.finish, Heap.Extends.refl _, rfl⟩
      | primitive p => exact EndsBody.of_primitive h hforward hcell hahead
      | body callee =>
          by_cases hfull : m.returns.depth < m.returnLimit
          · have hbase : base.length ≤ m.returns.cells.length := hframes.suffix.length_le
            rw [Stack.depth_eq] at hfull
            -- the return address takes a cell, so that less room is left inside the body
            have hcalled : EndsBody d (Cell.ofAddress (m.ip + 1) :: m.returns.cells) (nested + 1)
                { m with ip := callee, returns := m.returns.push (Cell.ofAddress (m.ip + 1)) } := by
              apply inner (room - 1) (by omega)
              · exact ⟨h.code, h.offsets, h.capacity, 0, hfits.1, .outermost List.length_nil⟩
              · exact hforward
              · rw [List.length_cons]
                change m.returnLimit ≤ _
                omega
            apply EndsBody.of_body hcell (by rwa [Stack.depth_eq]) (h.address_lt hip) hcalled
            intro m' hcode hoffsets hreturns hadvances hback
            refine hahead m' ⟨hcode, hoffsets, ?_, depth, hback ▸ hfits.2, hreturns ▸ hframes⟩ hadvances
            exact hadvances.heap.capacity ▸ h.capacity
          · exact Or.inl ⟨_, _, nested, m, .refl _ _, step_body_error hcell hfull⟩

/-- A run of the loop that ends its outermost body has an answer. -/
theorem EndsBody.reaches_thread {d : Depths} {base : List Cell} {m : Machine}
    (h : EndsBody d base 0 m) : ∃ r, Reaches (fun fuel => thread fuel 0) m r := by
  rcases h with ⟨e, m', nested, m₁, hsteps, hstep⟩ | ⟨m', hsteps, hend⟩
  · exact ⟨_, hsteps.reaches ⟨1, thread_of_step_error 0 hstep⟩⟩
  · exact ⟨_, hsteps.reaches ⟨1, thread_of_step_finished 0 (step_exit_zero hend.exit)⟩⟩

/-- Recursion without backward jumps ends.  A call of balanced code in which every jump leads forward
has an answer, be it a success or an error, whatever is on the stacks and however the bodies call each
other and themselves. -/
theorem call_answers_of_forward {d : Depths} {m : Machine} {address : Nat} (hcode : d.Balances m.heap)
    (hforward : d.Forward m.heap) (hcapacity : m.heap.capacity < Cell.addressLimit)
    (haddress : d address = some 0) : ∃ r, Reaches (fun fuel => call fuel (.body address)) m r := by
  by_cases hroom : m.returns.depth < m.returnLimit
  · have hbalance : InBalance d (m.returns.push (Cell.ofAddress m.ip)).cells 0
        { m with ip := address, returns := m.returns.push (Cell.ofAddress m.ip) } :=
      ⟨hcode, hforward.offsetsFilled hcode, hcapacity, 0, haddress, .outermost List.length_nil⟩
    have hends : EndsBody d (m.returns.push (Cell.ofAddress m.ip)).cells 0 _ :=
      hbalance.endsBody hforward (fun a depth ha => (hcode a depth ha).1) (Nat.le_add_left _ _)
    obtain ⟨r, fuel, hthread⟩ := hends.reaches_thread
    cases r with
    | ok _ m₁ => exact ⟨_, fuel, (call_body_of_room hroom).trans (bind_of_ok hthread)⟩
    | error e m₁ => exact ⟨_, fuel, (call_body_of_room hroom).trans (bind_of_error hthread)⟩
  · exact ⟨_, 0, call_body_of_full hroom⟩

/-- A body that calls itself as long as it finds true flags on the data stack. -/
def recursiveCode : List Cell :=
  [.op (.primitive .jumpIfFalse), .int 2, .op (.body 0), .op .exit]

def recursiveDepths : Depths
  | 0 | 2 | 3 => some 0
  | _ => none

theorem call_answers_of_recursion :
    ∃ r, Reaches (fun fuel => call fuel (.body 0))
      { Machine.withCells recursiveCode 4 with data := .ofList [.flag true, .flag true, .flag false] }
      r := by
  apply call_answers_of_forward (d := recursiveDepths)
  · intro a depth ha
    match a, ha with
    | 0, ha => cases ha; exact ⟨by decide, _, rfl, ⟨2, 3, rfl, by decide, rfl⟩, rfl⟩
    | 2, ha => cases ha; exact ⟨by decide, _, rfl, rfl, rfl⟩
    | 3, ha => cases ha; exact ⟨by decide, _, rfl, rfl⟩
  · intro a depth p offset ha hcell _ hoffset
    match a, ha with
    | 0, _ => cases hoffset; decide
    | 2, _ | 3, _ => cases hcell
  · decide
  · rfl

end Forth

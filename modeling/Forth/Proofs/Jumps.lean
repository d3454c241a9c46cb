/-
Where jumps lead.  A jump adds the signed offset behind it to the unsigned instruction pointer, in the
arithmetic of cells.  The sum is nevertheless that of the integers: an instruction pointer from 2 ^ 63 on
would be negative as a cell, but then it is outside the heap and no offset is found.
-/
import Forth.Proofs.SessionInvariant
import Forth.Proofs.Steps

namespace Forth

open Machine Run

namespace Machine

variable {m m₁ : Machine} {p : Primitive} {s : Stack} {e : Error} {target n n₁ : Nat}

/-! ### What the offset at the instruction pointer tells -/

/-- The offset leads to the address: it is the exact sum of instruction pointer and offset, and it fits a
cell. -/
def LeadsTo (m : Machine) (target : Nat) : Prop :=
  ∃ offset : Int64, m.heap.get? m.ip = some (.int offset) ∧ (target : Int) = m.ip + offset.toInt ∧
    target < Cell.addressLimit

/-- Why there is nowhere to jump. -/
inductive Misleads (m : Machine) : Error → Prop where
  /-- No offset is there. -/
  | outside (hout : m.heap.capacity ≤ m.ip) : Misleads m .invalidAddress
  /-- The exact sum is negative, or it does not fit a cell. -/
  | beyond {offset : Int64} (hcell : m.heap.get? m.ip = some (.int offset))
      (hsum : (m.ip : Int) + offset.toInt < 0 ∨ (Cell.addressLimit : Int) ≤ m.ip + offset.toInt) :
      Misleads m .invalidAddress
  /-- The cell is no offset. -/
  | mistaken {c : Cell} (hcell : m.heap.get? m.ip = some c) (hkind : c.kind ≠ .int) :
      Misleads m (.typeMismatch Kind.int.name c.kind.name)

/-- What is there either leads somewhere or misleads. -/
theorem leadsTo_or_misleads (m : Machine) : (∃ target, m.LeadsTo target) ∨ ∃ e, m.Misleads e := by
  cases hcell : m.heap.get? m.ip with
  | none => exact Or.inr ⟨_, .outside (Heap.get?_eq_none_iff.mp hcell)⟩
  | some c =>
      cases c with
      | flag b => exact Or.inr ⟨_, .mistaken hcell nofun⟩
      | op o => exact Or.inr ⟨_, .mistaken hcell nofun⟩
      | int offset =>
          by_cases hsum :
              (m.ip : Int) + offset.toInt < 0 ∨ (Cell.addressLimit : Int) ≤ m.ip + offset.toInt
          · exact Or.inr ⟨_, .beyond hcell hsum⟩
          · obtain ⟨hlow, hhigh⟩ := not_or.mp hsum
            obtain ⟨target, htarget⟩ := Int.eq_ofNat_of_zero_le (Int.not_lt.mp hlow)
            have hlimit : target < Cell.addressLimit := by omega
            exact Or.inl ⟨target, offset, hcell, htarget.symm, hlimit⟩

/-! ### The jump -/

/-- An offset that can be read is at an address that a cell can tell. -/
theorem ip_lt_of_get? (hcapacity : m.heap.capacity < Cell.addressLimit) {c : Cell}
    (hcell : m.heap.get? m.ip = some c) : m.ip < Cell.addressLimit :=
  Nat.lt_trans (Heap.lt_capacity_of_get? hcell) hcapacity

theorem jumpInline_of_leadsTo (hcapacity : m.heap.capacity < Cell.addressLimit)
    (h : m.LeadsTo target) : Primitive.jumpInline m = .ok () { m with ip := target } := by
  obtain ⟨offset, hcell, htarget, hlimit⟩ := h
  exact jumpInline_of_get? hcell (ip_lt_of_get? hcapacity hcell) htarget hlimit

/-- A jump that fails leaves the machine as it was. -/
theorem jumpInline_of_misleads (hcapacity : m.heap.capacity < Cell.addressLimit)
    (h : m.Misleads e) : Primitive.jumpInline m = .error e m := by
  cases h with
  | outside hout => exact Action.bind_of_error (fetchHere_of_none (Heap.get?_eq_none_iff.mpr hout))
  | @beyond offset hcell hsum =>
      -- as the offset could be read, the instruction pointer is the same number as a cell
      have hrange : ¬ (0 ≤ (m.ip : Int) + offset.toInt ∧
          (m.ip : Int) + offset.toInt ≤ 9223372036854775807) := by
        unfold Cell.addressLimit at hsum
        omega
      have hjump : jumpBy offset m = .error .invalidAddress m := by
        simp only [jumpBy, Cell.toInt_ofNat_of_lt (ip_lt_of_get? hcapacity hcell), if_neg hrange]
      exact (Action.bind_of_ok (fetchHere_of_get? hcell)).trans hjump
  | @mistaken c hcell hkind =>
      have hfetch := fetchHere_of_get? hcell
      cases c with
      | int n => exact absurd rfl hkind
      | flag b => exact Action.bind_of_ok hfetch
      | op o => exact Action.bind_of_ok hfetch

/-! ### The two words that jump -/

/-- Executing the primitive is a jump, and the data stack behind it is known: the conditional branch jumps
on a flag that is false, and takes it. -/
inductive TakesJump (m : Machine) : Primitive → Stack → Prop where
  | always : TakesJump m .jump m.data
  | onFalse (hflag : m.data.top? = some (.flag false)) : TakesJump m .jumpIfFalse m.data.pop

/-- Both words jump alike, from a machine that has the flag no more. -/
theorem TakesJump.execute_eq (h : m.TakesJump p s) :
    p.execute m = Primitive.jumpInline { m with data := s } := by
  cases h with
  | always => rfl
  | onFalse hflag => exact jumpIfFalse_of_popFlag_ok (popFlag_of_top? hflag)

theorem Misleads.with_data (h : m.Misleads e) (s : Stack) : { m with data := s }.Misleads e := by
  cases h with
  | outside hout => exact .outside hout
  | beyond hcell hsum => exact .beyond hcell hsum
  | mistaken hcell hkind => exact .mistaken hcell hkind

theorem TakesJump.execute_of_leadsTo (h : m.TakesJump p s)
    (hcapacity : m.heap.capacity < Cell.addressLimit) (hleads : m.LeadsTo target) :
    p.execute m = .ok () { m with data := s, ip := target } := by
  rw [h.execute_eq]
  exact jumpInline_of_leadsTo hcapacity hleads

theorem TakesJump.execute_of_misleads (h : m.TakesJump p s)
    (hcapacity : m.heap.capacity < Cell.addressLimit) (hmisleads : m.Misleads e) :
    p.execute m = .error e { m with data := s } := by
  rw [h.execute_eq]
  exact jumpInline_of_misleads hcapacity (hmisleads.with_data s)

/-! ### Jumps in threaded code -/

/-- What holds across every elementary change of the state holds across the steps of a run. -/
theorem Steps.keeps {R : Machine → Machine → Prop} (hR : Elementary R) (h : Steps n m n₁ m₁) :
    R m m₁ := by
  induction h with
  | refl n m => exact hR.refl m
  | @head n n₁ _ m m₁ _ hstep _ ih =>
      have hfirst := hR.keeps_step n m
      rw [hstep] at hfirst
      exact hR.trans hfirst ih

theorem Steps.capacity_eq (h : Steps n m n₁ m₁) : m₁.heap.capacity = m.heap.capacity :=
  (h.keeps evolves_elementary).grows.capacity

/-- A run that comes to a jump goes on at the exact sum if that is in the heap.  If it is behind the heap
the run fails there, and if there is nowhere to jump it fails behind the word: no other cell is ever
executed. -/
theorem run_of_jump {a : Nat} (hcapacity : m.heap.capacity < Cell.addressLimit)
    (hsteps : Steps 0 { m with ip := a } n m₁)
    (hcell : m₁.heap.get? m₁.ip = some (.op (.primitive p)))
    (hjump : { m₁ with ip := m₁.ip + 1 }.TakesJump p s) :
    (∃ target < m.heap.capacity, { m₁ with ip := m₁.ip + 1 }.LeadsTo target ∧
        Steps 0 { m with ip := a } n { m₁ with data := s, ip := target }) ∨
      (∃ target ≥ m.heap.capacity, { m₁ with ip := m₁.ip + 1 }.LeadsTo target ∧
        Reaches (fun fuel => run fuel a) m
          (.error .invalidAddress { m₁ with data := s, ip := target })) ∨
      ∃ e, { m₁ with ip := m₁.ip + 1 }.Misleads e ∧
        Reaches (fun fuel => run fuel a) m (.error e { m₁ with data := s, ip := m₁.ip + 1 }) := by
  have hsame : m₁.heap.capacity = m.heap.capacity := hsteps.capacity_eq
  have hbound : m₁.heap.capacity < Cell.addressLimit := hsame ▸ hcapacity
  rcases leadsTo_or_misleads { m₁ with ip := m₁.ip + 1 } with ⟨target, hleads⟩ | ⟨e, hmisleads⟩
  · have hexecute := hjump.execute_of_leadsTo hbound hleads
    have hlanded := hsteps.tail (step_primitive_ok hcell hexecute)
    rcases Nat.lt_or_ge target m.heap.capacity with hin | hout
    · exact Or.inl ⟨target, hin, hleads, hlanded⟩
    · have hnothing : step n { m₁ with data := s, ip := target } = .error .invalidAddress _ :=
        step_of_le (Nat.le_trans (Nat.le_of_eq hsame) hout)
      exact Or.inr (Or.inl ⟨target, hout, hleads, hlanded.reaches ⟨1, thread_of_step_error 0 hnothing⟩⟩)
  · have hexecute := hjump.execute_of_misleads hbound hmisleads
    have hfails := thread_of_step_error 0 (step_primitive_error (n := n) hcell hexecute)
    exact Or.inr (Or.inr ⟨e, hmisleads, hsteps.reaches ⟨1, hfails⟩⟩)

end Machine

/-! ### Exactness -/

/-- Jumps never wrap.  A jump succeeds exactly if the offset leads to an address, and then the instruction
pointer is that exact sum; it fails exactly if the offset misleads, and then only the flag is gone. -/
theorem jumps_land_exactly {m : Machine} {p : Primitive} {s : Stack}
    (hcapacity : m.heap.capacity < Cell.addressLimit) (hjump : m.TakesJump p s) :
    (∀ m', p.execute m = .ok () m' ↔
      ∃ target, m.LeadsTo target ∧ m' = { m with data := s, ip := target }) ∧
    ∀ e m', p.execute m = .error e m' ↔ m.Misleads e ∧ m' = { m with data := s } := by
  have hlands {target : Nat} (h : m.LeadsTo target) := hjump.execute_of_leadsTo hcapacity h
  have hfails {e : Error} (h : m.Misleads e) := hjump.execute_of_misleads hcapacity h
  constructor
  · intro m'
    constructor
    · intro h
      rcases m.leadsTo_or_misleads with ⟨target, hleads⟩ | ⟨e, hmisleads⟩
      · cases h.symm.trans (hlands hleads)
        exact ⟨target, hleads, rfl⟩
      · cases h.symm.trans (hfails hmisleads)
    · rintro ⟨target, hleads, rfl⟩
      exact hlands hleads
  · intro e m'
    constructor
    · intro h
      rcases m.leadsTo_or_misleads with ⟨target, hleads⟩ | ⟨e', hmisleads⟩
      · cases h.symm.trans (hlands hleads)
      · cases h.symm.trans (hfails hmisleads)
        exact ⟨hmisleads, rfl⟩
    · rintro ⟨hmisleads, rfl⟩
      exact hfails hmisleads

/-- A machine with the greatest offset at its first two addresses, and a flag that is false. -/
def Machine.farJumping (ip : Nat) : Machine :=
  { Machine.new 2 with
    heap := ⟨#[.int 9223372036854775807, .int 9223372036854775807], 2⟩
    ip := ip
    data := Stack.ofList [.flag false] }

/-- From the first address the greatest offset leads to the last number that a cell can tell.  One address
further it leads nowhere, and neither does anything at the greatest instruction pointer, which as a cell
would be `-1`. -/
theorem jumps_land_exactly_farthest :
    Primitive.execute .jump (Machine.farJumping 0) =
        .ok () { Machine.farJumping 0 with ip := 9223372036854775807 } ∧
      Primitive.execute .jumpIfFalse (Machine.farJumping 1) =
        .error .invalidAddress { Machine.farJumping 1 with data := Stack.empty } ∧
      Primitive.execute .jump (Machine.farJumping 18446744073709551615) =
        .error .invalidAddress (Machine.farJumping 18446744073709551615) := by
  have hfirst : (Machine.farJumping 0).LeadsTo 9223372036854775807 :=
    ⟨9223372036854775807, rfl, by decide, by decide⟩
  have hoffset : (Machine.farJumping 1).heap.get? 1 = some (.int 9223372036854775807) := rfl
  have hsecond : (Machine.farJumping 1).Misleads .invalidAddress := .beyond hoffset (by decide)
  have hlast : (Machine.farJumping 18446744073709551615).Misleads .invalidAddress :=
    .outside (by decide)
  refine ⟨?_, ?_, ?_⟩
  · exact ((jumps_land_exactly (by decide) .always).1 _).mpr ⟨_, hfirst, rfl⟩
  · exact ((jumps_land_exactly (by decide) (.onFalse rfl)).2 _ _).mpr ⟨hsecond, rfl⟩
  · exact ((jumps_land_exactly (by decide) .always).2 _ _).mpr ⟨hlast, rfl⟩

end Forth

/-
Counted loops run the right indices.  The execution of a loop is cut into rounds of its body; between
them the cells behind the body count, and the stacks are handed on.
-/
import Forth.Proofs.SessionInvariant
import Forth.Proofs.Structured.Layout

namespace Forth

open Machine Run

namespace Machine

/-- The machine at another address, with other stacks. -/
def standing (m : Machine) (ip : Nat) (data returns : Stack) : Machine :=
  { m with ip := ip, data := data, returns := returns }

/-- Steps of which none is taken, with so many bodies open, from an address in a range. -/
inductive Avoiding (level low high : Nat) : Nat → Machine → Nat → Machine → Prop where
  | refl (n : Nat) (m : Machine) : Avoiding level low high n m n m
  | head {n n₁ n₂ : Nat} {m m₁ m₂ : Machine} :
      ¬ (n = level ∧ low ≤ m.ip ∧ m.ip < high) → step n m = .ok (.more n₁) m₁ →
        Avoiding level low high n₁ m₁ n₂ m₂ → Avoiding level low high n m n₂ m₂

namespace Avoiding

variable {level low high n n₁ n₂ : Nat} {m m₁ m₂ : Machine}

theorem single (haway : ¬ (n = level ∧ low ≤ m.ip ∧ m.ip < high))
    (hstep : step n m = .ok (.more n₁) m₁) : Avoiding level low high n m n₁ m₁ :=
  .head haway hstep (.refl _ _)

theorem trans (h : Avoiding level low high n m n₁ m₁) (h' : Avoiding level low high n₁ m₁ n₂ m₂) :
    Avoiding level low high n m n₂ m₂ := by
  induction h with
  | refl => exact h'
  | head haway hstep _ ih => exact .head haway hstep (ih h')

theorem steps (h : Avoiding level low high n m n₁ m₁) : Steps n m n₁ m₁ := by
  induction h with
  | refl => exact .refl _ _
  | head _ hstep _ ih => exact .head hstep ih

/-- There is one way into the range. -/
theorem unique (h : Avoiding level low high n m n₁ m₁) (h' : Avoiding level low high n m n₂ m₂)
    (hin : n₁ = level ∧ low ≤ m₁.ip ∧ m₁.ip < high) (hin' : n₂ = level ∧ low ≤ m₂.ip ∧ m₂.ip < high) :
    m₁ = m₂ := by
  induction h with
  | refl =>
      -- no step is taken from the range, so neither execution goes on behind the first arrival
      cases h' with
      | refl => rfl
      | head haway _ _ => exact absurd hin haway
  | head haway hstep _ ih =>
      cases h' with
      | refl => exact absurd hin' haway
      | head _ hstep' hrest =>
          cases hstep.symm.trans hstep'
          exact ih hrest hin

theorem returnLimit (h : Avoiding level low high n m n₁ m₁) : m₁.returnLimit = m.returnLimit := by
  induction h with
  | refl => rfl
  | @head n n₁ _ m m₁ _ _ hstep _ ih =>
      have hkept : m.Evolves (Outcome.machine (step n m)) := evolves_elementary.keeps_step n m
      rw [hstep] at hkept
      exact ih.trans hkept.bounded.limit

/-! ### Single cells -/

section

variable {x : Nat} {d : Stack} {r : Stack}

theorem primitive {p : Primitive} (hcell : m.heap.get? x = some (.op (.primitive p)))
    (haway : ¬ (n = level ∧ low ≤ x ∧ x < high))
    (hp : p.execute (m.standing (x + 1) d r) = .ok () m₁) :
    Avoiding level low high n (m.standing x d r) n m₁ :=
  .single haway (step_primitive_ok (m := m.standing x d r) hcell hp)

theorem toReturn {c : Cell} (hcell : m.heap.get? x = some (.op (.primitive .toReturn)))
    (haway : ¬ (n = level ∧ low ≤ x ∧ x < high)) (hroom : r.depth < m.returnLimit) :
    Avoiding level low high n (m.standing x (d.push c) r) n (m.standing (x + 1) d (r.push c)) := by
  apply primitive hcell haway
  change pushReturn c (m.standing (x + 1) d r) = _
  exact if_pos hroom

theorem fromReturn {c : Cell} (hcell : m.heap.get? x = some (.op (.primitive .fromReturn)))
    (haway : ¬ (n = level ∧ low ≤ x ∧ x < high)) :
    Avoiding level low high n (m.standing x d (r.push c)) n (m.standing (x + 1) (d.push c) r) :=
  primitive hcell haway rfl

theorem literal {c : Cell} (hcell : m.heap.get? x = some (.op (.primitive .lit)))
    (hvalue : m.heap.get? (x + 1) = some c) (haway : ¬ (n = level ∧ low ≤ x ∧ x < high)) :
    Avoiding level low high n (m.standing x d r) n (m.standing (x + 2) (d.push c) r) :=
  primitive hcell haway (pushInline_of_get? (m := m.standing (x + 1) d r) hvalue)

theorem enter {a : Nat} (hcell : m.heap.get? x = some (.op (.body a)))
    (haway : ¬ (n = level ∧ low ≤ x ∧ x < high)) (hroom : r.depth < m.returnLimit) :
    Avoiding level low high n (m.standing x d r) (n + 1)
      (m.standing a d (r.push (Cell.ofAddress (x + 1)))) :=
  .single haway (step_body_ok (m := m.standing x d r) hcell hroom)

theorem leave {a : Nat} (hcell : m.heap.get? x = some (.op .exit))
    (haway : ¬ (n + 1 = level ∧ low ≤ x ∧ x < high)) (ha : a < Cell.addressLimit) :
    Avoiding level low high (n + 1) (m.standing x d (r.push (Cell.ofAddress a))) n (m.standing a d r) :=
  .single haway (step_exit_succ (m := m.standing x d (r.push (Cell.ofAddress a))) hcell ha rfl)

/-! ### Words of the library -/

/-- Copies the cell below the top. -/
theorem overWord (hwords : StackWord.Present m.heap) (hlevel : level ≤ n) {c e : Cell}
    (hcell : m.heap.get? x = some (.op (.body StackWord.overWord.address)))
    (haway : ¬ (n = level ∧ low ≤ x ∧ x < high)) (hx : x + 1 < Cell.addressLimit)
    (hroom : r.depth + 2 ≤ m.returnLimit) :
    Avoiding level low high n (m.standing x ((d.push c).push e) r) n
      (m.standing (x + 1) (((d.push c).push e).push c) r) := by
  have hcode : ∀ {i c}, _ → m.heap.get? (0 + i) = some c := fun {i c} hi => (hwords .overWord i c hi).2
  have hinside : ∀ {y}, ¬ (n + 1 = level ∧ low ≤ y ∧ y < high) := by omega
  have henter := enter (d := (d.push c).push e) hcell haway (show r.depth < m.returnLimit by omega)
  have haside := toReturn (d := d.push c) (c := e) (hcode (i := 0) rfl) hinside
    (show (r.push (Cell.ofAddress (x + 1))).depth < m.returnLimit from hroom)
  have hdup := henter.trans (haside.trans (primitive (hcode (i := 1) rfl) hinside rfl))
  have hback := hdup.trans (fromReturn (hcode (i := 2) rfl) hinside)
  have hswap := hback.trans (primitive (hcode (i := 3) rfl) hinside rfl)
  exact hswap.trans (leave (hcode (i := 4) rfl) hinside hx)

/-- Copies the two topmost cells. -/
theorem twoDup (hwords : StackWord.Present m.heap) (hlevel : level ≤ n) {c e : Cell}
    (hcell : m.heap.get? x = some (.op (.body StackWord.twoDup.address)))
    (haway : ¬ (n = level ∧ low ≤ x ∧ x < high)) (hx : x + 1 < Cell.addressLimit)
    (hroom : r.depth + 3 ≤ m.returnLimit) :
    Avoiding level low high n (m.standing x ((d.push c).push e) r) n
      (m.standing (x + 1) ((((d.push c).push e).push c).push e) r) := by
  have hcode : ∀ {i c}, _ → m.heap.get? (19 + i) = some c := fun {i c} hi => (hwords .twoDup i c hi).2
  have hinside : ∀ {y}, ¬ (n + 1 = level ∧ low ≤ y ∧ y < high) := by omega
  have hdeep : (r.push (Cell.ofAddress (x + 1))).depth + 2 ≤ m.returnLimit := by
    change r.depth + 1 + 2 ≤ m.returnLimit
    omega
  have henter := enter (d := (d.push c).push e) hcell haway (show r.depth < m.returnLimit by omega)
  have hfirst := henter.trans (overWord hwords (by omega) (hcode (i := 0) rfl) hinside (by decide) hdeep)
  have hsecond := hfirst.trans (overWord hwords (by omega) (hcode (i := 1) rfl) hinside (by decide) hdeep)
  exact hsecond.trans (leave (hcode (i := 2) rfl) hinside hx)

/-- Drops the two topmost cells. -/
theorem twoDrop (hwords : StackWord.Present m.heap) (hlevel : level ≤ n) {c e : Cell}
    (hcell : m.heap.get? x = some (.op (.body StackWord.twoDrop.address)))
    (haway : ¬ (n = level ∧ low ≤ x ∧ x < high)) (hx : x + 1 < Cell.addressLimit)
    (hroom : r.depth < m.returnLimit) :
    Avoiding level low high n (m.standing x ((d.push c).push e) r) n (m.standing (x + 1) d r) := by
  have hcode : ∀ {i c}, _ → m.heap.get? (22 + i) = some c := fun {i c} hi => (hwords .twoDrop i c hi).2
  have hinside : ∀ {y}, ¬ (n + 1 = level ∧ low ≤ y ∧ y < high) := by omega
  have henter := enter (d := (d.push c).push e) hcell haway hroom
  have hfirst := henter.trans (primitive (hcode (i := 0) rfl) hinside rfl)
  have hsecond := hfirst.trans (primitive (hcode (i := 1) rfl) hinside rfl)
  exact hsecond.trans (leave (hcode (i := 2) rfl) hinside hx)

end

end Avoiding

end Machine

/-- A counted loop that is executed. -/
structure CountedLoop where
  /-- The number of bodies that are open around the loop. -/
  nested : Nat
  /-- Where the code of the loop lies. -/
  address : Nat
  /-- The code between `do` and `loop`. -/
  cells : List Cell
  /-- The return stack around the loop. -/
  returns : Stack
  limit : Int64
  start : Int64

namespace CountedLoop

variable {l : CountedLoop} {m m₀ m₁ m₂ : Machine} {r : Nat}

/-- Where the body begins. -/
def body (l : CountedLoop) : Nat :=
  l.address + 3

/-- Where the body ends. -/
def stop (l : CountedLoop) : Nat :=
  l.body + l.cells.length

/-- How often the body is to be executed. -/
def rounds (l : CountedLoop) : Nat :=
  max 1 (l.limit.toInt - l.start.toInt).toNat

/-- The index of a round. -/
def index (l : CountedLoop) (r : Nat) : Int64 :=
  .ofInt (l.start.toInt + r)

/-- The machine before the loop, with the operands of `do`. -/
def before (l : CountedLoop) (m : Machine) : Machine :=
  m.standing l.address ((m.data.push (.int l.limit)).push (.int l.start)) l.returns

/-- The machine before a round: limit and index are on the return stack. -/
def entering (l : CountedLoop) (r : Nat) (m : Machine) : Machine :=
  m.standing l.body m.data ((l.returns.push (.int l.limit)).push (.int (l.index r)))

/-- The machine behind the loop. -/
def leaving (l : CountedLoop) (m : Machine) : Machine :=
  m.standing (l.stop + 15) m.data l.returns

/-- The body, entered for a round, comes to its end for the first time on the machine given last, with the
return stack and the heap as it found them. -/
structure FallsThrough (l : CountedLoop) (r : Nat) (m m' : Machine) : Prop where
  run : Avoiding l.nested l.stop (l.stop + 1) l.nested (l.entering r m) l.nested m'
  ip : m'.ip = l.stop
  returns : m'.returns = (l.entering r m).returns
  heap : m'.heap = m.heap

/-- The loop, which begins on the machine given first, enters its body for a round on the machine given
last; the rounds before have fallen through, and between them no cell of the body was executed. -/
inductive Enters (l : CountedLoop) (m₀ m : Machine) : Nat → Machine → Prop where
  | first : Avoiding l.nested l.body l.stop l.nested m₀ l.nested (l.entering 0 m) → Enters l m₀ m 0 m
  | next {r : Nat} {m₁ m₂ : Machine} :
      Enters l m₀ m r m₁ → l.FallsThrough r m₁ m₂ →
        Avoiding l.nested l.body l.stop l.nested m₂ l.nested (l.entering (r + 1) m₂) →
          Enters l m₀ m (r + 1) m₂

/-- The code of the loop and of the words that it calls is in the heap, and there is room on the return
stack. -/
structure Lies (l : CountedLoop) (m : Machine) : Prop where
  code : m.heap.Holds l.address (CountedWord.fragment l.cells)
  words : StackWord.Present m.heap
  capacity : m.heap.capacity < Cell.addressLimit
  room : l.returns.depth + 5 ≤ m.returnLimit

/-! ### Indices -/

theorem toInt_index_of_lt (hr : l.start.toInt + r < Cell.addressLimit) :
    (l.index r).toInt = l.start.toInt + r := by
  have hlow := l.start.le_toInt
  apply Cell.toInt_ofInt_of_lt _ hr
  simp only [Cell.addressLimit]
  omega

theorem toInt_index (hr : r < l.rounds) : (l.index r).toInt = l.start.toInt + r := by
  have hstart := l.start.toInt_lt
  have hlimit := l.limit.toInt_lt
  simp only [rounds] at hr
  apply toInt_index_of_lt
  simp only [Cell.addressLimit]
  omega

theorem index_zero (l : CountedLoop) : l.index 0 = l.start := by
  simp [index]

theorem index_succ (l : CountedLoop) (r : Nat) : l.index r + 1 = l.index (r + 1) := by
  have hone : (1 : Int64) = .ofInt 1 := rfl
  rw [index, index, hone, ← Int64.ofInt_add, Int.add_assoc]
  rfl

/-- The index that is counted up to is below the limit as long as there are rounds to come. -/
theorem index_lt_limit_iff (hstart : l.start ≠ Int64.maxValue) (hr : r < l.rounds) :
    l.index (r + 1) < l.limit ↔ r + 1 < l.rounds := by
  have hbelow : l.start.toInt ≠ Int64.maxValue.toInt := fun h => hstart (Int64.toInt_inj.mp h)
  have hmax : Int64.maxValue.toInt = 9223372036854775807 := rfl
  have hlimit := l.limit.toInt_lt
  have hstart := l.start.toInt_lt
  simp only [rounds] at hr ⊢
  rw [Int64.lt_iff_toInt_lt, toInt_index_of_lt]
  · omega
  · simp only [Cell.addressLimit]
    omega

/-! ### The code around the body -/

namespace Lies

theorem of_fallsThrough (h : l.Lies m₁) (hfalls : l.FallsThrough r m₁ m₂) : l.Lies m₂ := by
  have hlimit : m₂.returnLimit = m₁.returnLimit := hfalls.run.returnLimit
  refine ⟨?_, ?_, ?_, ?_⟩
  · rw [hfalls.heap]
    exact h.code
  · rw [hfalls.heap]
    exact h.words
  · rw [hfalls.heap]
    exact h.capacity
  · rw [hlimit]
    exact h.room

theorem of_enters (h : l.Lies m) (henters : l.Enters m₀ m r m₁) : l.Lies m₁ := by
  induction henters with
  | first => exact h
  | next _ hfalls _ ih => exact ih.of_fallsThrough hfalls

theorem opening (h : l.Lies m) {i : Nat} {c : Cell} (hi : CountedWord.opening[i]? = some c) :
    m.heap.get? (l.address + i) = some c := by
  have hcode := h.code
  rw [CountedWord.fragment, List.append_assoc, Heap.holds_append] at hcode
  exact (hcode.1 i c hi).2

/-- The cells behind the body. -/
theorem behind (h : l.Lies m) {i : Nat} {c : Cell}
    (hi : (CountedWord.counting ++ Program.jumpCells .jumpIfFalse (-(l.cells.length + 11)) ++
      CountedWord.closing)[i]? = some c) :
    m.heap.get? (l.stop + i) = some c := by
  have hcode := h.code
  rw [CountedWord.fragment, Heap.holds_append, List.length_append] at hcode
  have hcell := (hcode.2 i c hi).2
  rwa [← Nat.add_assoc] at hcell

theorem stop_lt (h : l.Lies m) : l.stop + 15 < Cell.addressLimit := by
  have hlast : m.heap.get? (l.stop + 14) = _ := h.behind rfl
  exact Nat.lt_of_le_of_lt (Heap.lt_capacity_of_get? hlast) h.capacity

/-- Limit and index are put on the return stack. -/
theorem opens (h : l.Lies m) :
    Avoiding l.nested l.body l.stop l.nested (l.before m) l.nested (l.entering 0 m) := by
  have hroom := h.room
  have hbody : l.body = l.address + 3 := rfl
  have hswap : Avoiding l.nested l.body l.stop l.nested (l.before m) l.nested
      (m.standing (l.address + 1) ((m.data.push (.int l.start)).push (.int l.limit)) l.returns) :=
    .primitive (h.opening (i := 0) rfl) (by omega) rfl
  have hlimit := hswap.trans (.toReturn (h.opening (i := 1) rfl) (by omega) (by omega))
  have hindex := hlimit.trans (.toReturn (h.opening (i := 2) rfl) (by omega)
    (show l.returns.depth + 1 < m.returnLimit by omega))
  rw [entering, index_zero]
  exact hindex

/-- The index is increased and compared with the limit. -/
theorem counts (h : l.Lies m) (r : Nat) :
    Avoiding l.nested l.body l.stop l.nested
      (m.standing l.stop m.data ((l.returns.push (.int l.limit)).push (.int (l.index r)))) l.nested
      (m.standing (l.stop + 10) (m.data.push (.flag (!decide (l.index (r + 1) < l.limit))))
        ((l.returns.push (.int l.limit)).push (.int (l.index (r + 1))))) := by
  have hroom := h.room
  have hstop := h.stop_lt
  have haway : ∀ i, ¬ (l.nested = l.nested ∧ l.body ≤ l.stop + i ∧ l.stop + i < l.stop) := by omega
  have hindex := Avoiding.fromReturn (d := m.data) (r := l.returns.push (.int l.limit))
    (c := .int (l.index r)) (h.behind (i := 0) rfl) (haway 0)
  have hone := hindex.trans (.literal (h.behind (i := 1) rfl) (h.behind (i := 2) rfl) (haway 1))
  have hadd : Avoiding l.nested l.body l.stop l.nested _ l.nested
      (m.standing (l.stop + 4) (m.data.push (.int (l.index (r + 1)))) (l.returns.push (.int l.limit))) :=
    hone.trans (.primitive (h.behind (i := 3) rfl) (haway 3) (by rw [← index_succ]; rfl))
  have hlimit := hadd.trans (.fromReturn (h.behind (i := 4) rfl) (haway 4))
  have hdup := hlimit.trans (.twoDup h.words (Nat.le_refl _) (h.behind (i := 5) rfl) (haway 5) (by omega)
    (by omega))
  have hback := hdup.trans (.toReturn (h.behind (i := 6) rfl) (haway 6) (by omega))
  have hback' := hback.trans (.toReturn (h.behind (i := 7) rfl) (haway 7)
    (show l.returns.depth + 1 < m.returnLimit by omega))
  have hless : Avoiding l.nested l.body l.stop l.nested _ l.nested
      (m.standing (l.stop + 9) (m.data.push (.flag (decide (l.index (r + 1) < l.limit))))
        ((l.returns.push (.int l.limit)).push (.int (l.index (r + 1))))) :=
    hback'.trans (.primitive (h.behind (i := 8) rfl) (haway 8) rfl)
  exact hless.trans (.primitive (h.behind (i := 9) rfl) (haway 9) rfl)

/-- Below the limit the body is entered again. -/
theorem repeats (h : l.Lies m) (hbelow : l.index (r + 1) < l.limit) :
    Avoiding l.nested l.body l.stop l.nested
      (m.standing l.stop m.data ((l.returns.push (.int l.limit)).push (.int (l.index r)))) l.nested
      (l.entering (r + 1) m) := by
  have hstop := h.stop_lt
  have hbody : l.stop = l.body + l.cells.length := rfl
  have hcount := h.counts r
  rw [decide_eq_true hbelow] at hcount
  refine hcount.trans (.primitive (h.behind (i := 10) rfl) (by omega) ?_)
  have hoffset : (Int64.ofInt (-(l.cells.length + 11))).toInt = -(l.cells.length + 11) := by
    apply Cell.toInt_ofInt_of_lt <;> omega
  rw [jumpIfFalse_of_popFlag_ok (b := false) rfl]
  exact jumpInline_of_get? (h.behind (i := 11) rfl) (show l.stop + 11 < _ by omega)
    (show (l.body : Int) = (l.stop + 11 : Nat) + _ by rw [hoffset]; omega) (by omega)

/-- At the limit the loop is left. -/
theorem ends (h : l.Lies m) (habove : ¬ l.index (r + 1) < l.limit) :
    Avoiding l.nested l.body l.stop l.nested
      (m.standing l.stop m.data ((l.returns.push (.int l.limit)).push (.int (l.index r)))) l.nested
      (l.leaving m) := by
  have hroom := h.room
  have hstop := h.stop_lt
  have haway : ∀ i, ¬ (l.nested = l.nested ∧ l.body ≤ l.stop + i ∧ l.stop + i < l.stop) := by omega
  have hcount := h.counts r
  rw [decide_eq_false habove] at hcount
  have hjump : Avoiding l.nested l.body l.stop l.nested _ l.nested
      (m.standing (l.stop + 12) m.data ((l.returns.push (.int l.limit)).push (.int (l.index (r + 1))))) :=
    hcount.trans (.primitive (h.behind (i := 10) rfl) (haway 10)
      (by rw [jumpIfFalse_of_popFlag_ok (b := true) rfl]; rfl))
  have hindex := hjump.trans (.fromReturn (h.behind (i := 12) rfl) (haway 12))
  have hlimit := hindex.trans (.fromReturn (h.behind (i := 13) rfl) (haway 13))
  exact hlimit.trans (.twoDrop h.words (Nat.le_refl _) (h.behind (i := 14) rfl) (haway 14) (by omega)
    (by omega))

end Lies

theorem FallsThrough.eq_standing (h : l.FallsThrough r m₁ m₂) :
    m₂ = m₂.standing l.stop m₂.data ((l.returns.push (.int l.limit)).push (.int (l.index r))) := by
  have hip := h.ip
  have hreturns : m₂.returns = (l.returns.push (.int l.limit)).push (.int (l.index r)) := h.returns
  rw [standing, ← hip, ← hreturns]

/-- A round has one end. -/
theorem FallsThrough.unique (h : l.FallsThrough r m m₁) (h' : l.FallsThrough r m m₂) : m₁ = m₂ := by
  have hip := h.ip
  have hip' := h'.ip
  exact h.run.unique h'.run ⟨rfl, by omega⟩ ⟨rfl, by omega⟩

/-- Every round is reached, by induction on the rounds before it. -/
theorem Lies.exists_enters (h : l.Lies m) (hstart : l.start ≠ Int64.maxValue)
    (hbody : ∀ r < l.rounds, ∀ m₁, l.Enters (l.before m) m r m₁ → ∃ m₂, l.FallsThrough r m₁ m₂)
    (hr : r < l.rounds) : ∃ m₁, l.Enters (l.before m) m r m₁ := by
  induction r with
  | zero => exact ⟨m, .first h.opens⟩
  | succ r ih =>
      have hbefore : r < l.rounds := Nat.lt_of_succ_lt hr
      obtain ⟨m₁, henters⟩ := ih hbefore
      obtain ⟨m₂, hfalls⟩ := hbody r hbefore m₁ henters
      have hagain := ((h.of_enters henters).of_fallsThrough hfalls).repeats
        ((index_lt_limit_iff hstart hbefore).mpr hr)
      rw [← hfalls.eq_standing] at hagain
      exact ⟨m₂, .next henters hfalls hagain⟩

end CountedLoop

/-- Counted loops run the right indices.  If the body, entered with limit and index on the return stack and
with the data stack that the round before has left, falls through in each round, then the loop executes it
once for each index from the start up to below the limit, but at least once; `i` gives the index and `j` the
limit.  The loop ends behind its code, with the return stack as it was. -/
theorem counted_loop_runs_indices {l : CountedLoop} {m : Machine} (h : l.Lies m)
    (hstart : l.start ≠ Int64.maxValue)
    (hbody : ∀ r < l.rounds, ∀ m₁, l.Enters (l.before m) m r m₁ → ∃ m₂, l.FallsThrough r m₁ m₂) :
    (∃ m₁ m₂, l.Enters (l.before m) m (l.rounds - 1) m₁ ∧ l.FallsThrough (l.rounds - 1) m₁ m₂ ∧
      Avoiding l.nested l.body l.stop l.nested m₂ l.nested (l.leaving m₂)) ∧
    ∀ r < l.rounds, (l.index r).toInt = l.start.toInt + r ∧ ∀ m₁,
      Primitive.execute .loopIndex (l.entering r m₁) =
          .ok () { l.entering r m₁ with data := m₁.data.push (.int (l.index r)) } ∧
        Primitive.execute .loopLimit (l.entering r m₁) =
          .ok () { l.entering r m₁ with data := m₁.data.push (.int l.limit) } := by
  have hpositive : 0 < l.rounds := Nat.le_max_left _ _
  have hlast : l.rounds - 1 < l.rounds := Nat.sub_one_lt_of_lt hpositive
  obtain ⟨m₁, henters⟩ := h.exists_enters hstart hbody hlast
  obtain ⟨m₂, hfalls⟩ := hbody _ hlast m₁ henters
  have hover : ¬ l.index (l.rounds - 1 + 1) < l.limit := by
    rw [CountedLoop.index_lt_limit_iff hstart hlast]
    omega
  have hend := ((h.of_enters henters).of_fallsThrough hfalls).ends hover
  rw [← hfalls.eq_standing] at hend
  exact ⟨⟨m₁, m₂, henters, hfalls, hend⟩, fun r hr => ⟨CountedLoop.toInt_index hr, fun _ => ⟨rfl, rfl⟩⟩⟩

/-- A loop whose body leaves the index on the data stack. -/
def CountedLoop.collecting : CountedLoop where
  nested := 0
  address := 185
  cells := [.op (.primitive .loopIndex)]
  returns := Stack.empty
  limit := 3
  start := 0

/-- A machine with that loop behind the library. -/
def Machine.withCollecting : Machine :=
  { booted 300 with heap := (booted 300).heap.fill (CountedWord.fragment CountedLoop.collecting.cells) }

theorem CountedLoop.lies_collecting : collecting.Lies withCollecting where
  code := by
    have hroom : (booted 300).heap.here + (CountedWord.fragment collecting.cells).length ≤
        (booted 300).heap.capacity := by
      simp [CountedWord.fragment, CountedWord.opening, CountedWord.counting, CountedWord.closing, collecting]
    have hholds := Heap.holds_fill hroom
    rwa [here_booted] at hholds
  words := fun w => ((intact_booted (by decide)).stackCode w).of_extends (Heap.extends_fill _ _)
  capacity := by
    simp [withCollecting]
    decide
  room := by decide

/-- A round leaves its index. -/
theorem CountedLoop.fallsThrough_collecting {m : Machine} (h : collecting.Lies m) (r : Nat) :
    collecting.FallsThrough r m ((collecting.entering r m).standing 189
      (m.data.push (.int (collecting.index r))) (collecting.entering r m).returns) where
  run := by
    have hcell := (h.code 3 _ rfl).2
    exact .primitive (x := 188) hcell (by decide) rfl
  ip := rfl
  returns := rfl
  heap := rfl

theorem CountedLoop.data_of_fallsThrough_collecting {m m' : Machine} (h : collecting.Lies m) {r : Nat}
    (hfalls : collecting.FallsThrough r m m') : m'.data = m.data.push (.int (collecting.index r)) := by
  cases hfalls.unique (fallsThrough_collecting h r)
  rfl

/-- From 0 up to below 3, the indices are 0, 1 and 2. -/
theorem counted_loop_runs_indices_from_zero :
    CountedLoop.collecting.start ≠ Int64.maxValue ∧ CountedLoop.collecting.rounds = 3 ∧
      ∃ m₁ m₂, CountedLoop.collecting.Enters (CountedLoop.collecting.before withCollecting) withCollecting 2 m₁ ∧
        CountedLoop.collecting.FallsThrough 2 m₁ m₂ ∧ Steps 0 m₂ 0 (CountedLoop.collecting.leaving m₂) ∧
        (CountedLoop.collecting.leaving m₂).data.toList = [.int 0, .int 1, .int 2] := by
  have hlies := CountedLoop.lies_collecting
  have hstart : CountedLoop.collecting.start ≠ Int64.maxValue := by decide
  have hrounds : CountedLoop.collecting.rounds = 3 := by decide
  obtain ⟨⟨m₁, m₂, henters, hfalls, hend⟩, _⟩ := counted_loop_runs_indices hlies hstart fun r _ m₁ henters =>
    ⟨_, CountedLoop.fallsThrough_collecting (hlies.of_enters henters) r⟩
  rw [hrounds] at henters hfalls
  refine ⟨hstart, hrounds, m₁, m₂, henters, hfalls, hend.steps, ?_⟩
  have hdata₂ := CountedLoop.data_of_fallsThrough_collecting (hlies.of_enters henters) hfalls
  cases henters with
  | next henters₁ hfalls₁ _ =>
      have hdata₁ := CountedLoop.data_of_fallsThrough_collecting (hlies.of_enters henters₁) hfalls₁
      cases henters₁ with
      | next henters₀ hfalls₀ _ =>
          have hdata₀ := CountedLoop.data_of_fallsThrough_collecting (hlies.of_enters henters₀) hfalls₀
          cases henters₀ with
          | first _ =>
              change m₂.data.toList = _
              rw [hdata₂, hdata₁, hdata₀]
              rfl

end Forth

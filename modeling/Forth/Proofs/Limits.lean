/-
Limits only cut evaluations short.  A machine with more cells behind the end of its heap and a higher
limit of the return stack evaluates every text as before, unless the evaluation was stopped by one of
the limits.  The cells behind the former end are left untouched.
-/
import Mathlib.Algebra.Group.Nat.Defs
import Forth.Proofs.Pairing

namespace Forth

open Machine Run

namespace Heap

/-- The heap with more cells behind its end. -/
def extended (heap : Heap) (extra : Array Cell) : Heap :=
  { heap with cells := heap.cells ++ extra }

variable {heap : Heap} {extra : Array Cell} {a : Nat} {c : Cell}

theorem get?_extended (ha : a < heap.capacity) : (heap.extended extra).get? a = heap.get? a :=
  Array.getElem?_append_left ha

theorem set_extended (ha : a < heap.capacity) :
    (heap.extended extra).set a c = (heap.set a c).extended extra := by
  simp only [set, extended, Array.setIfInBounds_append_left ha]

theorem push_extended (hroom : heap.here < heap.capacity) :
    (heap.extended extra).push c = (heap.push c).extended extra := by
  simp only [push, extended, Array.setIfInBounds_append_left hroom]

end Heap

/-- The machine with more cells behind the end of its heap, and another limit of the return stack. -/
def Machine.widened (m : Machine) (extra : Array Cell) (limit : Nat) : Machine :=
  { m with heap := m.heap.extended extra, returnLimit := limit }

def Outcome.widened {α : Type} (extra : Array Cell) (limit : Nat) : Outcome α → Outcome α
  | .ok a m => .ok a (m.widened extra limit)
  | .error e m => .error e (m.widened extra limit)

/-- The errors by which a limit stops an evaluation. -/
def Error.isLimit : Error → Bool
  | .heapOverflow | .invalidAddress | .returnStackOverflow => true
  | _ => false

namespace Pairing

/-- A machine beside a wider one.  If the heap has no cells more, only the limit of the return stack
can set them apart. -/
def widening (extra : Array Cell) (limit : Nat) : Pairing where
  related m m' := m.returnLimit ≤ limit ∧ m' = m.widened extra limit
  excused e := e = .returnStackOverflow ∨ extra ≠ #[] ∧ (e = .invalidAddress ∨ e = .heapOverflow)
  admits _ := True
  allows _ _ := True

theorem onText_widening (extra : Array Cell) (limit : Nat) : OnText (widening extra limit) where
  admits_int _ := trivial
  admits_flag _ := trivial
  admits_data _ _ _ := trivial
  data := by
    rintro m _ ⟨_, rfl⟩
    rfl
  render := by
    rintro m _ ⟨_, rfl⟩ c
    rfl
  withData := by
    rintro m _ s ⟨hlimit, rfl⟩ _
    exact ⟨hlimit, rfl⟩
  withOutput := by
    rintro m _ e ⟨hlimit, rfl⟩
    exact ⟨hlimit, rfl⟩
  admits_exit := trivial
  ip := by
    rintro m _ ⟨_, rfl⟩
    rfl
  withIp := by
    rintro m _ a ⟨hlimit, rfl⟩
    exact ⟨hlimit, rfl⟩
  admits_returns _ _ _ := trivial
  returns := by
    rintro m _ ⟨_, rfl⟩
    rfl
  withReturns := by
    rintro m _ s ⟨hlimit, rfl⟩ _
    exact ⟨hlimit, rfl⟩
  returnLimit := by
    rintro m _ ⟨hlimit, rfl⟩
    exact Or.inr ⟨hlimit, Or.inl rfl⟩
  here := by
    rintro m _ ⟨_, rfl⟩
    rfl
  get? := by
    rintro m _ a c ⟨_, rfl⟩ hcell
    exact ⟨trivial, (Heap.get?_extended (Heap.lt_capacity_of_get? hcell)).trans hcell⟩
  outside := by
    rintro m _ a ⟨_, rfl⟩ hcell
    by_cases hextra : extra = #[]
    · subst hextra
      exact Or.inl (by simpa [Machine.widened, Heap.extended, Heap.get?] using hcell)
    · exact Or.inr ⟨Or.inr ⟨hextra, Or.inl rfl⟩, Or.inr ⟨hextra, Or.inr rfl⟩⟩
  withSet := by
    rintro m _ a c ⟨hlimit, rfl⟩ ha _
    exact ⟨hlimit, by simp only [Machine.widened, Heap.set_extended ha]⟩
  withPush := by
    rintro m _ c ⟨hlimit, rfl⟩ hroom _
    exact ⟨hlimit, by simp only [Machine.widened, Heap.push_extended hroom]⟩
  lastWord := by
    rintro m _ ⟨_, rfl⟩
    rfl
  withImmediate := by
    rintro m _ name ⟨hlimit, rfl⟩ _
    exact ⟨hlimit, rfl⟩
  withDefinition := by
    rintro m _ name ⟨hlimit, rfl⟩
    exact ⟨hlimit, rfl⟩
  withMode := by
    rintro m _ mode ⟨hlimit, rfl⟩
    exact ⟨hlimit, rfl⟩
  words := by
    rintro m _ ⟨_, rfl⟩ _
    rfl
  nextToken := by
    rintro m _ ⟨hlimit, rfl⟩ _
    exact readsAlike_of_source rfl ⟨hlimit, rfl⟩ fun _ _ => ⟨hlimit, rfl⟩
  comment := by
    rintro m _ ⟨hlimit, rfl⟩ _
    exact ⟨hlimit, rfl⟩
  admits_all _ := trivial
  mode := by
    rintro m _ ⟨_, rfl⟩
    rfl
  dictionary := by
    rintro m _ ⟨_, rfl⟩
    rfl
  allows_all _ _ := trivial

/-- A wider machine evaluates a source as the machine itself does. -/
theorem answers_evalSource {extra : Array Cell} {limit fuel : Nat} {m : Machine} (source : Source)
    (hlimit : m.returnLimit ≤ limit) :
    (widening extra limit).Answers (evalSource fuel source m)
      (evalSource fuel source (m.widened extra limit)) := by
  have hbuild : (widening extra limit).Answers (build fuel { m with source := some source })
      (build fuel { m.widened extra limit with source := some source }) :=
    (onText_widening extra limit).answers_build fuel ⟨hlimit, rfl⟩
  unfold evalSource
  dsimp only
  rcases h : build fuel { m with source := some source } with _ | ⟨_, m₁⟩ | ⟨e, m₁⟩
  · rw [h] at hbuild
    rw [show build fuel { m.widened extra limit with source := some source } = none from hbuild]
    rfl
  · rw [h] at hbuild
    obtain ⟨_, h', hlimit₁, rfl⟩ := hbuild
    rw [h']
    exact ⟨_, rfl, hlimit₁, rfl⟩
  · rw [h] at hbuild
    rcases hbuild with hexcused | ⟨_, h', hlimit₁, rfl⟩
    · exact Or.inl hexcused
    · rw [h']
      exact Or.inr ⟨_, rfl, hlimit₁, rfl⟩

end Pairing

/-- Limits only cut evaluations short.  An evaluation that succeeds, or fails for another reason than
a limit, has the same answer on a machine with more cells behind the end of its heap and with a higher
limit of the return stack; the cells are as before, and all else is the same. -/
theorem eval_widened {m : Machine} {text : String} {extra : Array Cell} {limit : Nat} {r : Outcome Unit}
    (hlimit : m.returnLimit ≤ limit) (hr : Reaches (fun fuel => eval fuel text) m r)
    (hcause : ∀ e m', r = .error e m' → e.isLimit = false) :
    Reaches (fun fuel => eval fuel text) (m.widened extra limit) (r.widened extra limit) := by
  have hanswers : ∀ fuel, (Pairing.widening extra limit).Answers (eval fuel text m)
      (eval fuel text (m.widened extra limit)) :=
    fun fuel => Pairing.answers_evalSource (Source.ofChars bufferName text.toList) hlimit
  cases r with
  | ok a m₁ =>
      obtain ⟨_, hr', _, rfl⟩ := Pairing.reaches_ok hanswers hr
      exact hr'
  | error e m₁ =>
      rcases Pairing.reaches_error hanswers hr with hexcused | ⟨_, hr', _, rfl⟩
      · have hlimits : e.isLimit = true := by
          rcases hexcused with rfl | ⟨_, rfl | rfl⟩ <;> rfl
        rw [hcause e m₁ rfl] at hlimits
        cases hlimits
      · exact hr'

/-- A definition that fills its heap, on a heap with another cell behind. -/
theorem eval_widened_of_full_heap :
    ∃ m, Reaches (fun fuel => eval fuel ": a dup + ; 3 a 0 /") (Machine.new 3)
        (.error .divisionByZero m) ∧
      m.heap.here = m.heap.capacity ∧
      Reaches (fun fuel => eval fuel ": a dup + ; 3 a 0 /")
        ((Machine.new 3).widened #[.flag true] (2 ^ 21))
        (.error .divisionByZero (m.widened #[.flag true] (2 ^ 21))) := by
  have hrun : (eval 20 ": a dup + ; 3 a 0 /").fails (Machine.new 3) (fun e m =>
      decide (e = .divisionByZero ∧ m.heap.here = m.heap.capacity)) = true := by
    decide +kernel
  obtain ⟨e, m, hm, htest⟩ := of_fails hrun
  obtain ⟨rfl, hfull⟩ := of_decide_eq_true htest
  refine ⟨m, ⟨20, hm⟩, hfull, ?_⟩
  apply eval_widened (r := .error .divisionByZero m) (by decide) ⟨20, hm⟩
  intro e m' h
  cases h
  rfl

end Forth

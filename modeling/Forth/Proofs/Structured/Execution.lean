/-
The code of a structured program executes the program.  The words are taken care of first: a primitive
is one step, and a word of the library is a body whose code is executed by the same rules.
-/
import Forth.Proofs.Structured.Program

namespace Forth

open Machine Run

variable {heap : Heap} {limit room : Nat}

/-- Wherever the cells lie, they have the effect of an action, if there is room for so many cells on the
return stack. -/
def Performs (heap : Heap) (limit room : Nat) (cells : List Cell) (x : Action Unit) : Prop :=
  ∀ (p : Place) (a : Nat), heap.Holds a cells → a + cells.length < Cell.addressLimit →
    p.returns.depth + room ≤ limit →
      Executes heap limit (p.to a) 0 (fun _ => (liftM x : Run Unit)) (fun _ => p.to (a + cells.length))

namespace Performs

theorem mono {cells : List Cell} {x : Action Unit} {room' : Nat} (h : Performs heap limit room cells x)
    (hroom : room ≤ room') : Performs heap limit room' cells x := by
  intro p a hcells ha hreturns
  exact h p a hcells ha (by omega)

theorem append {cs ds : List Cell} {x y : Action Unit} (hx : Performs heap limit room cs x)
    (hy : Performs heap limit room ds y) : Performs heap limit room (cs ++ ds) (do x; y) := by
  intro p a hcells ha hreturns
  obtain ⟨hcs, hds⟩ := Heap.holds_append.mp hcells
  simp only [List.length_append, ← Nat.add_assoc] at ha ⊢
  exact (hx p a hcs (by omega) hreturns).lift_bind fun _ => hy p _ hds ha hreturns

theorem primitive {o : Primitive} (hplaced : Action.Placeless o.execute) (ho : o.isOrdinary = true) :
    Performs heap limit room [.op (.primitive o)] o.execute := by
  intro p a hcells _ _
  have hcell := (Heap.holds_cons.mp hcells).1
  exact (Executes.primitive (p := p.to a) hplaced ho hcell).weaken (Nat.zero_le _)

theorem dataWord {o : Primitive} (ho : o.isDataWord = true) :
    Performs heap limit room [.op (.primitive o)] o.execute := by
  apply primitive (.execute ho)
  cases o <;> first | rfl | cases ho

theorem inline {o : Primitive} (c : Cell) (ho : o.execute = Primitive.pushInline) :
    Performs heap limit room [.op (.primitive o), c] (push c) := by
  intro p a hcells _ _
  obtain ⟨hcell, hrest⟩ := Heap.holds_cons.mp hcells
  have hoperand := (Heap.holds_cons.mp hrest).1
  exact (Executes.literal (p := p.to a) ho hcell hoperand).weaken (Nat.zero_le _)

/-- A call of the cells that lie at an address, up to an end marker. -/
theorem body {a : Nat} {cells : List Cell} {x : Action Unit} (h : Performs heap limit room cells x)
    (hcode : heap.Holds a (cells ++ [.op .exit])) (ha : a + cells.length < Cell.addressLimit) :
    Performs heap limit (room + 1) [.op (.body a)] x := by
  intro p b hcells hb hreturns
  obtain ⟨hcode, hexit⟩ := Heap.holds_append.mp hcode
  have henter : Executes heap limit (p.to b) 1 (fun _ => (pure () : Run Unit)) _ :=
    Executes.enter (Heap.holds_cons.mp hcells).1 (by dsimp only [Place.to]; omega)
  let inside : Place := ⟨p.nested + 1, a, p.returns.push (Cell.ofAddress (b + 1))⟩
  have hbody := h inside a hcode ha (by change p.returns.depth + 1 + room ≤ limit; omega)
  have hleave : Executes heap limit (inside.to (a + cells.length)) 1 (fun _ => (pure () : Run Unit))
      (fun _ => p.to (b + 1)) := Executes.leave (Heap.holds_cons.mp hexit).1 hb
  exact ((hbody.after hleave (Steady.const _)).before henter (Steady.const _)).weaken (Nat.zero_le _)

/-- Setting the top of the data stack aside on the return stack while a primitive is executed. -/
theorem dip {o : Primitive} (ho : o.isDataWord = true) :
    Performs heap limit 1
      [.op (.primitive .toReturn), .op (.primitive o), .op (.primitive .fromReturn)] (do
        let c ← pop
        o.execute
        push c) := by
  intro p a hcells ha hreturns
  simp only [Heap.holds_cons, Nat.add_assoc, Nat.reduceAdd] at hcells
  obtain ⟨hto, hcell, hfrom, _⟩ := hcells
  have hset : Executes heap limit (p.to a) 1 (fun _ => (liftM pop : Run Cell)) _ :=
    Executes.toReturn hto hreturns
  have hinner : ∀ c, Executes heap limit ⟨p.nested, a + 1, p.returns.push c⟩ 0
      (fun _ => (liftM o.execute : Run Unit)) (fun _ => ⟨p.nested, a + 2, p.returns.push c⟩) := by
    intro c
    have hcells : heap.Holds (a + 1) [.op (.primitive o)] :=
      Heap.holds_cons.mpr ⟨hcell, by simp [Heap.Holds]⟩
    have hword : Performs heap limit 0 [.op (.primitive o)] o.execute := dataWord ho
    exact hword ⟨p.nested, a + 1, p.returns.push c⟩ (a + 1) hcells (by simp at ha ⊢; omega) hreturns
  have hback : ∀ c, Executes heap limit ⟨p.nested, a + 2, p.returns.push c⟩ 1
      (fun _ => (liftM (push c) : Run Unit)) (fun _ => p.to (a + 3)) :=
    fun c => Executes.fromReturn hfrom
  have hall := hset.lift_bind fun c => (hinner c).lift_bind fun _ => hback c
  exact hall.weaken (Nat.zero_le _)

end Performs

namespace Program

/-- All numerals and all words of a program have the given properties. -/
def All (L : Literal → Prop) (W : DataWord → Prop) : Program → Prop
  | skip => True
  | literal l => L l
  | word w => W w
  | seq p q | ifElse p q | whileTrue p q => p.All L W ∧ q.All L W
  | ifThen p | untilTrue p | forever p => p.All L W

instance All.decidable {L : Literal → Prop} {W : DataWord → Prop} [DecidablePred L] [DecidablePred W] :
    (P : Program) → Decidable (P.All L W)
  | skip => isTrue trivial
  | literal l => inferInstanceAs (Decidable (L l))
  | word w => inferInstanceAs (Decidable (W w))
  | seq p q | ifElse p q | whileTrue p q =>
      have := All.decidable (L := L) (W := W) p
      have := All.decidable (L := L) (W := W) q
      inferInstanceAs (Decidable (p.All L W ∧ q.All L W))
  | ifThen p | untilTrue p | forever p => All.decidable (L := L) (W := W) p

/-- A conditional jump chooses between the code behind it and the code at its target. -/
theorem executes_branch {α : Type} {x y : Nat → Run α} {p : Place} {a target : Nat} {offset : Int}
    {exit : α → Place} (hcode : heap.Holds a (jumpCells .jumpIfFalse offset))
    (ha : a + 1 < Cell.addressLimit) (htarget : (target : Int) = (a + 1 : Nat) + offset)
    (hlimit : target < Cell.addressLimit)
    (hx : Executes heap limit (p.to (a + 2)) 0 x exit) (hxs : Steady x)
    (hy : Executes heap limit (p.to target) 0 y exit) (hys : Steady y) :
    Executes heap limit (p.to a) 1
      (fun fuel => (liftM popFlag : Run Bool) >>= fun b => if b then x fuel else y fuel) exit := by
  obtain ⟨hjump, hrest⟩ := Heap.holds_cons.mp hcode
  have hint := Cell.toInt_ofInt_of_lt (n := offset) (by omega) (by omega)
  have hbranch : Executes heap limit (p.to a) 1 (fun _ => (liftM popFlag : Run Bool)) _ :=
    Executes.branch hjump (Heap.holds_cons.mp hrest).1 ha (hint.symm ▸ htarget) hlimit
  refine hbranch.bind (l := 0) (fun b => ?_) (Steady.const _) fun b => ?_
  · cases b with
    | true => exact hx
    | false => exact hy
  · cases b with
    | true => exact hxs
    | false => exact hys

theorem executes_jump (limit : Nat) (p : Place) (target : Nat) {a : Nat} {offset : Int}
    (hcode : heap.Holds a (jumpCells .jump offset)) (ha : a + 1 < Cell.addressLimit)
    (htarget : (target : Int) = (a + 1 : Nat) + offset) (hlimit : target < Cell.addressLimit) :
    Executes heap limit (p.to a) 1 (fun _ => (pure () : Run Unit)) (fun _ => p.to target) := by
  obtain ⟨hjump, hrest⟩ := Heap.holds_cons.mp hcode
  have hint := Cell.toInt_ofInt_of_lt (n := offset) (by omega) (by omega)
  exact Executes.jump (p := p.to a) hjump (Heap.holds_cons.mp hrest).1 ha (hint.symm ▸ htarget) hlimit

section

variable {P Q : Program} {p : Place} {a : Nat}

theorem executes_ifThen (hcode : heap.Holds a (ifThen P).code)
    (hlimit : a + 2 + P.code.length < Cell.addressLimit)
    (hP : Executes heap limit (p.to (a + 2)) 0 P.exec (fun _ => p.to (a + 2 + P.code.length))) :
    Executes heap limit (p.to a) 0 (ifThen P).exec (fun _ => p.to (a + 2 + P.code.length)) := by
  have hbranch := (Heap.holds_append.mp hcode).1
  have hskip := Executes.pure heap limit () fun _ => p.to (a + 2 + P.code.length)
  have hexec := executes_branch hbranch (by omega) (by omega) hlimit hP P.exec_steady hskip
    (Steady.const _)
  exact hexec.weaken (Nat.zero_le _)

theorem executes_ifElse (hcode : heap.Holds a (ifElse P Q).code)
    (hlimit : a + 2 + P.code.length + 2 + Q.code.length < Cell.addressLimit)
    (hP : Executes heap limit (p.to (a + 2)) 0 P.exec (fun _ => p.to (a + 2 + P.code.length)))
    (hQ : Executes heap limit (p.to (a + 2 + P.code.length + 2)) 0 Q.exec
      (fun _ => p.to (a + 2 + P.code.length + 2 + Q.code.length))) :
    Executes heap limit (p.to a) 0 (ifElse P Q).exec
      (fun _ => p.to (a + 2 + P.code.length + 2 + Q.code.length)) := by
  simp only [code, List.append_assoc, Heap.holds_append, length_jumpCells] at hcode
  obtain ⟨hbranch, _, hjump, _⟩ := hcode
  have hbehind := executes_jump limit p (a + 2 + P.code.length + 2 + Q.code.length) hjump (by omega)
    (by omega) hlimit
  have hPjump := (hP.after hbehind P.exec_steady).weaken (Nat.zero_le _)
  have hexec := executes_branch hbranch (by omega) (by omega) (by omega) hPjump P.exec_steady hQ
    Q.exec_steady
  exact hexec.weaken (Nat.zero_le _)

theorem executes_untilTrue (hcode : heap.Holds a (untilTrue P).code)
    (hlimit : a + P.code.length + 2 < Cell.addressLimit)
    (hP : Executes heap limit (p.to a) 0 P.exec (fun _ => p.to (a + P.code.length))) :
    Executes heap limit (p.to a) 0 (untilTrue P).exec (fun _ => p.to (a + P.code.length + 2)) := by
  have hbranch := (Heap.holds_append.mp hcode).2
  let exit : Bool → Place := fun again => if again then p.to a else p.to (a + P.code.length + 2)
  have hleave := Executes.pure heap limit false exit
  have hagain := Executes.pure heap limit true exit
  have hflag := executes_branch hbranch (by omega) (by omega) (by omega) hleave (Steady.const _) hagain
    (Steady.const _)
  have hsteady := steady_branch (Steady.const (pure false)) (Steady.const (pure true))
  have hround := hP.bind (fun _ => hflag) P.exec_steady fun _ => hsteady
  exact hround.loop (Steady.bind P.exec_steady fun _ => hsteady)

theorem executes_whileTrue (hcode : heap.Holds a (whileTrue P Q).code)
    (hlimit : a + P.code.length + 2 + Q.code.length + 2 < Cell.addressLimit)
    (hP : Executes heap limit (p.to a) 0 P.exec (fun _ => p.to (a + P.code.length)))
    (hQ : Executes heap limit (p.to (a + P.code.length + 2)) 0 Q.exec
      (fun _ => p.to (a + P.code.length + 2 + Q.code.length))) :
    Executes heap limit (p.to a) 0 (whileTrue P Q).exec
      (fun _ => p.to (a + P.code.length + 2 + Q.code.length + 2)) := by
  simp only [code, List.append_assoc, Heap.holds_append, length_jumpCells] at hcode
  obtain ⟨_, hbranch, _, hjump⟩ := hcode
  let exit : Bool → Place := fun again =>
    if again then p.to a else p.to (a + P.code.length + 2 + Q.code.length + 2)
  have hback := executes_jump limit p a hjump (by omega) (by omega) (by omega)
  have hagain := ((hQ.after hback Q.exec_steady).bind (f := fun _ _ => pure true)
    (fun _ => Executes.pure heap limit true exit) Q.exec_steady fun _ => Steady.const _).weaken (Nat.zero_le _)
  have hleave := Executes.pure heap limit false exit
  have hsteadyQ := Steady.bind Q.exec_steady fun _ => Steady.const (pure true)
  have hflag := executes_branch hbranch (by omega) (by omega) (by omega) hagain hsteadyQ hleave
    (Steady.const _)
  have hsteady := steady_branch hsteadyQ (Steady.const (pure false))
  have hround := hP.bind (fun _ => hflag) P.exec_steady fun _ => hsteady
  exact hround.loop (Steady.bind P.exec_steady fun _ => hsteady)

theorem executes_forever (hcode : heap.Holds a (forever P).code)
    (hlimit : a + P.code.length + 2 < Cell.addressLimit)
    (hP : Executes heap limit (p.to a) 0 P.exec (fun _ => p.to (a + P.code.length))) :
    Executes heap limit (p.to a) 0 (forever P).exec (fun _ => p.to (a + P.code.length + 2)) := by
  have hjump := (Heap.holds_append.mp hcode).2
  let exit : Bool → Place := fun again => if again then p.to a else p.to (a + P.code.length + 2)
  have hback := executes_jump limit p a hjump (by omega) (by omega) (by omega)
  have hround := (hP.after hback P.exec_steady).bind (f := fun _ _ => pure true)
    (fun _ => Executes.pure heap limit true exit) P.exec_steady fun _ => Steady.const _
  exact hround.loop (Steady.bind P.exec_steady fun _ => Steady.const _)

theorem exec_seq_lift {x y : Action Unit} (hP : P.exec = fun _ => (liftM x : Run Unit))
    (hQ : Q.exec = fun _ => (liftM y : Run Unit)) :
    (seq P Q).exec = fun _ => (liftM (do x; y) : Run Unit) := by
  funext fuel
  simp only [exec, hP, hQ, Run.lift_bind]

theorem exec_ifElse_lift {x y : Action Unit} (hP : P.exec = fun _ => (liftM x : Run Unit))
    (hQ : Q.exec = fun _ => (liftM y : Run Unit)) :
    (ifElse P Q).exec = fun _ => (liftM (do if ← popFlag then x else y) : Run Unit) := by
  funext fuel
  simp only [exec, hP, hQ, Run.lift_bind]
  refine bind_congr fun b => ?_
  cases b <;> rfl

end

/-- The code of a program executes it if its words do what they should. -/
theorem executes (P : Program) {L : Literal → Prop} {p : Place} {a : Nat}
    (hwords : P.All L fun w => Performs heap limit room [.op w.op] w.effect)
    (hroom : p.returns.depth + room ≤ limit) (hcode : heap.Holds a P.code)
    (hlimit : a + P.code.length < Cell.addressLimit) :
    Executes heap limit (p.to a) 0 P.exec (fun _ => p.to (a + P.code.length)) := by
  induction P generalizing a with
  | skip => exact Executes.pure heap limit () fun _ => p.to a
  | literal l =>
      obtain ⟨hlit, hrest⟩ := Heap.holds_cons.mp hcode
      have hvalue := (Heap.holds_cons.mp hrest).1
      exact (Executes.literal (p := p.to a) (o := .lit) rfl hlit hvalue).weaken (Nat.zero_le _)
  | word w => exact hwords p a hcode hlimit hroom
  | seq P Q ihP ihQ =>
      obtain ⟨hcodeP, hcodeQ⟩ := Heap.holds_append.mp hcode
      simp only [code, List.length_append, ← Nat.add_assoc] at hlimit ⊢
      have hP := ihP hwords.1 hcodeP (by omega)
      have hQ := ihQ hwords.2 hcodeQ hlimit
      exact hP.bind (fun _ => hQ) P.exec_steady fun _ => Q.exec_steady
  | ifThen P ih =>
      have hcodeP := (Heap.holds_append.mp hcode).2
      simp only [code, length_jumpCells, List.length_append, ← Nat.add_assoc] at hlimit ⊢
      exact executes_ifThen hcode hlimit (ih hwords hcodeP hlimit)
  | ifElse P Q ihP ihQ =>
      have hparts := hcode
      simp only [code, List.append_assoc, Heap.holds_append, length_jumpCells] at hparts
      obtain ⟨_, hcodeP, _, hcodeQ⟩ := hparts
      simp only [code, length_jumpCells, List.length_append, ← Nat.add_assoc] at hlimit ⊢
      exact executes_ifElse hcode hlimit (ihP hwords.1 hcodeP (by omega)) (ihQ hwords.2 hcodeQ hlimit)
  | untilTrue P ih =>
      have hcodeP := (Heap.holds_append.mp hcode).1
      simp only [code, length_jumpCells, List.length_append, ← Nat.add_assoc] at hlimit ⊢
      exact executes_untilTrue hcode hlimit (ih hwords hcodeP (by omega))
  | whileTrue P Q ihP ihQ =>
      have hparts := hcode
      simp only [code, List.append_assoc, Heap.holds_append, length_jumpCells] at hparts
      obtain ⟨hcodeP, _, hcodeQ, _⟩ := hparts
      simp only [code, length_jumpCells, List.length_append, ← Nat.add_assoc] at hlimit ⊢
      exact executes_whileTrue hcode hlimit (ihP hwords.1 hcodeP (by omega))
        (ihQ hwords.2 hcodeQ (by omega))
  | forever P ih =>
      have hcodeP := (Heap.holds_append.mp hcode).1
      simp only [code, length_jumpCells, List.length_append, ← Nat.add_assoc] at hlimit ⊢
      exact executes_forever hcode hlimit (ih hwords hcodeP (by omega))

end Program

/-! ### The words of the library -/

section

variable {α β : Type}

@[simp] theorem push_bind_pop (c : Cell) (f : Cell → Action α) : (push c >>= fun _ => pop >>= f) = f c := by
  funext m
  have hpop : pop { m with data := m.data.push c } = .ok c m := by
    simp [pop, Stack.top?]
  exact Action.bind_of_ok hpop

theorem top_bind (f : Cell → Action α) : (top >>= f) = pop >>= fun c => push c >>= fun _ => f c := by
  funext m
  change EStateM.bind top f m = EStateM.bind pop _ m
  unfold EStateM.bind top pop
  cases htop : m.data.top? with
  | none => rfl
  | some c =>
      have hdata : m.data.pop.push c = m.data := by
        obtain ⟨rest, hcells⟩ := List.head?_eq_some_iff.mp htop
        ext1
        simp [hcells]
      change f c m = f c { m with data := m.data.pop.push c }
      rw [hdata]

@[simp] theorem discard_pop : discard pop = pop >>= fun _ => pure () := rfl

@[simp] theorem push_bind_popInt (n : Int64) (f : Int64 → Action α) :
    (push (.int n) >>= fun _ => popInt >>= f) = f n := by
  simp only [popInt, bind_assoc, push_bind_pop]
  rfl

@[simp] theorem push_bind_popFlag (b : Bool) (f : Bool → Action α) :
    (push (.flag b) >>= fun _ => popFlag >>= f) = f b := by
  simp only [popFlag, bind_assoc, push_bind_pop]
  rfl

@[simp] theorem demand_ok (a : α) : demand (.ok a) = pure a := rfl

@[simp] theorem demand_error_bind (e : Error) (f : α → Action β) : (demand (.error e) >>= f) = throw e := rfl

end

namespace StackWord

/-! The definitions of the words have the effects that they should have. -/

attribute [local simp] Primitive.execute effect

theorem effect_over : (do
    (do let c ← pop; Primitive.execute .dup; push c)
    Primitive.execute .swap) = effect overWord := by
  simp [top_bind]

theorem effect_rot : (do
    (do let c ← pop; Primitive.execute .swap; push c)
    Primitive.execute .swap) = effect rot := by
  simp

theorem effect_backRot : (do effect rot; effect rot) = effect backRot := by
  simp

theorem effect_nip : (do Primitive.execute .swap; Primitive.execute .drop) = effect nip := by
  simp [-bind_pure_comp, bind_pure_unit]

theorem effect_tuck : (do Primitive.execute .swap; effect overWord) = effect tuck := by
  simp

theorem effect_twoDup : (do effect overWord; effect overWord) = effect twoDup := by
  simp [duplicatePair]

theorem effect_twoDrop : (do Primitive.execute .drop; Primitive.execute .drop) = effect twoDrop := by
  simp

theorem effect_unequal : (do Primitive.execute .equal; Primitive.execute .logicalNot) = effect unequal := by
  simp [Primitive.compareEqual]

theorem effect_greater : (do Primitive.execute .swap; Primitive.execute .less) = effect greater := by
  simp [Primitive.compareLess, compareGreater]

theorem effect_atMost : (do effect greater; Primitive.execute .logicalNot) = effect atMost := by
  simp

theorem effect_atLeast : (do Primitive.execute .less; Primitive.execute .logicalNot) = effect atLeast := by
  simp [Primitive.compareLess, ← decide_not, Int64.not_lt]

theorem effect_increment : (do push (.int 1); Primitive.execute .add) = effect increment := by
  simp [Primitive.onInts]

theorem effect_decrement : (do push (.int 1); Primitive.execute .sub) = effect decrement := by
  simp [Primitive.onInts]

/-- Dropping one of two integers leaves the other. -/
theorem drop_or_nip (a b : Int64) (c : Bool) : (do
    push (.int a)
    push (.int b)
    if c then Primitive.execute .drop else effect nip) = push (.int (if c then a else b)) := by
  cases c <;> simp [-bind_pure_comp, bind_pure_unit]

theorem effect_minimum : (do
    effect twoDup
    Primitive.execute .less
    if ← popFlag then Primitive.execute .drop else effect nip) = effect minimum := by
  simp only [effect, select, duplicatePair, Primitive.execute, Primitive.compareLess, popInt, bind_assoc,
    push_bind_pop]
  refine bind_congr fun b => bind_congr fun a => ?_
  -- the upper one is checked first
  cases b with
  | int n =>
      cases a with
      | int k => simpa [Cell.toInt] using drop_or_nip k n (decide (k < n))
      | flag _ => simp [Cell.toInt]
      | op _ => simp [Cell.toInt]
  | flag _ => simp [Cell.toInt]
  | op _ => simp [Cell.toInt]

theorem effect_maximum : (do
    effect twoDup
    effect greater
    if ← popFlag then Primitive.execute .drop else effect nip) = effect maximum := by
  simp only [effect, select, duplicatePair, Primitive.execute, compareGreater, popInt, bind_assoc,
    push_bind_pop]
  refine bind_congr fun b => bind_congr fun a => ?_
  -- the lower one is checked first
  cases a with
  | int k =>
      cases b with
      | int n => simpa [Cell.toInt] using drop_or_nip k n (decide (n < k))
      | flag _ => simp [Cell.toInt]
      | op _ => simp [Cell.toInt]
  | flag _ => simp [Cell.toInt]
  | op _ => simp [Cell.toInt]

end StackWord

/-- The code of a program that has the effect of an action. -/
theorem Performs.program {P : Program} {L : Literal → Prop} {x : Action Unit}
    (hwords : P.All L fun w => Performs heap limit room [.op w.op] w.effect)
    (heffect : P.exec = fun _ => (liftM x : Run Unit)) : Performs heap limit room P.code x := by
  intro p a hcode ha hreturns
  rw [← heffect]
  exact P.executes hwords hreturns hcode ha

namespace StackWord

/-- The heap has the code of all words of the library that work on the data stack. -/
def Present (heap : Heap) : Prop :=
  ∀ w : StackWord, heap.Holds w.address (w.code ++ [.op .exit])

theorem performs_over (h : heap.Holds overWord.address (overWord.code ++ [.op .exit])) :
    Performs heap limit 2 [.op (.body overWord.address)] (effect overWord) := by
  have hcode : Performs heap limit 1 (code overWord) _ := (Performs.dip rfl).append (.dataWord rfl)
  exact Performs.body (effect_over ▸ hcode) h (by decide)

theorem performs_rot (h : Present heap) :
    Performs heap limit 2 [.op (.body rot.address)] (effect rot) := by
  have hcode : Performs heap limit 1 (code rot) _ := (Performs.dip rfl).append (.dataWord rfl)
  exact Performs.body (effect_rot ▸ hcode) (h rot) (by decide)

theorem performs_nip (h : Present heap) :
    Performs heap limit 1 [.op (.body nip.address)] (effect nip) := by
  have hcode : Performs heap limit 0 (code nip) _ := (Performs.dataWord rfl).append (.dataWord rfl)
  exact Performs.body (effect_nip ▸ hcode) (h nip) (by decide)

theorem performs_greater (h : Present heap) :
    Performs heap limit 1 [.op (.body greater.address)] (effect greater) := by
  have hcode : Performs heap limit 0 (code greater) _ := (Performs.dataWord rfl).append (.dataWord rfl)
  exact Performs.body (effect_greater ▸ hcode) (h greater) (by decide)

theorem performs_twoDup (h : Present heap) :
    Performs heap limit 3 [.op (.body twoDup.address)] (effect twoDup) := by
  have hcode : Performs heap limit 2 (code twoDup) _ := (performs_over (h _)).append (performs_over (h _))
  exact Performs.body (effect_twoDup ▸ hcode) (h twoDup) (by decide)

/-- The code of the words does what they should. -/
theorem performs_code (h : Present heap) (w : StackWord) : Performs heap limit 3 w.code w.effect := by
  cases w with
  | overWord => exact effect_over ▸ ((Performs.dip rfl).mono (by decide)).append (.dataWord rfl)
  | rot => exact effect_rot ▸ ((Performs.dip rfl).mono (by decide)).append (.dataWord rfl)
  | backRot => exact effect_backRot ▸ ((performs_rot h).append (performs_rot h)).mono (by decide)
  | nip => exact effect_nip ▸ (Performs.dataWord rfl).append (.dataWord rfl)
  | tuck => exact effect_tuck ▸ ((Performs.dataWord rfl).append (performs_over (h _))).mono (by decide)
  | twoDup => exact effect_twoDup ▸ ((performs_over (h _)).append (performs_over (h _))).mono (by decide)
  | twoDrop => exact effect_twoDrop ▸ (Performs.dataWord rfl).append (.dataWord rfl)
  | unequal => exact effect_unequal ▸ (Performs.dataWord rfl).append (.dataWord rfl)
  | greater => exact effect_greater ▸ (Performs.dataWord rfl).append (.dataWord rfl)
  | atMost => exact effect_atMost ▸ ((performs_greater h).append (.dataWord rfl)).mono (by decide)
  | atLeast => exact effect_atLeast ▸ (Performs.dataWord rfl).append (.dataWord rfl)
  | increment => exact effect_increment ▸ (Performs.inline _ rfl).append (.dataWord rfl)
  | decrement => exact effect_decrement ▸ (Performs.inline _ rfl).append (.dataWord rfl)
  | minimum =>
      apply Performs.program (L := fun _ => True)
      · exact ⟨performs_twoDup h, .dataWord rfl, .dataWord rfl, (performs_nip h).mono (by decide)⟩
      · rw [← effect_minimum]
        exact Program.exec_seq_lift rfl (Program.exec_seq_lift rfl (Program.exec_ifElse_lift rfl rfl))
  | maximum =>
      apply Performs.program (L := fun _ => True)
      · exact ⟨performs_twoDup h, (performs_greater h).mono (by decide), .dataWord rfl,
          (performs_nip h).mono (by decide)⟩
      · rw [← effect_maximum]
        exact Program.exec_seq_lift rfl (Program.exec_seq_lift rfl (Program.exec_ifElse_lift rfl rfl))

end StackWord

/-- All words do what they should, in at most four cells of the return stack. -/
theorem DataWord.performs (h : StackWord.Present heap) (w : DataWord) :
    Performs heap limit 4 [.op w.op] w.effect := by
  cases w with
  | primitive o ho => exact .dataWord ho
  | library w =>
      refine (StackWord.performs_code h w).body (h w) ?_
      cases w <;> decide

end Forth

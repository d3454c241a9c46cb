/-
Definitions that do not fit.  The code of a structured program for which there is no room is compiled as
far as the heap goes.  Reading the program then comes to the end of the heap, and to no other error: the
control words have filled in offsets only where cells have been compiled.
-/
import Forth.Proofs.CompileMode

namespace Forth

open Machine Run

/-- Reading the words comes to the end of the heap. -/
def Machine.RunsOut (words : List String) (m : Machine) : Prop :=
  ∀ (s : Source) rest, s.Offers (words ++ rest) →
    ∃ m', Reaches build { m with source := some s } (.error .heapOverflow m')

namespace Machine.RunsOut

variable {m m₁ m' : Machine} {word : String} {words words' : List String}

theorem of_stopsAt (h : StopsAt words m .heapOverflow m') : RunsOut words m := by
  intro s rest hs
  obtain ⟨s', hstop⟩ := h s rest hs
  exact ⟨_, hstop⟩

theorem of_dispatch (h : ∀ source, ∃ m', Reaches (fun fuel => dispatch fuel word)
    { m with source := source } (.error .heapOverflow m')) : RunsOut [word] m := by
  rintro s rest ⟨token, s', hnext, rfl, _⟩
  obtain ⟨m', fuel, hfuel⟩ := h (some s')
  exact ⟨m', fuel + 1, (Reads.build_succ fuel hnext).trans (Run.bind_of_error hfuel)⟩

theorem append (h : RunsOut words m) (words' : List String) : RunsOut (words ++ words') m := by
  intro s rest hs
  rw [List.append_assoc] at hs
  exact h s _ hs

theorem behind (hread : Reads words m m₁) (h : RunsOut words' m₁) : RunsOut (words ++ words') m := by
  intro s rest hs
  rw [List.append_assoc] at hs
  obtain ⟨s₁, hs₁, hfirst⟩ := hread s _ hs
  obtain ⟨m', hstop⟩ := h s₁ rest hs₁
  exact ⟨m', hfirst _ hstop⟩

/-- A source whose words run out of heap is not evaluated. -/
theorem evalSource_of_readAll (h : RunsOut words m) (source : Source)
    (hwords : source.readAll.1.map Token.text = words) :
    ∃ m', Reaches (fun fuel => evalSource fuel source) m (.error .heapOverflow m') := by
  have hoffers : source.Offers (words ++ []) := by
    rw [List.append_nil]
    exact Source.offers_of_readAll hwords
  obtain ⟨m', hbuild⟩ := h source [] hoffers
  exact ⟨_, reaches_evalSource_iff.mpr ⟨_, hbuild, rfl⟩⟩

theorem semicolon (hmode : m.mode = .compile)
    (hfind : m.dictionary.find? word = some (.primitive .semicolon))
    (himmediate : m.dictionary.isImmediate word = true) (hfull : m.heap.capacity ≤ m.heap.here) :
    RunsOut [word] m := by
  apply of_dispatch
  intro source
  have hdispatch := dispatch_of_immediate (m := { m with source := source }) 0 hmode hfind himmediate
  have happend := append_of_full (c := .op .exit) (m := { m with source := source }) hfull
  exact ⟨_, 0, hdispatch.trans (congrArg some (Action.bind_of_error happend))⟩

end Machine.RunsOut

/-! ### Control words at the end of the heap -/

namespace ControlWord

variable {m : Machine}

theorem mark_of_full (o : Primitive) (hfull : m.heap.capacity ≤ m.heap.here + 1) :
    ∃ m', mark o m = .error .heapOverflow m' := by
  rw [mark_eq]
  by_cases hjump : m.heap.capacity ≤ m.heap.here
  · exact ⟨m, Action.bind_of_error (append_of_full hjump)⟩
  · have happend := append_of_room (m := m) (c := .op (.primitive o)) (Nat.lt_of_not_le hjump)
    rw [Action.bind_of_ok happend]
    exact ⟨_, (Action.bind_of_ok rfl).trans (append_of_full (by simpa using hfull))⟩

theorem comma_of_full {c : Cell} (hfull : m.heap.capacity ≤ m.heap.here) :
    Primitive.execute .comma { m with data := m.data.push c } = .error .heapOverflow m :=
  append_of_full hfull

theorem back_of_full (o : Primitive) (a : Nat) (hfull : m.heap.capacity ≤ m.heap.here + 1) :
    ∃ m', back o { m with data := m.data.push (Cell.ofAddress a) } = .error .heapOverflow m' := by
  rw [back_eq]
  by_cases hjump : m.heap.capacity ≤ m.heap.here
  · exact ⟨_, Action.bind_of_error (append_of_full hjump)⟩
  · let m₁ : Machine := { m with heap := m.heap.push (.op (.primitive o)) }
    have happend := append_of_room (c := .op (.primitive o))
      (m := { m with data := m.data.push (Cell.ofAddress a) }) (Nat.lt_of_not_le hjump)
    have hsub := sub_apply m₁ a (m.heap.here + 1)
    have hcomma := comma_of_full (m := m₁) (c := .int (Int64.ofInt (a - (m.heap.here + 1 : Nat))))
      (by simpa [m₁] using hfull)
    rw [Action.bind_of_ok happend]
    exact ⟨_, (Action.bind_of_ok rfl).trans ((Action.bind_of_ok hsub).trans hcomma)⟩

end ControlWord

namespace Machine.Compiling

variable {m : Machine} {w : ControlWord} {x : Action Unit}

/-- A control word whose code begins with an action that comes to the end of the heap. -/
theorem runsOut_control (h : m.Compiling) (hw : m.dictionary.Controls w) {cells rest : List Cell}
    (hcode : w.code = cells ++ rest) (hperforms : Performs m.heap m.returnLimit 2 cells x)
    (hx : ∀ source, ∃ m', x { m with source := source } = .error .heapOverflow m') :
    RunsOut [w.name] m := by
  apply RunsOut.of_dispatch
  intro source
  obtain ⟨m', hx⟩ := hx source
  have hsame := h.with_source source
  have hexec := hsame.executes_control hcode hperforms
  have hroom := hsame.room
  obtain ⟨q, fuel, hcall⟩ := hexec.reaches_call_of_error ⟨Heap.Extends.refl _, rfl⟩
    (by omega) (reaches_lift_iff.mpr hx)
  have hdispatch := dispatch_of_immediate (m := { m with source := source }) fuel h.mode hw.find?
    hw.isImmediate
  exact ⟨_, fuel, hdispatch.trans hcall⟩

theorem runsOut_mark (h : m.Compiling) (xs : List Cell) (s : Stack) (hw : m.dictionary.Controls w)
    {o : Primitive} {rest : List Cell} (hcode : w.code = ControlWord.markCells o ++ rest)
    (hfull : m.heap.capacity ≤ m.heap.here + xs.length + 1) : RunsOut [w.name] (m.compiled xs s) :=
  (h.compiled xs s).runsOut_control hw hcode (ControlWord.performs_mark o) fun source =>
    ControlWord.mark_of_full (m := { m.compiled xs s with source := source }) o
      (by simpa [Machine.compiled] using hfull)

theorem runsOut_back (h : m.Compiling) (xs : List Cell) (s : Stack) (a : Nat)
    (hw : m.dictionary.Controls w) {o : Primitive} (hcode : w.code = ControlWord.backCells o)
    (hfull : m.heap.capacity ≤ m.heap.here + xs.length + 1) :
    RunsOut [w.name] (m.compiled xs (s.push (Cell.ofAddress a))) :=
  (h.compiled xs (s.push (Cell.ofAddress a))).runsOut_control hw
    (hcode.trans (List.append_nil _).symm) (ControlWord.performs_back o) fun source =>
    ControlWord.back_of_full (m := { m.compiled xs s with source := source }) o a
      (by simpa [Machine.compiled] using hfull)

theorem runsOut_repeat (h : m.Compiling) (xs : List Cell) (s : Stack) (a b : Nat)
    (hw : m.dictionary.Controls .repeatWord)
    (hfull : m.heap.capacity ≤ m.heap.here + xs.length + 1) :
    RunsOut ["repeat"] (m.compiled xs ((s.push (Cell.ofAddress a)).push (Cell.ofAddress b))) := by
  have hcode : ControlWord.code .repeatWord = ([.op (.primitive .swap)] ++
      ControlWord.backCells .jump) ++ (ControlWord.aimCells ++ [.op (.primitive .store)]) := rfl
  apply (h.compiled xs _).runsOut_control hw hcode
    ((Performs.dataWord rfl).append (ControlWord.performs_back .jump))
  intro source
  let m₁ : Machine := { m.compiled xs s with source := source }
  have hswap := ControlWord.swap_apply m₁ (Cell.ofAddress a) (Cell.ofAddress b)
  obtain ⟨m', hback⟩ := ControlWord.back_of_full .jump a
    (m := { m₁ with data := m₁.data.push (Cell.ofAddress b) })
    (by simpa [m₁, Machine.compiled] using hfull)
  exact ⟨m', (Action.bind_of_ok hswap).trans hback⟩

end Machine.Compiling

/-! ### Programs that do not fit -/

/-- Reading the words comes to the end of the heap wherever the machine has got to in a definition, if
there is no room for the cells. -/
def Machine.Overfills (m : Machine) (words : List String) (cells : List Cell) : Prop :=
  ∀ (xs : List Cell) (s : Stack), m.heap.here + xs.length ≤ m.heap.capacity →
    m.heap.capacity < m.heap.here + xs.length + cells.length → RunsOut words (m.compiled xs s)

namespace Machine.Overfills

open Program

variable {m : Machine} {ts us : List String} {cs ds : List Cell}

theorem nil (m : Machine) : m.Overfills [] [] := by
  intro xs s hhere hfull
  exact absurd hhere (Nat.not_le_of_lt hfull)

theorem word (h : m.Compiling) {text : String} (hcells : m.dictionary.compile? text = some cs) :
    m.Overfills [text] cs := by
  intro xs s hhere hfull
  have hroom : (m.compiled xs s).heap.room < cs.length := by
    simp only [Machine.compiled, Heap.room, Heap.here_fill, Heap.capacity_fill]
    omega
  exact .of_stopsAt (stopsAt_word_of_overflow h.mode hcells hroom)

theorem append (hP : m.CompilesTo ts cs) (hPfull : m.Overfills ts cs) (hQfull : m.Overfills us ds) :
    m.Overfills (ts ++ us) (cs ++ ds) := by
  intro xs s hhere hfull
  rw [List.length_append] at hfull
  by_cases hfirst : m.heap.capacity < m.heap.here + xs.length + cs.length
  · exact (hPfull xs s hhere hfirst).append us
  · have hroom : m.heap.here + xs.length + cs.length ≤ m.heap.capacity := Nat.le_of_not_lt hfirst
    have hrest := hQfull (xs ++ cs) s (by rw [List.length_append]; omega)
      (by rw [List.length_append]; omega)
    exact .behind (hP xs s hroom) hrest

theorem ifThen (h : m.Compiling) (hif : m.dictionary.Controls .ifWord) (hPfull : m.Overfills ts cs) :
    m.Overfills ("if" :: ts ++ ["then"]) (jumpCells .jumpIfFalse (cs.length + 1) ++ cs) := by
  intro xs s hhere hfull
  simp only [List.length_append, length_jumpCells] at hfull
  by_cases hopen : m.heap.capacity ≤ m.heap.here + xs.length + 1
  · exact (h.runsOut_mark xs s hif rfl hopen).append (ts ++ ["then"])
  · have hopened := h.reads_mark xs s hif (o := .jumpIfFalse) rfl rfl (Nat.lt_of_not_le hopen)
    have hbody := hPfull (xs ++ [.op (.primitive .jumpIfFalse), .int 0])
      (s.push (Cell.ofAddress (m.heap.here + xs.length + 1)))
      (by simp only [List.length_append, List.length_cons, List.length_nil]; omega)
      (by simp only [List.length_append, List.length_cons, List.length_nil]; omega)
    exact (RunsOut.behind hopened hbody).append ["then"]

theorem ifElse (h : m.Compiling) (hif : m.dictionary.Controls .ifWord)
    (helse : m.dictionary.Controls .elseWord) (hP : m.CompilesTo ts cs) (hPfull : m.Overfills ts cs)
    (hQfull : m.Overfills us ds) :
    m.Overfills ("if" :: ts ++ "else" :: us ++ ["then"])
      (jumpCells .jumpIfFalse (cs.length + 3) ++ cs ++ jumpCells .jump (ds.length + 1) ++ ds) := by
  intro xs s hhere hfull
  simp only [List.length_append, length_jumpCells] at hfull
  let a : Nat := m.heap.here + xs.length + 1
  let ys : List Cell := xs ++ [.op (.primitive .jumpIfFalse), .int 0]
  have hys : ys.length = xs.length + 2 := by simp [ys]
  -- each part in turn may be the first for which there is no room
  by_cases hopen : m.heap.capacity ≤ a
  · exact (h.runsOut_mark xs s hif rfl hopen).append (ts ++ "else" :: us ++ ["then"])
  have hopened : Reads ["if"] (m.compiled xs s) (m.compiled ys (s.push (Cell.ofAddress a))) :=
    h.reads_mark xs s hif rfl rfl (Nat.lt_of_not_le hopen)
  by_cases hfirst : m.heap.capacity < m.heap.here + ys.length + cs.length
  · have hbody := hPfull ys (s.push (Cell.ofAddress a)) (by omega) hfirst
    simpa using (RunsOut.behind hopened hbody).append ("else" :: us ++ ["then"])
  have hfirstRead := hopened.append (hP ys (s.push (Cell.ofAddress a)) (Nat.le_of_not_lt hfirst))
  by_cases hturn : m.heap.capacity ≤ m.heap.here + (ys ++ cs).length + 1
  · have hstop := h.runsOut_mark (ys ++ cs) (s.push (Cell.ofAddress a)) helse rfl hturn
    simpa [ControlWord.name] using (RunsOut.behind hfirstRead hstop).append (us ++ ["then"])
  rw [List.length_append] at hturn
  have hturned := h.reads_else (xs ++ [.op (.primitive .jumpIfFalse)]) cs s helse (a := a)
    (by simp [a, Nat.add_assoc]) rfl (by omega)
  have hsecond := hQfull (xs ++ [.op (.primitive .jumpIfFalse)] ++
      .int (Int64.ofInt (cs.length + 3)) :: (cs ++ [.op (.primitive .jump), .int 0]))
    (s.push (Cell.ofAddress (a + cs.length + 2)))
    (by simp only [List.length_append, List.length_cons, List.length_nil]; omega)
    (by simp only [List.length_append, List.length_cons, List.length_nil]; omega)
  have hread : Reads ("if" :: ts ++ ["else"]) (m.compiled xs s) _ :=
    hfirstRead.append (by simpa [ys] using hturned)
  simpa using (RunsOut.behind hread (by simpa using hsecond)).append ["then"]

/-- A loop that ends in a jump back to its start. -/
theorem loop (h : m.Compiling) (hbegin : m.dictionary.Controls .beginWord) {w : ControlWord}
    (hw : m.dictionary.Controls w) {o : Primitive} (hcode : w.code = ControlWord.backCells o)
    (hP : m.CompilesTo ts cs) (hPfull : m.Overfills ts cs) :
    m.Overfills ("begin" :: ts ++ [w.name]) (cs ++ jumpCells o (-(cs.length + 1))) := by
  intro xs s hhere hfull
  simp only [List.length_append, length_jumpCells] at hfull
  let start : Stack := s.push (Cell.ofAddress (m.heap.here + xs.length))
  have hopen : Reads ["begin"] (m.compiled xs s) (m.compiled xs start) := h.reads_begin xs s hbegin
  by_cases hfirst : m.heap.capacity < m.heap.here + xs.length + cs.length
  · exact (RunsOut.behind hopen (hPfull xs start hhere hfirst)).append [w.name]
  · have hbody := hP xs start (Nat.le_of_not_lt hfirst)
    have hclose := h.runsOut_back (xs ++ cs) s (m.heap.here + xs.length) hw hcode
      (by rw [List.length_append]; omega)
    exact .behind (hopen.append hbody) hclose

theorem whileTrue (h : m.Compiling) (hbegin : m.dictionary.Controls .beginWord)
    (hwhile : m.dictionary.Controls .whileWord) (hrepeat : m.dictionary.Controls .repeatWord)
    (hP : m.CompilesTo ts cs) (hPfull : m.Overfills ts cs) (hQ : m.CompilesTo us ds)
    (hQfull : m.Overfills us ds) :
    m.Overfills ("begin" :: ts ++ "while" :: us ++ ["repeat"])
      (cs ++ jumpCells .jumpIfFalse (ds.length + 3) ++ ds ++
        jumpCells .jump (-(cs.length + ds.length + 3))) := by
  intro xs s hhere hfull
  simp only [List.length_append, length_jumpCells] at hfull
  let start : Stack := s.push (Cell.ofAddress (m.heap.here + xs.length))
  have hopen : Reads ["begin"] (m.compiled xs s) (m.compiled xs start) := h.reads_begin xs s hbegin
  by_cases hfirst : m.heap.capacity < m.heap.here + xs.length + cs.length
  · have hbody := hPfull xs start hhere hfirst
    simpa using (RunsOut.behind hopen hbody).append ("while" :: us ++ ["repeat"])
  have hfirstRead := hopen.append (hP xs start (Nat.le_of_not_lt hfirst))
  by_cases hturn : m.heap.capacity ≤ m.heap.here + (xs ++ cs).length + 1
  · have hstop := h.runsOut_mark (xs ++ cs) start hwhile rfl hturn
    simpa [ControlWord.name] using (RunsOut.behind hfirstRead hstop).append (us ++ ["repeat"])
  have hturned := hfirstRead.append
    (h.reads_mark (xs ++ cs) start hwhile (o := .jumpIfFalse) rfl rfl (Nat.lt_of_not_le hturn))
  rw [List.length_append] at hturn
  let ys : List Cell := xs ++ cs ++ [.op (.primitive .jumpIfFalse), .int 0]
  let a : Nat := m.heap.here + (xs ++ cs).length + 1
  have hys : ys.length = xs.length + cs.length + 2 := by simp [ys, Nat.add_assoc]
  by_cases hsecond : m.heap.capacity < m.heap.here + ys.length + ds.length
  · have hbody := hQfull ys (start.push (Cell.ofAddress a)) (by omega) hsecond
    simpa [ControlWord.name] using (RunsOut.behind hturned hbody).append ["repeat"]
  have hread := hturned.append (hQ ys (start.push (Cell.ofAddress a)) (Nat.le_of_not_lt hsecond))
  have hclose := h.runsOut_repeat (ys ++ ds) s (m.heap.here + xs.length) a hrepeat
    (by rw [List.length_append]; omega)
  simpa [ControlWord.name] using RunsOut.behind hread hclose

end Machine.Overfills

namespace Program

variable {m : Machine}

/-- Reading a program that the dictionary knows comes to the end of the heap if its code does not fit. -/
theorem overfills (P : Program) (h : m.Compiling) (hP : P.Known m.dictionary) :
    m.Overfills P.tokens P.code := by
  induction P with
  | skip => exact Overfills.nil m
  | literal l => exact Overfills.word h (Dictionary.compile?_literal hP.leaves)
  | word w => exact Overfills.word h (Dictionary.compile?_entry hP.leaves.1 hP.leaves.2)
  | seq P Q ihP ihQ =>
      obtain ⟨hP, hQ⟩ := hP.seq
      exact Overfills.append (P.compiles h hP) (ihP hP) (ihQ hQ)
  | ifThen P ih =>
      obtain ⟨hP, hif, _⟩ := hP.ifThen
      exact Overfills.ifThen h hif (ih hP)
  | ifElse P Q ihP ihQ =>
      obtain ⟨hP, hQ, hif, helse, _⟩ := hP.ifElse
      exact Overfills.ifElse h hif helse (P.compiles h hP) (ihP hP) (ihQ hQ)
  | untilTrue P ih =>
      obtain ⟨hP, hbegin, huntil⟩ := hP.untilTrue
      exact Overfills.loop h hbegin huntil rfl (P.compiles h hP) (ih hP)
  | whileTrue P Q ihP ihQ =>
      obtain ⟨hP, hQ, hbegin, hwhile, hrepeat⟩ := hP.whileTrue
      exact Overfills.whileTrue h hbegin hwhile hrepeat (P.compiles h hP) (ihP hP) (Q.compiles h hQ)
        (ihQ hQ)
  | forever P ih =>
      obtain ⟨hP, hbegin, hagain⟩ := hP.forever
      exact Overfills.loop h hbegin hagain rfl (P.compiles h hP) (ih hP)

end Program

/-- A definition for which there is no room, because of its body or of its end marker alone. -/
theorem Machine.RunsOut.definition {m : Machine} {name : String} {body : List String} {code : List Cell}
    (hmode : m.mode = .interpret) (hcolon : m.dictionary.find? ":" = some (.primitive .colon))
    (hsemicolon : m.dictionary.find? ";" = some (.primitive .semicolon))
    (himmediate : m.dictionary.isImmediate ";" = true) (hname : name ≠ ";")
    (hbody : (m.begun name).CompilesTo body code) (hbodyfull : (m.begun name).Overfills body code)
    (hhere : m.heap.here ≤ m.heap.capacity)
    (hfull : m.heap.capacity < m.heap.here + code.length + 1) :
    RunsOut (":" :: (name :: body ++ [";"])) m := by
  have hbegun : (m.begun name).compiled [] m.data = m.begun name := rfl
  have hcolon := Reads.colon (m := m) name hmode hcolon
  by_cases hcode : m.heap.capacity < m.heap.here + code.length
  · have hrest := hbodyfull [] m.data hhere hcode
    rw [hbegun] at hrest
    exact (behind hcolon hrest).append [";"]
  · have hread := hbody [] m.data (Nat.le_of_not_lt hcode)
    rw [hbegun, List.nil_append] at hread
    have hfind : (m.begun name).dictionary.find? ";" = some (.primitive .semicolon) := by
      simp only [Machine.begun, Dictionary.find?_define, if_neg hname, hsemicolon]
    have hend := semicolon (m := (m.begun name).compiled code m.data) rfl hfind himmediate
      (by simp only [Machine.compiled, Machine.begun, Heap.capacity_fill, Heap.here_fill]; omega)
    exact behind (hcolon.append hread) hend

end Forth

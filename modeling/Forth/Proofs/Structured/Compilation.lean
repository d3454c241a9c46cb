/-
Compiling structured programs.  The control words are words of the library that run while a definition
is read: they append jumps, leave the addresses of offsets that are not known yet on the data stack, and
fill them in later.  Reading the text of a program appends its code, and nothing else is changed.
-/
import Forth.Proofs.Reading
import Forth.Proofs.Structured.Execution

namespace Forth

open Machine Run

namespace Heap

/-- Fills the next cells. -/
def fill (heap : Heap) : List Cell → Heap
  | [] => heap
  | c :: cs => (heap.push c).fill cs

variable {heap : Heap}

@[simp] theorem here_fill (heap : Heap) (cs : List Cell) : (heap.fill cs).here = heap.here + cs.length := by
  induction cs generalizing heap with
  | nil => rfl
  | cons c cs ih =>
      simp only [fill, ih, here_push, List.length_cons]
      omega

@[simp] theorem capacity_fill (heap : Heap) (cs : List Cell) :
    (heap.fill cs).capacity = heap.capacity := by
  induction cs generalizing heap with
  | nil => rfl
  | cons c cs ih => simp only [fill, ih, capacity_push]

theorem fill_append (heap : Heap) (cs ds : List Cell) :
    heap.fill (cs ++ ds) = (heap.fill cs).fill ds := by
  induction cs generalizing heap with
  | nil => rfl
  | cons c cs ih => exact ih _

theorem extends_fill (heap : Heap) (cs : List Cell) : heap.Extends (heap.fill cs) := by
  induction cs generalizing heap with
  | nil => exact Extends.refl _
  | cons c cs ih => exact (heap.extends_push c).trans (ih _)

/-- Cells that fit are where they were put. -/
theorem holds_fill {cs : List Cell} (hroom : heap.here + cs.length ≤ heap.capacity) :
    (heap.fill cs).Holds heap.here cs := by
  induction cs generalizing heap with
  | nil =>
      intro i c hc
      cases hc
  | cons c cs ih =>
      simp only [List.length_cons] at hroom
      have hcell : (heap.push c).Filled heap.here c := by
        refine ⟨by simp, ?_⟩
        rw [get?_push, if_pos ⟨rfl, by omega⟩]
      have hrest := @ih (heap.push c) (by simp only [here_push, capacity_push]; omega)
      exact holds_cons.mpr ⟨hcell.of_extends (extends_fill _ cs), hrest⟩

/-- Cells behind those that are filled keep what they hold. -/
theorem get?_fill_of_le {a : Nat} (cs : List Cell) (ha : heap.here + cs.length ≤ a) :
    (heap.fill cs).get? a = heap.get? a := by
  induction cs generalizing heap with
  | nil => rfl
  | cons c cs ih =>
      simp only [List.length_cons] at ha
      rw [fill, ih (by simp only [here_push]; omega), get?_push, if_neg (by omega)]

theorem set_fill {a : Nat} {c : Cell} (cs : List Cell) (ha : a < heap.here) :
    (heap.fill cs).set a c = (heap.set a c).fill cs := by
  induction cs generalizing heap with
  | nil => rfl
  | cons d cs ih =>
      have hcomm : (heap.push d).set a c = (heap.set a c).push d := by
        simp only [set, push, Array.setIfInBounds_comm d c (Nat.ne_of_gt ha)]
      simp only [fill]
      rw [ih (by simp; omega), hcomm]

/-- Overwriting one of the cells that were put last. -/
theorem set_fill_append {a : Nat} {c d : Cell} (cs ds : List Cell) (ha : a = heap.here + cs.length) :
    (heap.fill (cs ++ c :: ds)).set a d = heap.fill (cs ++ d :: ds) := by
  have hset : ∀ heap : Heap, (heap.push c).set heap.here d = heap.push d := by
    intro heap
    simp only [set, push, Array.setIfInBounds_setIfInBounds]
  subst ha
  simp only [fill_append, fill]
  rw [set_fill ds (by simp), ← here_fill heap cs, hset]

end Heap

/-- The control words of the library. -/
inductive ControlWord where
  | ifWord | thenWord | elseWord | beginWord | untilWord | againWord | whileWord | repeatWord
deriving DecidableEq, Repr

namespace ControlWord

def name : ControlWord → String
  | ifWord => "if"
  | thenWord => "then"
  | elseWord => "else"
  | beginWord => "begin"
  | untilWord => "until"
  | againWord => "again"
  | whileWord => "while"
  | repeatWord => "repeat"

/-- Where the library puts the word. -/
def address : ControlWord → Nat
  | ifWord => 45
  | thenWord => 53
  | elseWord => 59
  | beginWord => 73
  | untilWord => 75
  | againWord => 82
  | whileWord => 89
  | repeatWord => 97

/-- Appends a jump whose offset is not known yet, and leaves the address of the offset. -/
def markCells (o : Primitive) : List Cell :=
  [.op (.primitive .tick), .op (.primitive o), .op (.primitive .comma), .op (.primitive .here),
    .op (.primitive .lit), .int 0, .op (.primitive .comma)]

/-- Appends a jump to the address that was left. -/
def backCells (o : Primitive) : List Cell :=
  [.op (.primitive .tick), .op (.primitive o), .op (.primitive .comma), .op (.primitive .here),
    .op (.primitive .sub), .op (.primitive .comma)]

/-- Computes the offset, of which the address was left, to where the next cell is appended. -/
def aimCells : List Cell :=
  [.op (.primitive .here), .op (.body StackWord.overWord.address), .op (.primitive .sub),
    .op (.primitive .swap)]

/-- The code of a word, up to the end marker. -/
def code : ControlWord → List Cell
  | ifWord | whileWord => markCells .jumpIfFalse
  | thenWord => aimCells ++ [.op (.primitive .store)]
  | elseWord => markCells .jump ++ [.op (.primitive .swap)] ++ aimCells ++ [.op (.primitive .store)]
  | beginWord => [.op (.primitive .here)]
  | untilWord => backCells .jumpIfFalse
  | againWord => backCells .jump
  | repeatWord => [.op (.primitive .swap)] ++ backCells .jump ++ aimCells ++ [.op (.primitive .store)]

/-- The heap has the code of all control words. -/
def Present (heap : Heap) : Prop :=
  ∀ w : ControlWord, heap.Holds w.address (w.code ++ [.op .exit])

end ControlWord

theorem Machine.appendAll_of_room (cells : List Cell) {m : Machine}
    (hroom : m.heap.here + cells.length ≤ m.heap.capacity) :
    appendAll cells m = .ok () { m with heap := m.heap.fill cells } := by
  induction cells generalizing m with
  | nil => rfl
  | cons c cells ih =>
      simp only [List.length_cons] at hroom
      have hfirst := append_of_room (m := m) (c := c) (by omega)
      exact (Action.bind_of_ok hfirst).trans
        (ih (by simp only [Heap.here_push, Heap.capacity_push]; omega))

/-- The place at which a body that is called begins. -/
def Machine.entry (m : Machine) (a : Nat) : Place :=
  ⟨0, a, m.returns.push (Cell.ofAddress m.ip)⟩

/-- A call whose body comes to its end. -/
theorem Machine.reaches_call {m m' : Machine} {a b : Nat} (hroom : m.returns.depth < m.returnLimit)
    (hip : m.ip < Cell.addressLimit)
    (hsteps : Steps 0 (m.placed (m.entry a)) 0 (m'.placed (m.entry b)))
    (hexit : m'.heap.get? b = some (.op .exit)) :
    Reaches (fun fuel => call fuel (.body a)) m (.ok () (m'.placed ⟨0, m.ip, m.returns⟩)) := by
  have hfinish : step 0 (m'.placed (m.entry b)) = .ok .finished (m'.placed (m.entry (b + 1))) :=
    step_exit_zero hexit
  obtain ⟨fuel, hthread⟩ := hsteps.reaches ⟨1, thread_of_step_finished 0 hfinish⟩
  have hrestore : (liftM restoreIp : Run Unit) (m'.placed (m.entry (b + 1))) =
      some (.ok () (m'.placed ⟨0, m.ip, m.returns⟩)) := by
    rw [Run.lift_apply, restoreIp_of_returns hip rfl]
    rfl
  exact ⟨fuel, (call_body_of_room hroom).trans ((Run.bind_of_ok hthread).trans hrestore)⟩

namespace Executes

variable {heap : Heap} {limit k a b : Nat} {m m' : Machine} {x : Nat → Run Unit}

theorem reaches_call_of_ok
    (hexec : Executes heap limit (m.entry a) k x (fun _ => m.entry b)) (hm : m.Hosts heap limit)
    (hexit : heap.Filled b (.op .exit)) (hroom : m.returns.depth < limit)
    (hip : m.ip < Cell.addressLimit) (hr : Reaches x m (.ok () m')) :
    Reaches (fun fuel => call fuel (.body a)) m (.ok () (m'.placed ⟨0, m.ip, m.returns⟩)) := by
  obtain ⟨hm', hsteps⟩ := hexec.ok hm hr
  exact Machine.reaches_call (hm.limit_eq.symm ▸ hroom) hip hsteps (hm'.get? hexit)

theorem reaches_call_of_error
    (hexec : Executes heap limit (m.entry a) k x (fun _ => m.entry b)) (hm : m.Hosts heap limit)
    (hroom : m.returns.depth < limit) {e : Error} (hr : Reaches x m (.error e m')) :
    ∃ q, Reaches (fun fuel => call fuel (.body a)) m (.error e (m'.placed q)) := by
  obtain ⟨q, n, m₁, hsteps, hstep⟩ := hexec.error hm hr
  obtain ⟨fuel, hthread⟩ := hsteps.reaches ⟨1, thread_of_step_error 0 hstep⟩
  exact ⟨q, fuel, (call_body_of_room (hm.limit_eq.symm ▸ hroom)).trans (Run.bind_of_error hthread)⟩

/-- A call that answers has a computation behind it that answers. -/
theorem answers_of_call
    (hexec : Executes heap limit (m.entry a) k x (fun _ => m.entry b)) (hm : m.Hosts heap limit)
    (hroom : m.returns.depth < limit) {r : Outcome Unit}
    (hr : Reaches (fun fuel => call fuel (.body a)) m r) : ∃ r', Reaches x m r' := by
  obtain ⟨fuel, hfuel⟩ := hr
  have hcall := (call_body_of_room (hm.limit_eq.symm ▸ hroom)).symm.trans hfuel
  have hthread : ∃ r₁, thread fuel 0 (m.placed (m.entry a)) = some r₁ := by
    rcases Run.of_bind_eq_some hcall with ⟨_, m₁, hfirst, _⟩ | ⟨e, m₁, hfirst, _⟩
    · exact ⟨_, hfirst⟩
    · exact ⟨_, hfirst⟩
  obtain ⟨r₁, hr₁⟩ := hthread
  rcases hexec.answers hm hr₁ with ⟨e, m₁, he⟩ | ⟨_, m₁, _, hok, _⟩
  · exact ⟨_, he⟩
  · exact ⟨_, hok⟩

end Executes

namespace ControlWord

variable {heap : Heap} {limit room : Nat}

/-- What the code that marks an offset does. -/
def mark (o : Primitive) : Action Unit := do
  push (.op (.primitive o))
  Primitive.execute .comma
  Primitive.execute .here
  push (.int 0)
  Primitive.execute .comma

def back (o : Primitive) : Action Unit := do
  push (.op (.primitive o))
  Primitive.execute .comma
  Primitive.execute .here
  Primitive.execute .sub
  Primitive.execute .comma

def aim : Action Unit := do
  Primitive.execute .here
  StackWord.effect .overWord
  Primitive.execute .sub
  Primitive.execute .swap

theorem performs_mark (o : Primitive) : Performs heap limit room (markCells o) (mark o) :=
  (Performs.inline _ rfl).append ((Performs.primitive .comma rfl).append
    ((Performs.primitive .here rfl).append ((Performs.inline _ rfl).append (.primitive .comma rfl))))

theorem performs_back (o : Primitive) : Performs heap limit room (backCells o) (back o) :=
  (Performs.inline _ rfl).append ((Performs.primitive .comma rfl).append
    ((Performs.primitive .here rfl).append ((Performs.dataWord rfl).append (.primitive .comma rfl))))

theorem performs_aim
    (h : heap.Holds StackWord.overWord.address (StackWord.overWord.code ++ [.op .exit])) :
    Performs heap limit 2 aimCells aim :=
  (Performs.primitive .here rfl).append ((StackWord.performs_over h).append
    ((Performs.dataWord rfl).append (.dataWord rfl)))

section

variable {m m' : Machine} {x : Action Unit}

theorem mark_eq (o : Primitive) : mark o = (do
    append (.op (.primitive o))
    Primitive.execute .here
    append (.int 0)) := by
  simp [mark, Primitive.execute]

theorem back_eq (o : Primitive) : back o = (do
    append (.op (.primitive o))
    Primitive.execute .here
    Primitive.execute .sub
    Primitive.execute .comma) := by
  simp [back, Primitive.execute]

theorem mark_apply (o : Primitive) (hroom : m.heap.here + 1 < m.heap.capacity) :
    mark o m = .ok () { m with
      heap := m.heap.fill [.op (.primitive o), .int 0]
      data := m.data.push (Cell.ofAddress (m.heap.here + 1)) } := by
  have hjump := append_of_room (m := m) (c := .op (.primitive o)) (by omega)
  have hoffset := append_of_room (c := .int 0) (m := { m with
    heap := m.heap.push (.op (.primitive o))
    data := m.data.push (Cell.ofAddress (m.heap.here + 1)) }) (by simpa using hroom)
  rw [mark_eq, Action.bind_of_ok hjump]
  exact (Action.bind_of_ok rfl).trans hoffset

theorem sub_apply (m : Machine) (a b : Nat) :
    Primitive.execute .sub { m with data := (m.data.push (Cell.ofAddress a)).push (Cell.ofAddress b) } =
      .ok () { m with data := m.data.push (.int (Int64.ofInt (a - b))) } := by
  have hsub : Int64.ofNat a - Int64.ofNat b = Int64.ofInt (a - b) := by
    rw [Int64.ofInt_sub, Int64.ofInt_eq_ofNat, Int64.ofInt_eq_ofNat]
  rw [← hsub]
  rfl

theorem comma_apply {c : Cell} (hroom : m.heap.here < m.heap.capacity) :
    Primitive.execute .comma { m with data := m.data.push c } =
      .ok () { m with heap := m.heap.push c } :=
  append_of_room hroom

theorem over_apply (m : Machine) (c d : Cell) :
    StackWord.effect .overWord { m with data := (m.data.push c).push d } =
      .ok () { m with data := ((m.data.push c).push d).push c } := rfl

theorem swap_apply (m : Machine) (c d : Cell) :
    Primitive.execute .swap { m with data := (m.data.push c).push d } =
      .ok () { m with data := (m.data.push d).push c } := rfl

theorem back_apply (o : Primitive) {a : Nat} (hroom : m.heap.here + 1 < m.heap.capacity) :
    back o { m with data := m.data.push (Cell.ofAddress a) } = .ok () { m with
      heap := m.heap.fill
        [.op (.primitive o), .int (Int64.ofInt (a - (m.heap.here + 1 : Nat)))] } := by
  let m₁ : Machine := { m with heap := m.heap.push (.op (.primitive o)) }
  have hjump := append_of_room (c := .op (.primitive o))
    (m := { m with data := m.data.push (Cell.ofAddress a) }) (Nat.lt_of_succ_lt hroom)
  have hsub := sub_apply m₁ a (m.heap.here + 1)
  have hcomma := comma_apply (m := m₁) (c := .int (Int64.ofInt (a - (m.heap.here + 1 : Nat))))
    (by simpa [m₁] using hroom)
  rw [back_eq, Action.bind_of_ok hjump]
  exact (Action.bind_of_ok rfl).trans ((Action.bind_of_ok hsub).trans hcomma)

theorem aim_apply (m : Machine) (a : Nat) :
    aim { m with data := m.data.push (Cell.ofAddress a) } = .ok () { m with
      data := (m.data.push (.int (Int64.ofInt (m.heap.here - a)))).push (Cell.ofAddress a) } := by
  let m₁ : Machine := { m with data := m.data.push (Cell.ofAddress a) }
  have hover := over_apply m (Cell.ofAddress a) (Cell.ofAddress m.heap.here)
  have hsub := sub_apply m₁ m.heap.here a
  have hswap := swap_apply m (Cell.ofAddress a) (.int (Int64.ofInt (m.heap.here - a)))
  refine (Action.bind_of_ok rfl).trans ?_
  exact (Action.bind_of_ok hover).trans ((Action.bind_of_ok hsub).trans hswap)

/-- What `else` does before it stores. -/
theorem mark_aim_apply {a : Nat} (hroom : m.heap.here + 1 < m.heap.capacity) :
    (do (do mark .jump; Primitive.execute .swap); aim : Action Unit)
        { m with data := m.data.push (Cell.ofAddress a) } = .ok () { m with
      heap := m.heap.fill [.op (.primitive .jump), .int 0]
      data := ((m.data.push (Cell.ofAddress (m.heap.here + 1))).push
        (.int (Int64.ofInt ((m.heap.here + 2 : Nat) - a)))).push (Cell.ofAddress a) } := by
  have hmark := mark_apply .jump (m := { m with data := m.data.push (Cell.ofAddress a) }) hroom
  have hswap := swap_apply { m with heap := m.heap.fill [.op (.primitive .jump), .int 0] }
    (Cell.ofAddress a) (Cell.ofAddress (m.heap.here + 1))
  have haim := aim_apply { m with
    heap := m.heap.fill [.op (.primitive .jump), .int 0]
    data := m.data.push (Cell.ofAddress (m.heap.here + 1)) } a
  exact (Action.bind_of_ok ((Action.bind_of_ok hmark).trans hswap)).trans haim

/-- What `repeat` does before it stores. -/
theorem back_aim_apply {a b : Nat} (hroom : m.heap.here + 1 < m.heap.capacity) :
    (do (do Primitive.execute .swap; back .jump); aim : Action Unit)
        { m with data := (m.data.push (Cell.ofAddress a)).push (Cell.ofAddress b) } = .ok () { m with
      heap := m.heap.fill [.op (.primitive .jump), .int (Int64.ofInt (a - (m.heap.here + 1 : Nat)))]
      data := (m.data.push (.int (Int64.ofInt ((m.heap.here + 2 : Nat) - b)))).push
        (Cell.ofAddress b) } := by
  have hswap := swap_apply m (Cell.ofAddress a) (Cell.ofAddress b)
  have hback := back_apply .jump (a := a) (m := { m with data := m.data.push (Cell.ofAddress b) }) hroom
  have haim := aim_apply { m with
    heap := m.heap.fill [.op (.primitive .jump), .int (Int64.ofInt (a - (m.heap.here + 1 : Nat)))] } b
  exact (Action.bind_of_ok ((Action.bind_of_ok hswap).trans hback)).trans haim

theorem store_apply {a : Nat} {c : Cell} (hlimit : a < Cell.addressLimit) (ha : a < m.heap.capacity) :
    Primitive.execute .store { m with data := (m.data.push c).push (Cell.ofAddress a) } =
      .ok () { m with heap := m.heap.set a c } := by
  have haddress : popAddress { m with data := (m.data.push c).push (Cell.ofAddress a) } =
      .ok a { m with data := m.data.push c } := by
    change demand (Cell.ofAddress a).toAddress _ = _
    rw [Cell.toAddress_ofAddress hlimit]
    rfl
  have hstore : Machine.store a c m = .ok () { m with heap := m.heap.set a c } := if_pos ha
  exact (Action.bind_of_ok haddress).trans ((Action.bind_of_ok rfl).trans hstore)

end

end ControlWord

/-- The machine is compiling, and has the code of the library and room to run it. -/
structure Machine.Compiling (m : Machine) : Prop where
  mode : m.mode = .compile
  overWord : m.heap.Holds StackWord.overWord.address (StackWord.overWord.code ++ [.op .exit])
  controlWords : ControlWord.Present m.heap
  ip_lt : m.ip < Cell.addressLimit
  capacity_lt : m.heap.capacity < Cell.addressLimit
  room : m.returns.depth + 3 ≤ m.returnLimit

/-- The machine after cells have been compiled, with another data stack. -/
def Machine.compiled (m : Machine) (cells : List Cell) (data : Stack) : Machine :=
  { m with heap := m.heap.fill cells, data := data }

/-- The cells to which a word is compiled, unless it is executed at once or unknown. -/
def Dictionary.compile? (d : Dictionary) (word : String) : Option (List Cell) :=
  match d.find? word with
  | some op => if d.isImmediate word then none else some [.op op]
  | none => (Numeral.int64? word).map fun n => [.op (.primitive .lit), .int n]

theorem Dictionary.compile?_literal {d : Dictionary} {l : Literal} (hl : d.find? l.text = none) :
    d.compile? l.text = some [.op (.primitive .lit), .int l.value] := by
  simp only [compile?, hl, l.denotes, Option.map_some]

theorem Dictionary.compile?_entry {d : Dictionary} {name : String} {op : Op}
    (hfind : d.find? name = some op) (hordinary : d.isImmediate name = false) :
    d.compile? name = some [.op op] := by
  simp only [compile?, hfind, hordinary, Bool.false_eq_true, ↓reduceIte]

/-- A word that is compiled appends its cells. -/
theorem Machine.dispatch_of_compile? {m : Machine} {word : String} {cells : List Cell} (fuel : Nat)
    (hmode : m.mode = .compile) (hcells : m.dictionary.compile? word = some cells) :
    dispatch fuel word m = some (appendAll cells m) := by
  rw [dispatch_apply, hmode]
  unfold Dictionary.compile? at hcells
  cases hfind : m.dictionary.find? word with
  | some op =>
      rw [hfind] at hcells
      cases himmediate : m.dictionary.isImmediate word with
      | true => simp [himmediate] at hcells
      | false =>
          simp only [himmediate, Bool.false_eq_true, ↓reduceIte, Option.some.injEq] at hcells ⊢
          simp [← hcells, appendAll, Run.lift_apply]
  | none =>
      rw [hfind] at hcells
      obtain ⟨n, hnumeral, rfl⟩ := Option.map_eq_some_iff.mp hcells
      simp only [number, hnumeral, appendAll, bind_pure_unit]
      rw [← Run.lift_apply, Run.lift_bind]
      rfl

theorem Reads.compile {m : Machine} {word : String} {cells : List Cell} (hmode : m.mode = .compile)
    (hcells : m.dictionary.compile? word = some cells)
    (hroom : m.heap.here + cells.length ≤ m.heap.capacity) :
    Reads [word] m (m.compiled cells m.data) := by
  apply Reads.word
  intro source
  have hdispatch := dispatch_of_compile? (m := { m with source := source }) 0 hmode hcells
  exact ⟨0, hdispatch.trans (congrArg some (appendAll_of_room cells hroom))⟩

/-- The dictionary has the control word, as an immediate one. -/
structure Dictionary.Controls (d : Dictionary) (w : ControlWord) : Prop where
  find? : d.find? w.name = some (.body w.address)
  isImmediate : d.isImmediate w.name = true

namespace Machine.Compiling

variable {m m' : Machine} {w : ControlWord} {x : Action Unit}

theorem compiled (h : m.Compiling) (cells : List Cell) (data : Stack) :
    (m.compiled cells data).Compiling where
  mode := h.mode
  overWord := h.overWord.of_extends (Heap.extends_fill _ _)
  controlWords w := (h.controlWords w).of_extends (Heap.extends_fill _ _)
  ip_lt := h.ip_lt
  capacity_lt := (Heap.capacity_fill m.heap cells).symm ▸ h.capacity_lt
  room := h.room

theorem with_source (h : m.Compiling) (source : Option Source) :
    Compiling { m with source := source } :=
  ⟨h.mode, h.overWord, h.controlWords, h.ip_lt, h.capacity_lt, h.room⟩

/-- The end of a control word is far below the cells that are compiled. -/
theorem address_lt (w : ControlWord) : w.address + w.code.length < 110 := by
  cases w <;> decide

/-- A word whose code performs an action. -/
theorem reaches_call_of_performs (h : m.Compiling) {a : Nat} {cells : List Cell}
    (hcells : m.heap.Holds a (cells ++ [.op .exit])) (hlimit : a + cells.length < Cell.addressLimit)
    (hcode : Performs m.heap m.returnLimit 2 cells x) (hx : x m = .ok () m') :
    Reaches (fun fuel => call fuel (.body a)) m (.ok () (m'.placed ⟨0, m.ip, m.returns⟩)) := by
  obtain ⟨hcells, hexit⟩ := Heap.holds_append.mp hcells
  have hroom := h.room
  have hexec := hcode (m.entry 0) a hcells hlimit
    (by change m.returns.depth + 1 + 2 ≤ m.returnLimit; omega)
  obtain ⟨hhosts, hsteps⟩ := hexec.ok ⟨Heap.Extends.refl _, rfl⟩ (reaches_lift_iff.mpr hx)
  exact Machine.reaches_call (by omega) h.ip_lt hsteps (hhosts.get? (Heap.holds_cons.mp hexit).1)

theorem reaches_call (h : m.Compiling) (hcode : Performs m.heap m.returnLimit 2 w.code x)
    (hx : x m = .ok () m') :
    Reaches (fun fuel => call fuel (.body w.address)) m (.ok () (m'.placed ⟨0, m.ip, m.returns⟩)) :=
  h.reaches_call_of_performs (h.controlWords w) (Nat.lt_trans (address_lt w) (by decide)) hcode hx

/-- The beginning of the code of a control word, as the word is called. -/
theorem executes_control (h : m.Compiling) {cells rest : List Cell} (hw : w.code = cells ++ rest)
    (hcode : Performs m.heap m.returnLimit 2 cells x) :
    Executes m.heap m.returnLimit (m.entry w.address) 0 (fun _ => (liftM x : Run Unit))
      (fun _ => m.entry (w.address + cells.length)) := by
  have hlow := address_lt w
  have hcells := h.controlWords w
  rw [hw, List.append_assoc] at hcells
  rw [hw, List.length_append] at hlow
  have hroom := h.room
  have hlimit : w.address + cells.length < Cell.addressLimit :=
    Nat.lt_trans (m := 110) (by omega) (by decide)
  exact hcode (m.entry 0) w.address (Heap.holds_append.mp hcells).1 hlimit
    (by change m.returns.depth + 1 + 2 ≤ m.returnLimit; omega)

/-- A control word whose code performs an action and then overwrites a cell behind the library. -/
theorem reaches_call_store (h : m.Compiling) (m' : Machine) {cells : List Cell} {a : Nat} {c : Cell}
    (hw : w.code = cells ++ [.op (.primitive .store)])
    (hcode : Performs m.heap m.returnLimit 2 cells x)
    (hx : x m = .ok () { m' with data := (m'.data.push c).push (Cell.ofAddress a) })
    (hbehind : 110 ≤ a) (ha : a < m.heap.capacity) :
    Reaches (fun fuel => call fuel (.body w.address)) m
      (.ok () (Machine.placed { m' with heap := m'.heap.set a c } ⟨0, m.ip, m.returns⟩)) := by
  have hlow := address_lt w
  have hcells := h.controlWords w
  rw [hw] at hcells hlow
  simp only [List.append_assoc, Heap.holds_append, List.length_append, List.length_cons,
    List.length_nil] at hcells hlow
  obtain ⟨_, hstore, hexit⟩ := hcells
  have hroom := h.room
  obtain ⟨hhosts, hsteps⟩ := (h.executes_control hw hcode).ok ⟨Heap.Extends.refl _, rfl⟩
    (reaches_lift_iff.mpr hx)
  have hcapacity : m'.heap.capacity = m.heap.capacity := hhosts.heap_extends.capacity
  have hexecute := ControlWord.store_apply (c := c) (m := m'.placed (m.entry (w.address + cells.length + 1)))
    (Nat.lt_trans ha h.capacity_lt) (hcapacity.symm ▸ ha)
  have hstep : step 0 (Machine.placed { m' with data := (m'.data.push c).push (Cell.ofAddress a) }
      (m.entry (w.address + cells.length))) = .ok (.more 0)
        (Machine.placed { m' with heap := m'.heap.set a c } (m.entry (w.address + cells.length + 1))) :=
    step_primitive_ok (hhosts.get? (Heap.holds_cons.mp hstore).1) hexecute
  have hend : (m'.heap.set a c).get? (w.address + cells.length + 1) = some (.op .exit) := by
    rw [Heap.get?_set, if_neg (by omega)]
    exact hhosts.get? (Heap.holds_cons.mp hexit).1
  exact Machine.reaches_call (by omega) h.ip_lt (hsteps.tail hstep) hend

/-- The control words end before the cells that are compiled. -/
theorem le_here (h : m.Compiling) : 110 ≤ m.heap.here :=
  (h.controlWords .repeatWord 12 (.op .exit) rfl).1

/-- An immediate word is executed. -/
theorem reads_immediate (h : m.Compiling) {word : String} {a : Nat}
    (hfind : m.dictionary.find? word = some (.body a)) (himmediate : m.dictionary.isImmediate word = true)
    (hcall : ∀ source, Reaches (fun fuel => call fuel (.body a)) { m with source := source }
      (.ok () { m' with source := source })) : Reads [word] m m' := by
  apply Reads.word
  intro source
  obtain ⟨fuel, hfuel⟩ := hcall source
  have hdispatch := dispatch_of_immediate (m := { m with source := source }) fuel h.mode hfind himmediate
  exact ⟨fuel, hdispatch.trans hfuel⟩

theorem reads_control (h : m.Compiling) (hw : m.dictionary.Controls w)
    (hcall : ∀ source, Reaches (fun fuel => call fuel (.body w.address)) { m with source := source }
      (.ok () { m' with source := source })) : Reads [w.name] m m' :=
  h.reads_immediate hw.find? hw.isImmediate hcall

/-- A word that appends a jump with an open offset. -/
theorem reads_mark (h : m.Compiling) (xs : List Cell) (s : Stack) (hw : m.dictionary.Controls w)
    {o : Primitive} (hcode : w.code = ControlWord.markCells o) {a : Nat}
    (ha : a = m.heap.here + xs.length + 1) (hroom : a < m.heap.capacity) :
    Reads [w.name] (m.compiled xs s)
      (m.compiled (xs ++ [.op (.primitive o), .int 0]) (s.push (Cell.ofAddress a))) := by
  have hm := h.compiled xs s
  apply hm.reads_control hw
  intro source
  have hperforms : Performs (m.compiled xs s).heap m.returnLimit 2 w.code (ControlWord.mark o) :=
    hcode ▸ ControlWord.performs_mark o
  have hmark := ControlWord.mark_apply (m := { m.compiled xs s with source := source }) o
    (by simpa [Machine.compiled, ha] using hroom)
  have hcall := (hm.with_source source).reaches_call hperforms hmark
  simpa [Machine.compiled, Machine.placed, Heap.fill_append, ha] using hcall

theorem reads_begin (h : m.Compiling) (xs : List Cell) (s : Stack)
    (hw : m.dictionary.Controls .beginWord) :
    Reads ["begin"] (m.compiled xs s)
      (m.compiled xs (s.push (Cell.ofAddress (m.heap.here + xs.length)))) := by
  have hm := h.compiled xs s
  apply hm.reads_control hw
  intro source
  have hperforms : Performs (m.compiled xs s).heap m.returnLimit 2 (ControlWord.code .beginWord) _ :=
    Performs.primitive .here rfl
  have hcall := (hm.with_source source).reaches_call hperforms rfl
  simpa [Machine.compiled, Machine.placed] using hcall

/-- A word that appends a jump back to an address. -/
theorem reads_back (h : m.Compiling) (xs : List Cell) (s : Stack) (hw : m.dictionary.Controls w)
    {o : Primitive} (hcode : w.code = ControlWord.backCells o) {a : Nat} {offset : Int}
    (hoffset : (a : Int) - (m.heap.here + xs.length + 1 : Nat) = offset)
    (hroom : m.heap.here + xs.length + 1 < m.heap.capacity) :
    Reads [w.name] (m.compiled xs (s.push (Cell.ofAddress a)))
      (m.compiled (xs ++ Program.jumpCells o offset) s) := by
  have hm := h.compiled xs (s.push (Cell.ofAddress a))
  apply hm.reads_control hw
  intro source
  have hperforms : Performs (m.compiled xs s).heap m.returnLimit 2 w.code (ControlWord.back o) :=
    hcode ▸ ControlWord.performs_back o
  have hback := ControlWord.back_apply (a := a) (m := { m.compiled xs s with source := source }) o
    (by simpa [Machine.compiled] using hroom)
  have hcall := (hm.with_source source).reaches_call hperforms hback
  simp only [Machine.compiled, Machine.placed, Heap.here_fill, hoffset, ← Heap.fill_append] at hcall
  exact hcall

/-- The offset of a jump is filled in: it leads behind the cells that were compiled since. -/
theorem reads_then (h : m.Compiling) (xs ys : List Cell) (s : Stack)
    (hw : m.dictionary.Controls .thenWord) {a : Nat} (ha : a = m.heap.here + xs.length)
    (hroom : a < m.heap.capacity) :
    Reads ["then"] (m.compiled (xs ++ .int 0 :: ys) (s.push (Cell.ofAddress a)))
      (m.compiled (xs ++ .int (Int64.ofInt (ys.length + 1)) :: ys) s) := by
  have hhere := h.le_here
  have hm := h.compiled (xs ++ .int 0 :: ys) (s.push (Cell.ofAddress a))
  apply hm.reads_control hw
  intro source
  have haim := ControlWord.aim_apply { m.compiled (xs ++ .int 0 :: ys) s with source := source } a
  have hcall := (hm.with_source source).reaches_call_store (w := .thenWord) _ rfl
    (ControlWord.performs_aim hm.overWord) haim (by omega) (by simpa [Machine.compiled] using hroom)
  have hoffset : ((m.heap.here + (xs.length + (ys.length + 1)) : Nat) : Int) - a = ys.length + 1 := by
    omega
  simp only [Machine.compiled, Machine.placed, Heap.here_fill, List.length_append, List.length_cons,
    hoffset, Heap.set_fill_append xs ys ha] at hcall
  exact hcall

/-- The offset of a jump is filled in: it leads behind a jump that is now open itself. -/
theorem reads_else (h : m.Compiling) (xs ys : List Cell) (s : Stack)
    (hw : m.dictionary.Controls .elseWord) {a b : Nat} (ha : a = m.heap.here + xs.length)
    (hb : b = a + ys.length + 2) (hroom : b < m.heap.capacity) :
    Reads ["else"] (m.compiled (xs ++ .int 0 :: ys) (s.push (Cell.ofAddress a)))
      (m.compiled (xs ++ .int (Int64.ofInt (ys.length + 3)) :: (ys ++ [.op (.primitive .jump), .int 0]))
        (s.push (Cell.ofAddress b))) := by
  have hhere := h.le_here
  have hm := h.compiled (xs ++ .int 0 :: ys) (s.push (Cell.ofAddress a))
  apply hm.reads_control hw
  intro source
  have hopen : b = (m.heap.fill (xs ++ .int 0 :: ys)).here + 1 := by
    simp only [Heap.here_fill, List.length_append, List.length_cons]
    omega
  have hmark := ControlWord.mark_aim_apply (a := a)
    (m := { m.compiled (xs ++ .int 0 :: ys) s with source := source })
    (by simpa [Machine.compiled, hopen] using hroom)
  have hcall := (hm.with_source source).reaches_call_store (w := .elseWord)
    { m with
      heap := (m.heap.fill (xs ++ .int 0 :: ys)).fill [.op (.primitive .jump), .int 0]
      data := s.push (Cell.ofAddress ((m.heap.fill (xs ++ .int 0 :: ys)).here + 1))
      source := source } rfl
    (((ControlWord.performs_mark .jump).append (.dataWord rfl)).append
      (ControlWord.performs_aim hm.overWord)) hmark (by omega) (by simp [Machine.compiled]; omega)
  have hoffset : (((m.heap.fill (xs ++ .int 0 :: ys)).here + 2 : Nat) : Int) - a = ys.length + 3 := by
    omega
  simp only [Machine.compiled, Machine.placed, hoffset, ← hopen, ← Heap.fill_append, List.append_assoc,
    List.cons_append, Heap.set_fill_append xs _ ha] at hcall
  exact hcall

/-- A loop is closed: a jump back to its start is appended, and the offset that leaves the loop is
filled in. -/
theorem reads_repeat (h : m.Compiling) (xs ys : List Cell) (s : Stack)
    (hw : m.dictionary.Controls .repeatWord) {a b : Nat} {offset : Int}
    (hb : b = m.heap.here + xs.length) (hstart : (a : Int) - (b + ys.length + 2 : Nat) = offset)
    (hroom : b + ys.length + 2 < m.heap.capacity) :
    Reads ["repeat"]
      (m.compiled (xs ++ .int 0 :: ys) ((s.push (Cell.ofAddress a)).push (Cell.ofAddress b)))
      (m.compiled (xs ++ .int (Int64.ofInt (ys.length + 3)) ::
        (ys ++ Program.jumpCells .jump offset)) s) := by
  have hhere := h.le_here
  have hm := h.compiled (xs ++ .int 0 :: ys) ((s.push (Cell.ofAddress a)).push (Cell.ofAddress b))
  apply hm.reads_control hw
  intro source
  have hopen : b + ys.length + 2 = (m.heap.fill (xs ++ .int 0 :: ys)).here + 1 := by
    simp only [Heap.here_fill, List.length_append, List.length_cons]
    omega
  have hback := ControlWord.back_aim_apply (a := a) (b := b)
    (m := { m.compiled (xs ++ .int 0 :: ys) s with source := source })
    (by simpa [Machine.compiled, hopen] using hroom)
  have hcall := (hm.with_source source).reaches_call_store (w := .repeatWord)
    { m with
      heap := (m.heap.fill (xs ++ .int 0 :: ys)).fill [.op (.primitive .jump),
        .int (Int64.ofInt (a - ((m.heap.fill (xs ++ .int 0 :: ys)).here + 1 : Nat)))]
      data := s
      source := source } rfl
    (((Performs.dataWord rfl).append (ControlWord.performs_back .jump)).append
      (ControlWord.performs_aim hm.overWord)) hback (by omega) (by simp [Machine.compiled]; omega)
  have hoffset : (((m.heap.fill (xs ++ .int 0 :: ys)).here + 2 : Nat) : Int) - b = ys.length + 3 := by
    omega
  simp only [Machine.compiled, Machine.placed, hoffset, ← hopen, hstart, ← Heap.fill_append,
    List.append_assoc, List.cons_append, Heap.set_fill_append xs _ hb] at hcall
  exact hcall

end Machine.Compiling

/-- Reading the words appends the cells, wherever the machine has got to in a definition. -/
def Machine.CompilesTo (m : Machine) (words : List String) (cells : List Cell) : Prop :=
  ∀ (xs : List Cell) (s : Stack), m.heap.here + xs.length + cells.length ≤ m.heap.capacity →
    Reads words (m.compiled xs s) (m.compiled (xs ++ cells) s)

namespace Machine.CompilesTo

open Program

variable {m : Machine} {ts us : List String} {cs ds : List Cell}

theorem nil (m : Machine) : m.CompilesTo [] [] := by
  intro xs s _
  simpa using Reads.nil (m.compiled xs s)

theorem word (h : m.Compiling) {text : String} (hcells : m.dictionary.compile? text = some cs) :
    m.CompilesTo [text] cs := by
  intro xs s hroom
  have hword := Reads.compile (m := m.compiled xs s) h.mode hcells
    (by simpa [Machine.compiled, Nat.add_assoc] using hroom)
  simpa only [Machine.compiled, Heap.fill_append] using hword

theorem numeral (h : m.Compiling) {l : Literal} (hl : m.dictionary.find? l.text = none) :
    m.CompilesTo [l.text] [.op (.primitive .lit), .int l.value] :=
  word h (Dictionary.compile?_literal hl)

theorem entry (h : m.Compiling) {name : String} {op : Op} (hfind : m.dictionary.find? name = some op)
    (hordinary : m.dictionary.isImmediate name = false) : m.CompilesTo [name] [.op op] :=
  word h (Dictionary.compile?_entry hfind hordinary)

theorem append (hP : m.CompilesTo ts cs) (hQ : m.CompilesTo us ds) :
    m.CompilesTo (ts ++ us) (cs ++ ds) := by
  intro xs s hroom
  simp only [List.length_append] at hroom
  have hfirst := hP xs s (by omega)
  have hsecond := hQ (xs ++ cs) s (by simp only [List.length_append]; omega)
  rw [List.append_assoc] at hsecond
  exact hfirst.append hsecond

theorem ifThen (h : m.Compiling) (hif : m.dictionary.Controls .ifWord)
    (hthen : m.dictionary.Controls .thenWord) (hP : m.CompilesTo ts cs) :
    m.CompilesTo ("if" :: ts ++ ["then"]) (jumpCells .jumpIfFalse (cs.length + 1) ++ cs) := by
  intro xs s hroom
  simp only [List.length_append, length_jumpCells] at hroom
  have hopen := h.reads_mark xs s hif (o := .jumpIfFalse) rfl rfl (by omega)
  have hbody := hP (xs ++ [.op (.primitive .jumpIfFalse), .int 0])
    (s.push (Cell.ofAddress (m.heap.here + xs.length + 1)))
    (by simp only [List.length_append, List.length_cons, List.length_nil]; omega)
  have hclose := h.reads_then (xs ++ [.op (.primitive .jumpIfFalse)]) cs s hthen
    (a := m.heap.here + xs.length + 1) (by simp [Nat.add_assoc]) (by omega)
  simp only [jumpCells, List.append_assoc, List.cons_append, List.nil_append] at hopen hbody hclose ⊢
  exact (hopen.append hbody).append hclose

theorem ifElse (h : m.Compiling) (hif : m.dictionary.Controls .ifWord)
    (helse : m.dictionary.Controls .elseWord) (hthen : m.dictionary.Controls .thenWord)
    (hP : m.CompilesTo ts cs) (hQ : m.CompilesTo us ds) :
    m.CompilesTo ("if" :: ts ++ "else" :: us ++ ["then"])
      (jumpCells .jumpIfFalse (cs.length + 3) ++ cs ++ jumpCells .jump (ds.length + 1) ++ ds) := by
  intro xs s hroom
  simp only [List.length_append, length_jumpCells] at hroom
  have hopen := h.reads_mark xs s hif (o := .jumpIfFalse) rfl rfl (by omega)
  have hfirst := hP (xs ++ [.op (.primitive .jumpIfFalse), .int 0])
    (s.push (Cell.ofAddress (m.heap.here + xs.length + 1)))
    (by simp only [List.length_append, List.length_cons, List.length_nil]; omega)
  have hturn := h.reads_else (xs ++ [.op (.primitive .jumpIfFalse)]) cs s helse
    (a := m.heap.here + xs.length + 1) (by simp [Nat.add_assoc]) rfl (by omega)
  let ys : List Cell := xs ++ jumpCells .jumpIfFalse (cs.length + 3) ++ cs ++ [.op (.primitive .jump)]
  have hys : m.heap.here + xs.length + 1 + cs.length + 2 = m.heap.here + ys.length := by
    simp only [ys, List.length_append, length_jumpCells, List.length_cons, List.length_nil]
    omega
  have hsecond := hQ (ys ++ [.int 0]) (s.push (Cell.ofAddress (m.heap.here + ys.length)))
    (by simp only [List.length_append, List.length_cons, List.length_nil]; omega)
  have hclose := h.reads_then ys ds s hthen rfl (by omega)
  rw [hys] at hturn
  simp only [ys, jumpCells, List.append_assoc, List.cons_append, List.nil_append]
    at hopen hfirst hturn hsecond hclose ⊢
  have hall := ((hopen.append hfirst).append (hturn.append hsecond)).append hclose
  simpa only [ControlWord.name, List.append_assoc, List.cons_append, List.nil_append] using hall

/-- A loop that ends in a jump back to its start. -/
theorem loop (h : m.Compiling) (hbegin : m.dictionary.Controls .beginWord) {w : ControlWord}
    (hw : m.dictionary.Controls w) {o : Primitive} (hcode : w.code = ControlWord.backCells o)
    (hP : m.CompilesTo ts cs) :
    m.CompilesTo ("begin" :: ts ++ [w.name]) (cs ++ jumpCells o (-(cs.length + 1))) := by
  intro xs s hroom
  simp only [List.length_append, length_jumpCells] at hroom
  have hopen := h.reads_begin xs s hbegin
  have hbody := hP xs (s.push (Cell.ofAddress (m.heap.here + xs.length))) (by omega)
  have hoffset : ((m.heap.here + xs.length : Nat) : Int) -
      (m.heap.here + (xs ++ cs).length + 1 : Nat) = -(cs.length + 1) := by
    simp only [List.length_append]
    omega
  have hclose := h.reads_back (xs ++ cs) s hw hcode hoffset
    (by simp only [List.length_append]; omega)
  rw [List.append_assoc] at hclose
  exact (hopen.append hbody).append hclose

theorem whileTrue (h : m.Compiling) (hbegin : m.dictionary.Controls .beginWord)
    (hwhile : m.dictionary.Controls .whileWord) (hrepeat : m.dictionary.Controls .repeatWord)
    (hP : m.CompilesTo ts cs) (hQ : m.CompilesTo us ds) :
    m.CompilesTo ("begin" :: ts ++ "while" :: us ++ ["repeat"])
      (cs ++ jumpCells .jumpIfFalse (ds.length + 3) ++ ds ++
        jumpCells .jump (-(cs.length + ds.length + 3))) := by
  intro xs s hroom
  simp only [List.length_append, length_jumpCells] at hroom
  let start : Stack := s.push (Cell.ofAddress (m.heap.here + xs.length))
  have hopen := h.reads_begin xs s hbegin
  have hfirst := hP xs start (by omega)
  have hturn := h.reads_mark (xs ++ cs) start hwhile (o := .jumpIfFalse) rfl rfl
    (by simp only [List.length_append]; omega)
  have hsecond := hQ (xs ++ cs ++ [.op (.primitive .jumpIfFalse), .int 0])
    (start.push (Cell.ofAddress (m.heap.here + (xs ++ cs).length + 1)))
    (by simp only [List.length_append, List.length_cons, List.length_nil]; omega)
  have hoffset : ((m.heap.here + xs.length : Nat) : Int) -
      (m.heap.here + (xs ++ cs).length + 1 + ds.length + 2 : Nat) = -(cs.length + ds.length + 3) := by
    simp only [List.length_append]
    omega
  have hclose := h.reads_repeat (xs ++ cs ++ [.op (.primitive .jumpIfFalse)]) ds s hrepeat
    (by simp only [List.length_append, List.length_cons, List.length_nil]; omega) hoffset
    (by simp only [List.length_append]; omega)
  simp only [jumpCells, List.append_assoc, List.cons_append, List.nil_append]
    at hopen hfirst hturn hsecond hclose ⊢
  have hall := ((hopen.append hfirst).append (hturn.append hsecond)).append hclose
  simpa only [ControlWord.name, List.append_assoc, List.cons_append, List.nil_append] using hall

end Machine.CompilesTo

namespace Program

/-- The dictionary has the words of the program, and no entry for its numerals. -/
structure Known (d : Dictionary) (P : Program) : Prop where
  leaves : P.All (fun l => d.find? l.text = none)
    (fun w => d.find? w.name = some w.op ∧ d.isImmediate w.name = false)
  controls : ∀ w : ControlWord, w.name ∈ P.tokens → d.Controls w

namespace Known

variable {d : Dictionary} {P Q : Program}

theorem seq (h : (seq P Q).Known d) : P.Known d ∧ Q.Known d := by
  obtain ⟨hleaves, hcontrols⟩ := h
  simp only [tokens, List.mem_append, or_imp, forall_and] at hcontrols
  exact ⟨⟨hleaves.1, hcontrols.1⟩, ⟨hleaves.2, hcontrols.2⟩⟩

theorem ifThen (h : (ifThen P).Known d) :
    P.Known d ∧ d.Controls .ifWord ∧ d.Controls .thenWord :=
  ⟨⟨h.leaves, fun w hw => h.controls w (by simp [tokens, hw])⟩,
    h.controls .ifWord (by simp [tokens, ControlWord.name]),
    h.controls .thenWord (by simp [tokens, ControlWord.name])⟩

theorem ifElse (h : (ifElse P Q).Known d) :
    P.Known d ∧ Q.Known d ∧ d.Controls .ifWord ∧ d.Controls .elseWord ∧ d.Controls .thenWord :=
  ⟨⟨h.leaves.1, fun w hw => h.controls w (by simp [tokens, hw])⟩,
    ⟨h.leaves.2, fun w hw => h.controls w (by simp [tokens, hw])⟩,
    h.controls .ifWord (by simp [tokens, ControlWord.name]),
    h.controls .elseWord (by simp [tokens, ControlWord.name]),
    h.controls .thenWord (by simp [tokens, ControlWord.name])⟩

theorem untilTrue (h : (untilTrue P).Known d) :
    P.Known d ∧ d.Controls .beginWord ∧ d.Controls .untilWord :=
  ⟨⟨h.leaves, fun w hw => h.controls w (by simp [tokens, hw])⟩,
    h.controls .beginWord (by simp [tokens, ControlWord.name]),
    h.controls .untilWord (by simp [tokens, ControlWord.name])⟩

theorem whileTrue (h : (whileTrue P Q).Known d) :
    P.Known d ∧ Q.Known d ∧ d.Controls .beginWord ∧ d.Controls .whileWord ∧ d.Controls .repeatWord :=
  ⟨⟨h.leaves.1, fun w hw => h.controls w (by simp [tokens, hw])⟩,
    ⟨h.leaves.2, fun w hw => h.controls w (by simp [tokens, hw])⟩,
    h.controls .beginWord (by simp [tokens, ControlWord.name]),
    h.controls .whileWord (by simp [tokens, ControlWord.name]),
    h.controls .repeatWord (by simp [tokens, ControlWord.name])⟩

theorem forever (h : (forever P).Known d) :
    P.Known d ∧ d.Controls .beginWord ∧ d.Controls .againWord :=
  ⟨⟨h.leaves, fun w hw => h.controls w (by simp [tokens, hw])⟩,
    h.controls .beginWord (by simp [tokens, ControlWord.name]),
    h.controls .againWord (by simp [tokens, ControlWord.name])⟩

end Known

/-- Reading the program appends its code, wherever the machine has got to in a definition. -/
def Compiles (m : Machine) (P : Program) : Prop :=
  ∀ (xs : List Cell) (s : Stack), m.heap.here + xs.length + P.code.length ≤ m.heap.capacity →
    Reads P.tokens (m.compiled xs s) (m.compiled (xs ++ P.code) s)

variable {m : Machine}

/-- Reading a program that the dictionary knows compiles it. -/
theorem compiles (P : Program) (h : m.Compiling) (hP : P.Known m.dictionary) : Compiles m P := by
  suffices hcode : m.CompilesTo P.tokens P.code from hcode
  induction P with
  | skip => exact CompilesTo.nil m
  | literal l => exact CompilesTo.numeral h hP.leaves
  | word w => exact CompilesTo.entry h hP.leaves.1 hP.leaves.2
  | seq P Q ihP ihQ =>
      obtain ⟨hP, hQ⟩ := hP.seq
      exact (ihP hP).append (ihQ hQ)
  | ifThen P ih =>
      obtain ⟨hP, hif, hthen⟩ := hP.ifThen
      exact CompilesTo.ifThen h hif hthen (ih hP)
  | ifElse P Q ihP ihQ =>
      obtain ⟨hP, hQ, hif, helse, hthen⟩ := hP.ifElse
      exact CompilesTo.ifElse h hif helse hthen (ihP hP) (ihQ hQ)
  | untilTrue P ih =>
      obtain ⟨hP, hbegin, huntil⟩ := hP.untilTrue
      exact CompilesTo.loop h hbegin huntil rfl (ih hP)
  | whileTrue P Q ihP ihQ =>
      obtain ⟨hP, hQ, hbegin, hwhile, hrepeat⟩ := hP.whileTrue
      exact CompilesTo.whileTrue h hbegin hwhile hrepeat (ihP hP) (ihQ hQ)
  | forever P ih =>
      obtain ⟨hP, hbegin, hagain⟩ := hP.forever
      exact CompilesTo.loop h hbegin hagain rfl (ih hP)

end Program

/-! ### Definitions -/

/-- The machine after a word with the given code has been defined. -/
def Machine.defined (m : Machine) (name : String) (code : List Cell) : Machine :=
  { m with
    dictionary := m.dictionary.define name (.body m.heap.here)
    heap := m.heap.fill (code ++ [.op .exit])
    lastWord := some name }

namespace Reads

variable {m : Machine} {name : String}

/-- A semicolon ends the definition. -/
theorem semicolon {word : String} (hmode : m.mode = .compile)
    (hfind : m.dictionary.find? word = some (.primitive .semicolon))
    (himmediate : m.dictionary.isImmediate word = true) (hroom : m.heap.here < m.heap.capacity) :
    Reads [word] m { m with heap := m.heap.push (.op .exit), mode := .interpret } := by
  apply Reads.word
  intro source
  have hdispatch := dispatch_of_immediate (m := { m with source := source }) 0 hmode hfind himmediate
  have happend := append_of_room (c := .op .exit) (m := { m with source := source }) hroom
  have hcall : call 0 (.primitive .semicolon) { m with source := source } =
      some (.ok () { m with heap := m.heap.push (.op .exit), mode := .interpret, source := source }) :=
    congrArg some (Action.bind_of_ok happend)
  exact ⟨0, hdispatch.trans hcall⟩

/-- A definition whose body is compiled to the given code. -/
theorem definition {body : List String} {code : List Cell} (hmode : m.mode = .interpret)
    (hcolon : m.dictionary.find? ":" = some (.primitive .colon))
    (hsemicolon : m.dictionary.find? ";" = some (.primitive .semicolon))
    (himmediate : m.dictionary.isImmediate ";" = true) (hname : name ≠ ";")
    (hroom : m.heap.here + code.length + 1 ≤ m.heap.capacity)
    (hbody : Reads body (m.begun name) ((m.begun name).compiled code m.data)) :
    Reads (":" :: (name :: body ++ [";"])) m (m.defined name code) := by
  have hfind : (m.begun name).dictionary.find? ";" = some (.primitive .semicolon) := by
    simp only [Machine.begun, Dictionary.find?_define, if_neg hname, hsemicolon]
  have hend := semicolon (m := (m.begun name).compiled code m.data) rfl hfind himmediate
    (by simpa [Machine.compiled, Machine.begun, Nat.succ_le_iff] using hroom)
  have hdefined : { (m.begun name).compiled code m.data with
      heap := ((m.begun name).compiled code m.data).heap.push (.op .exit)
      mode := .interpret } = m.defined name code := by
    simp [Machine.compiled, Machine.begun, Machine.defined, Heap.fill_append, Heap.fill, hmode]
  exact ((colon name hmode hcolon).append hbody).append (hdefined ▸ hend)

end Reads

end Forth

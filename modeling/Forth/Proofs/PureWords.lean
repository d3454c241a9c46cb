/-
Interpreting and compiling agree.  Words that are made of literals and of primitives on the data stack
do the same whether they are executed one by one as they are read, or compiled into a definition that is
executed then.  Both ways are compared with one action on the data stack, which knows nothing of code.
-/
import Forth.Proofs.Limits
import Forth.Proofs.Structured.Compilation

namespace Forth

open Machine Run

/-! ### Actions on the data stack -/

/-- The action works on the data stack and the output alone, and sees nothing else but how cells are
printed. -/
structure Action.Confined (x : Action Unit) : Prop where
  keeps : ∀ {R : Machine → Machine → Prop}, DataOnly R → Action.Keeps R x
  carries : ∀ {P : Pairing}, P.OnData → P.Carries (fun _ => True) x

/-- A change of the machine that an action on the data stack does not see. -/
structure Machine.Unseen (f : Machine → Machine) : Prop where
  data : ∀ m, (f m).data = m.data
  render : ∀ m c, (f m).render c = m.render c
  withData : ∀ m s, f { m with data := s } = { f m with data := s }
  withOutput : ∀ m e, f { m with output := e :: m.output } = { f m with output := e :: (f m).output }

/-- A machine beside the changed one. -/
def Pairing.unseen (f : Machine → Machine) : Pairing where
  related m m' := m' = f m
  excused _ := False
  admits _ := True
  allows _ _ := True

theorem Pairing.onData_unseen {f : Machine → Machine} (hf : Unseen f) : (unseen f).OnData where
  admits_int _ := trivial
  admits_flag _ := trivial
  admits_data _ _ _ := trivial
  data := by
    rintro m _ rfl
    exact hf.data m
  render := by
    rintro m _ rfl c
    exact hf.render m c
  withData := by
    rintro m _ s rfl _
    exact (hf.withData m s).symm
  withOutput := by
    rintro m _ e rfl
    exact (hf.withOutput m e).symm

namespace Action.Confined

variable {x y : Action Unit} {f : Machine → Machine} {m m' : Machine} {e : Error}

theorem nothing : Confined (pure ()) :=
  ⟨fun hR => hR.keeps_pure (), fun _ => Pairing.carries_pure trivial⟩

theorem pushInt (n : Int64) : Confined (push (.int n)) :=
  ⟨fun hR => hR.keeps_push _, fun hP => hP.carries_pushInt n⟩

theorem dataWord {p : Primitive} (hp : p.isDataWord = true) : Confined p.execute :=
  ⟨fun hR => hR.keeps_execute hp, fun hP => hP.carries_execute hp⟩

theorem seq (hx : Confined x) (hy : Confined y) : Confined (do x; y) :=
  ⟨fun hR => hR.keeps_bind (hx.keeps hR) fun _ => hy.keeps hR,
    fun hP => Pairing.carries_bind (hx.carries hP) fun _ _ => hy.carries hP⟩

theorem ok_of_unseen (hx : Confined x) (hf : Unseen f) (h : x m = .ok () m') :
    x (f m) = .ok () (f m') := by
  have hagrees := hx.carries (Pairing.onData_unseen hf) m (f m) rfl
  rw [h] at hagrees
  obtain ⟨_, _, hok, rfl⟩ := hagrees
  exact hok

theorem error_of_unseen (hx : Confined x) (hf : Unseen f) (h : x m = .error e m') :
    x (f m) = .error e (f m') := by
  have hagrees := hx.carries (Pairing.onData_unseen hf) m (f m) rfl
  rw [h] at hagrees
  rcases hagrees with hexcused | ⟨_, herror, rfl⟩
  · exact hexcused.elim
  · exact herror

end Action.Confined

/-- A new body has no name in print. -/
theorem Dictionary.render_define (d : Dictionary) (name : String) (address : Nat) (c : Cell) :
    (d.define name (.body address)).render c = d.render c := by
  cases c with
  | op o =>
      cases o with
      | primitive p => simp [render, nameOf?, List.find?_append]
      | _ => rfl
  | _ => rfl

namespace Machine

theorem unseen_source (source : Option Source) : Unseen fun m => { m with source := source } where
  data _ := rfl
  render _ _ := rfl
  withData _ _ := rfl
  withOutput _ _ := rfl

theorem unseen_defined (name : String) (code : List Cell) : Unseen fun m => m.defined name code where
  data _ := rfl
  render m c := m.dictionary.render_define name m.heap.here c
  withData _ _ := rfl
  withOutput _ _ := rfl

/-- The machines are the same but for the data stack and the output. -/
def Beside (m m' : Machine) : Prop :=
  ∃ s o, m' = { m with data := s, output := o }

theorem dataOnly_beside : DataOnly Beside where
  refl m := ⟨m.data, m.output, rfl⟩
  trans := by
    rintro m₁ _ _ ⟨s, o, rfl⟩ ⟨s', o', rfl⟩
    exact ⟨s', o', rfl⟩
  data m s := ⟨s, m.output, rfl⟩
  output m e := ⟨m.data, e :: m.output, rfl⟩

end Machine

/-! ### Pure code -/

/-- Cells that push literals, execute primitives on the data stack, and call such cells, which end with
an end marker. -/
inductive PureCode (heap : Heap) : List Cell → Prop where
  | nil : PureCode heap []
  | literal {cells : List Cell} (n : Int64) :
      PureCode heap cells → PureCode heap (.op (.primitive .lit) :: .int n :: cells)
  | primitive {cells : List Cell} {p : Primitive} :
      p.isDataWord = true → PureCode heap cells → PureCode heap (.op (.primitive p) :: cells)
  | call {body cells : List Cell} {address : Nat} :
      heap.Holds address (body ++ [.op .exit]) → PureCode heap body → PureCode heap cells →
        PureCode heap (.op (.body address) :: cells)

/-- A word whose meaning is pure: a literal that is no name, or an ordinary name of a primitive on the
data stack or of a body of pure code. -/
inductive IsPure (d : Dictionary) (heap : Heap) (word : String) : Prop where
  | literal {n : Int64} : d.find? word = none → Numeral.int64? word = some n → IsPure d heap word
  | primitive {p : Primitive} :
      d.find? word = some (.primitive p) → d.isImmediate word = false → p.isDataWord = true →
        IsPure d heap word
  | definition {address : Nat} {body : List Cell} :
      d.find? word = some (.body address) → d.isImmediate word = false →
        heap.Holds address (body ++ [.op .exit]) → PureCode heap body → IsPure d heap word

/-- Cells that have the effect of a confined action, wherever they lie in a heap with the same code, and
with so much room on the return stack. -/
structure CodeMeans (heap : Heap) (room : Nat) (cells : List Cell) (x : Action Unit) : Prop where
  confined : x.Confined
  performs : ∀ {heap' : Heap} {limit : Nat}, heap.Extends heap' → Performs heap' limit room cells x

namespace CodeMeans

variable {heap heap' : Heap} {room room' : Nat} {cells cells' : List Cell} {x y : Action Unit}

theorem of_extends (h : CodeMeans heap room cells x) (hext : heap.Extends heap') :
    CodeMeans heap' room cells x :=
  ⟨h.confined, fun hext' => h.performs (hext.trans hext')⟩

theorem mono (h : CodeMeans heap room cells x) (hroom : room ≤ room') : CodeMeans heap room' cells x :=
  ⟨h.confined, fun hext => (h.performs hext).mono hroom⟩

theorem nil : CodeMeans heap room [] (pure ()) where
  confined := .nothing
  performs {heap' limit} _ p a _ _ _ := Executes.pure heap' limit () fun _ => p.to a

theorem literal (n : Int64) : CodeMeans heap room [.op (.primitive .lit), .int n] (push (.int n)) :=
  ⟨.pushInt n, fun _ => .inline _ rfl⟩

theorem primitive {p : Primitive} (hp : p.isDataWord = true) :
    CodeMeans heap room [.op (.primitive p)] p.execute :=
  ⟨.dataWord hp, fun _ => .dataWord hp⟩

theorem append (hx : CodeMeans heap room cells x) (hy : CodeMeans heap room cells' y) :
    CodeMeans heap room (cells ++ cells') (do x; y) :=
  ⟨hx.confined.seq hy.confined, fun hext => (hx.performs hext).append (hy.performs hext)⟩

/-- The end marker is inside the heap, and so are the cells before it. -/
theorem address_lt {address : Nat} (hcapacity : heap.capacity < Cell.addressLimit)
    (hcode : heap.Holds address (cells ++ [.op .exit])) :
    address + cells.length < Cell.addressLimit := by
  have hexit := (Heap.holds_cons.mp (Heap.holds_append.mp hcode).2).1.2
  exact Nat.lt_trans (Heap.lt_capacity_of_get? hexit) hcapacity

theorem call {address : Nat} (h : CodeMeans heap room cells x)
    (hcapacity : heap.capacity < Cell.addressLimit)
    (hcode : heap.Holds address (cells ++ [.op .exit])) :
    CodeMeans heap (room + 1) [.op (.body address)] x :=
  ⟨h.confined, fun hext => (h.performs hext).body (hcode.of_extends hext) (address_lt hcapacity hcode)⟩

end CodeMeans

theorem PureCode.exists_means {heap : Heap} {cells : List Cell} (h : PureCode heap cells)
    (hcapacity : heap.capacity < Cell.addressLimit) : ∃ room x, CodeMeans heap room cells x := by
  induction h with
  | nil => exact ⟨0, _, .nil⟩
  | literal n _ ih =>
      obtain ⟨room, x, hx⟩ := ih
      exact ⟨room, _, (CodeMeans.literal n).append hx⟩
  | primitive hp _ ih =>
      obtain ⟨room, x, hx⟩ := ih
      exact ⟨room, _, (CodeMeans.primitive hp).append hx⟩
  | call hcode _ _ ihbody ih =>
      obtain ⟨room, x, hx⟩ := ih
      obtain ⟨inner, y, hy⟩ := ihbody
      have hcall := (hy.call hcapacity hcode).mono (Nat.le_max_right room (inner + 1))
      exact ⟨_, _, hcall.append (hx.mono (Nat.le_max_left room (inner + 1)))⟩

/-! ### Reading words as an action -/

/-- Reading the words comes to an error.  The instruction pointer and the return stack are left where
the error occurred. -/
def Stops (words : List String) (m : Machine) (e : Error) (m' : Machine) : Prop :=
  ∀ (s : Source) rest, s.Offers (words ++ rest) → ∃ q s',
    Reaches build { m with source := some s } (.error e { m'.placed q with source := some s' })

theorem Stops.append {xs : List String} {m m' : Machine} {e : Error} (h : Stops xs m e m')
    (ys : List String) : Stops (xs ++ ys) m e m' := by
  intro s rest hs
  rw [List.append_assoc] at hs
  exact h s _ hs

theorem Stops.behind {xs ys : List String} {m m₁ m' : Machine} {e : Error} (hxs : Reads xs m m₁)
    (hys : Stops ys m₁ e m') : Stops (xs ++ ys) m e m' := by
  intro s rest hs
  rw [List.append_assoc] at hs
  obtain ⟨s₁, hs₁, hfirst⟩ := hxs s _ hs
  obtain ⟨q, s', hstop⟩ := hys s₁ rest hs₁
  exact ⟨q, s', hfirst _ hstop⟩

namespace Machine

variable {m : Machine} {word : String} {words : List String} {x y : Action Unit}

/-- Dispatching the word does what the action does.  After an error, the instruction pointer and the
return stack may be others. -/
structure DispatchesAs (m : Machine) (word : String) (x : Action Unit) : Prop where
  ok : ∀ {m'}, x m = .ok () m' → Reaches (fun fuel => dispatch fuel word) m (.ok () m')
  error : ∀ {e m'}, x m = .error e m' →
    ∃ q, Reaches (fun fuel => dispatch fuel word) m (.error e (m'.placed q))

/-- Reading the words does what the action does. -/
structure ReadsAs (m : Machine) (words : List String) (x : Action Unit) : Prop where
  ok : ∀ {m'}, x m = .ok () m' → Reads words m m'
  error : ∀ {e m'}, x m = .error e m' → Stops words m e m'

theorem readsAs_word (hx : x.Confined)
    (h : ∀ source, DispatchesAs { m with source := source } word x) : m.ReadsAs [word] x where
  ok hm' := Reads.word fun source => (h source).ok (hx.ok_of_unseen (unseen_source source) hm')
  error := by
    rintro e m' hm' s rest ⟨token, s', hnext, rfl, _⟩
    obtain ⟨q, hword⟩ := (h (some s')).error (hx.error_of_unseen (unseen_source (some s')) hm')
    obtain ⟨fuel, hfuel⟩ := Reaches.bind_error (f := fun fuel _ => build fuel) hword
    exact ⟨q, s', fuel + 1, (Reads.build_succ fuel hnext).trans hfuel⟩

theorem ReadsAs.nil : m.ReadsAs [] (pure ()) where
  ok hm' := by
    cases hm'
    exact .nil m
  error hm' := by cases hm'

theorem ReadsAs.append {xs ys : List String} (hx : m.ReadsAs xs x)
    (hy : ∀ m₁, x m = .ok () m₁ → m₁.ReadsAs ys y) : m.ReadsAs (xs ++ ys) (do x; y) := by
  cases hfirst : x m with
  | ok _ m₁ =>
      have hseq : (do x; y) m = y m₁ := Action.bind_of_ok hfirst
      refine ⟨fun hm' => ?_, fun hm' => ?_⟩
      · exact (hx.ok hfirst).append ((hy m₁ hfirst).ok (hseq ▸ hm'))
      · exact .behind (hx.ok hfirst) ((hy m₁ hfirst).error (hseq ▸ hm'))
  | error e m₁ =>
      have hseq : (do x; y) m = .error e m₁ := Action.bind_of_error hfirst
      refine ⟨fun hm' => ?_, fun hm' => ?_⟩
      · cases hseq.symm.trans hm'
      · cases hseq.symm.trans hm'
        exact (hx.error hfirst).append ys

/-- The machine is about to execute words of the given dictionary, whose code is in the given heap, and
has so much room on the return stack. -/
structure Interpreting (d : Dictionary) (heap : Heap) (room : Nat) (m : Machine) : Prop where
  mode : m.mode = .interpret
  dictionary_eq : m.dictionary = d
  heap_eq : m.heap = heap
  ip_lt : m.ip < Cell.addressLimit
  room_le : m.returns.depth + room ≤ m.returnLimit

namespace Interpreting

variable {d : Dictionary} {heap : Heap} {room room' : Nat} {m' : Machine} {cells : List Cell}

theorem mono (h : m.Interpreting d heap room') (hroom : room ≤ room') : m.Interpreting d heap room := by
  have hle := h.room_le
  exact ⟨h.mode, h.dictionary_eq, h.heap_eq, h.ip_lt, by omega⟩

theorem withSource (h : m.Interpreting d heap room) (source : Option Source) :
    Interpreting d heap room { m with source := source } :=
  ⟨h.mode, h.dictionary_eq, h.heap_eq, h.ip_lt, h.room_le⟩

/-- The machine is as ready behind a confined action as before. -/
theorem behind (h : m.Interpreting d heap room) (hx : x.Confined) (hm' : x m = .ok () m') :
    m'.Interpreting d heap room := by
  have hbeside := hx.keeps dataOnly_beside m
  rw [hm'] at hbeside
  obtain ⟨s, o, rfl⟩ := hbeside
  exact ⟨h.mode, h.dictionary_eq, h.heap_eq, h.ip_lt, h.room_le⟩

theorem dispatchesAs_literal (h : m.Interpreting d heap room) {n : Int64} (hfind : d.find? word = none)
    (hnumeral : Numeral.int64? word = some n) : m.DispatchesAs word (push (.int n)) := by
  have hdispatch : dispatch 0 word m = some (push (.int n) m) :=
    dispatch_of_number 0 h.mode (h.dictionary_eq ▸ hfind) hnumeral
  exact ⟨fun hm' => ⟨0, hdispatch.trans (congrArg some hm')⟩, fun hm' => by cases hm'⟩

theorem dispatch_eq (h : m.Interpreting d heap room) {op : Op} (hfind : d.find? word = some op)
    (fuel : Nat) : dispatch fuel word m = call fuel op m :=
  dispatch_of_interpret fuel h.mode (h.dictionary_eq ▸ hfind)

theorem dispatchesAs_primitive (h : m.Interpreting d heap room) {p : Primitive}
    (hfind : d.find? word = some (.primitive p)) : m.DispatchesAs word p.execute := by
  have hdispatch : dispatch 0 word m = some (p.execute m) := h.dispatch_eq hfind 0
  refine ⟨fun hm' => ⟨0, hdispatch.trans (congrArg some hm')⟩, fun {e m'} hm' => ?_⟩
  exact ⟨⟨0, m'.ip, m'.returns⟩, 0, hdispatch.trans (congrArg some hm')⟩

/-- A word that calls cells does what the cells do. -/
theorem dispatchesAs_body (h : m.Interpreting d heap (room + 1)) {address : Nat}
    (hfind : d.find? word = some (.body address)) (hcapacity : heap.capacity < Cell.addressLimit)
    (hcode : heap.Holds address (cells ++ [.op .exit])) (hcells : CodeMeans heap room cells x) :
    m.DispatchesAs word x := by
  have hroom := h.room_le
  have hhosts : m.Hosts heap m.returnLimit := ⟨h.heap_eq ▸ Heap.Extends.refl _, rfl⟩
  obtain ⟨hbody, hend⟩ := Heap.holds_append.mp hcode
  have hexit := (Heap.holds_cons.mp hend).1
  have hperforms : Performs heap m.returnLimit room cells x := hcells.performs (Heap.Extends.refl heap)
  have hexec := hperforms (m.entry 0) address hbody (CodeMeans.address_lt hcapacity hcode)
    (by change m.returns.depth + 1 + room ≤ m.returnLimit; omega)
  constructor
  · intro m' hm'
    have hbeside := hcells.confined.keeps dataOnly_beside m
    rw [hm'] at hbeside
    obtain ⟨fuel, hfuel⟩ := Executes.reaches_call_of_ok hexec hhosts hexit (by omega) h.ip_lt
      (reaches_lift_iff.mpr hm')
    obtain ⟨s, o, rfl⟩ := hbeside
    exact ⟨fuel, (h.dispatch_eq hfind fuel).trans hfuel⟩
  · intro e m' hm'
    obtain ⟨q, fuel, hfuel⟩ := Executes.reaches_call_of_error hexec hhosts (by omega)
      (reaches_lift_iff.mpr hm')
    exact ⟨q, fuel, (h.dispatch_eq hfind fuel).trans hfuel⟩

end Interpreting

end Machine

/-! ### What words mean -/

theorem Dictionary.length_of_compile? {d : Dictionary} {word : String} {cells : List Cell}
    (h : d.compile? word = some cells) : cells.length ≤ 2 := by
  unfold compile? at h
  split at h
  · split at h
    · cases h
    · cases h
      exact Nat.le_succ 1
  · obtain ⟨n, _, rfl⟩ := Option.map_eq_some_iff.mp h
    exact Nat.le_refl 2

/-- Words of a dictionary, the cells to which they are compiled, and an action: executing the cells and
executing the words as they are read both do what the action does. -/
structure Means (d : Dictionary) (heap : Heap) (room : Nat) (words : List String) (cells : List Cell)
    (x : Action Unit) : Prop extends CodeMeans heap room cells x where
  length_le : cells.length ≤ 2 * words.length
  compiles : ∀ {m : Machine}, m.mode = .compile →
    (∀ word ∈ words, m.dictionary.compile? word = d.compile? word) →
      m.heap.here + cells.length ≤ m.heap.capacity → Reads words m (m.compiled cells m.data)
  interprets : ∀ {m : Machine}, m.Interpreting d heap room → m.ReadsAs words x

namespace Means

variable {d : Dictionary} {heap : Heap} {room room' : Nat} {word : String} {words words' : List String}
variable {cells cells' : List Cell} {x y : Action Unit}

theorem nil : Means d heap room [] [] (pure ()) where
  toCodeMeans := .nil
  length_le := Nat.le_refl 0
  compiles {m} _ _ _ := .nil m
  interprets _ := .nil

theorem mono (h : Means d heap room words cells x) (hroom : room ≤ room') :
    Means d heap room' words cells x where
  toCodeMeans := h.toCodeMeans.mono hroom
  length_le := h.length_le
  compiles := h.compiles
  interprets hm := h.interprets (hm.mono hroom)

theorem of_word (hcode : CodeMeans heap room cells x) (hcells : d.compile? word = some cells)
    (hdispatch : ∀ m : Machine, m.Interpreting d heap room → m.DispatchesAs word x) :
    Means d heap room [word] cells x where
  toCodeMeans := hcode
  length_le := Dictionary.length_of_compile? hcells
  compiles hmode hknown hroom :=
    .compile hmode ((hknown word List.mem_cons_self).trans hcells) hroom
  interprets hm := readsAs_word hcode.confined fun source => hdispatch _ (hm.withSource source)

theorem append (hx : Means d heap room words cells x) (hy : Means d heap room words' cells' y) :
    Means d heap room (words ++ words') (cells ++ cells') (do x; y) where
  toCodeMeans := hx.toCodeMeans.append hy.toCodeMeans
  length_le := by
    have hx' := hx.length_le
    have hy' := hy.length_le
    simp only [List.length_append]
    omega
  compiles {m} hmode hknown hroom := by
    simp only [List.length_append] at hroom
    obtain ⟨hwords, hwords'⟩ := List.forall_mem_append.mp hknown
    have hfirst := hx.compiles hmode hwords (by omega)
    have hsecond := hy.compiles (m := m.compiled cells m.data) hmode hwords'
      (by simp only [Machine.compiled, Heap.here_fill, Heap.capacity_fill]; omega)
    have hboth := hfirst.append hsecond
    simpa only [Machine.compiled, Heap.fill_append] using hboth
  interprets hm :=
    (hx.interprets hm).append fun _ hm₁ => hy.interprets (hm.behind hx.confined hm₁)

end Means

theorem IsPure.exists_means {d : Dictionary} {heap : Heap} {word : String} (h : IsPure d heap word)
    (hcapacity : heap.capacity < Cell.addressLimit) :
    ∃ room cells x, Means d heap room [word] cells x := by
  cases h with
  | literal hfind hnumeral =>
      refine ⟨0, _, _, .of_word (.literal _) ?_ fun m hm => hm.dispatchesAs_literal hfind hnumeral⟩
      simp only [Dictionary.compile?, hfind, hnumeral, Option.map_some]
  | primitive hfind hordinary hp =>
      refine ⟨0, _, _, .of_word (.primitive hp) ?_ fun m hm => hm.dispatchesAs_primitive hfind⟩
      simp only [Dictionary.compile?, hfind, hordinary, Bool.false_eq_true, ↓reduceIte]
  | definition hfind hordinary hcode hpure =>
      obtain ⟨room, x, hx⟩ := hpure.exists_means hcapacity
      refine ⟨room + 1, _, x, .of_word (hx.call hcapacity hcode) ?_ fun m hm =>
        hm.dispatchesAs_body hfind hcapacity hcode hx⟩
      simp only [Dictionary.compile?, hfind, hordinary, Bool.false_eq_true, ↓reduceIte]

/-- Pure words have a meaning. -/
theorem exists_means {d : Dictionary} {heap : Heap} {words : List String}
    (hwords : ∀ word ∈ words, IsPure d heap word) (hcapacity : heap.capacity < Cell.addressLimit) :
    ∃ room cells x, Means d heap room words cells x := by
  induction words with
  | nil => exact ⟨0, [], _, .nil⟩
  | cons word words ih =>
      obtain ⟨hword, hrest⟩ := List.forall_mem_cons.mp hwords
      obtain ⟨room₁, cells₁, x₁, h₁⟩ := hword.exists_means hcapacity
      obtain ⟨room₂, cells₂, x₂, h₂⟩ := ih hrest
      have hboth := (h₁.mono (Nat.le_max_left room₁ room₂)).append (h₂.mono (Nat.le_max_right room₁ room₂))
      exact ⟨_, _, _, hboth⟩

/-! ### Two ways to execute words -/

/-- The words of a text. -/
def wordsOf (text : String) : List String :=
  (Source.ofChars bufferName text.toList).readAll.1.map Token.text

/-- Both outcomes are successes with the same stacks and the same output, or both are failures with the
same error, data stack and output. -/
def Outcome.Alike : Outcome Unit → Outcome Unit → Prop
  | .ok _ m, .ok _ m' => m'.data = m.data ∧ m'.returns = m.returns ∧ m'.output = m.output
  | .error e m, .error e' m' => e' = e ∧ m'.data = m.data ∧ m'.output = m.output
  | _, _ => False

/-- The return stack has overflowed. -/
def Outcome.Overflows (r : Outcome Unit) : Prop :=
  ∃ m, r = .error .returnStackOverflow m

namespace Machine

variable {m m' : Machine} {name text text' : String} {words : List String} {x : Action Unit} {e : Error}

theorem ReadsAs.eval_ok (h : m.ReadsAs (wordsOf text) x) (hm' : x m = .ok () m') :
    Reaches (fun fuel => eval fuel text) m (.ok () { m' with source := m.source }) :=
  (h.ok hm').evalSource_of_readAll _ rfl

theorem ReadsAs.eval_error (h : m.ReadsAs (wordsOf text) x) (hm' : x m = .error e m') :
    ∃ m₁, Reaches (fun fuel => eval fuel text) m (.error e m₁) ∧
      m₁.data = m'.data ∧ m₁.output = m'.output := by
  have hoffers : (Source.ofChars bufferName text.toList).Offers (wordsOf text) :=
    Source.offers_of_readAll rfl
  obtain ⟨q, s', hbuild⟩ := h.error hm' (Source.ofChars bufferName text.toList) []
    (by simpa only [List.append_nil] using hoffers)
  exact ⟨_, reaches_evalSource_iff.mpr ⟨_, hbuild, rfl⟩, rfl, rfl⟩

theorem ReadsAs.behind {xs ys : List String} {m₁ : Machine} (hxs : Reads xs m m₁)
    (hys : m₁.ReadsAs ys x) : m.ReadsAs (xs ++ ys) fun _ => x m₁ where
  ok hm' := hxs.append (hys.ok hm')
  error hm' := .behind hxs (hys.error hm')

end Machine

namespace Means

variable {m : Machine} {name text text' : String} {cells : List Cell} {x : Action Unit} {room : Nat}

/-- Reading a definition of the words, and then the name defined, does what the action does behind the
definition. -/
theorem readsAs_definition {words : List String} (h : Means m.dictionary m.heap room words cells x)
    (hm : m.Interpreting m.dictionary m.heap (room + 1)) (hcapacity : m.heap.capacity < Cell.addressLimit)
    (hcolon : m.dictionary.find? ":" = some (.primitive .colon))
    (hsemicolon : m.dictionary.find? ";" = some (.primitive .semicolon))
    (himmediate : m.dictionary.isImmediate ";" = true) (hfresh : name ∉ words) (hname : name ≠ ";")
    (hroom : m.heap.here + (2 * words.length + 1) ≤ m.heap.capacity) :
    m.ReadsAs (":" :: name :: words ++ [";", name]) fun _ => x (m.defined name cells) := by
  have hlength := h.length_le
  have hknown : ∀ word ∈ words,
      (m.begun name).dictionary.compile? word = m.dictionary.compile? word := by
    intro word hword
    have hne : name ≠ word := fun heq => hfresh (heq ▸ hword)
    simp only [Machine.begun, Dictionary.compile?, Dictionary.find?_define, if_neg hne]
    rfl
  have hbody := h.compiles (m := m.begun name) rfl hknown (by simp only [Machine.begun]; omega)
  have hdefinition := Reads.definition hm.mode hcolon hsemicolon himmediate hname (by omega) hbody
  -- the new word calls the cells that its definition has appended
  have hready : (m.defined name cells).Interpreting _ _ (room + 1) :=
    ⟨hm.mode, rfl, rfl, hm.ip_lt, hm.room_le⟩
  have hfind : (m.defined name cells).dictionary.find? name = some (.body m.heap.here) := by
    simp [Machine.defined, Dictionary.find?_define]
  have hcapacity' : (m.defined name cells).heap.capacity < Cell.addressLimit := by
    simpa only [Machine.defined, Heap.capacity_fill] using hcapacity
  have hcode : (m.defined name cells).heap.Holds m.heap.here (cells ++ [.op .exit]) := by
    apply Heap.holds_fill
    simp only [List.length_append, List.length_singleton]
    omega
  have hcells := h.toCodeMeans.of_extends (Heap.extends_fill m.heap (cells ++ [.op .exit]))
  have hcall : (m.defined name cells).ReadsAs [name] x :=
    readsAs_word h.confined fun source =>
      (hready.withSource source).dispatchesAs_body hfind hcapacity' hcode hcells
  have hall := ReadsAs.behind hdefinition hcall
  simpa only [List.cons_append, List.append_assoc, List.nil_append] using hall

theorem eval_alike (h : Means m.dictionary m.heap room (wordsOf text) cells x)
    (hm : m.Interpreting m.dictionary m.heap room)
    (hdefinition : m.ReadsAs (wordsOf text') fun _ => x (m.defined name cells)) :
    ∃ r r', Reaches (fun fuel => eval fuel text) m r ∧ Reaches (fun fuel => eval fuel text') m r' ∧
      r.Alike r' := by
  have hdirect := h.interprets hm
  cases hx : x m with
  | ok _ m' =>
      have hx' := h.confined.ok_of_unseen (unseen_defined name cells) hx
      exact ⟨_, _, hdirect.eval_ok hx, hdefinition.eval_ok hx', rfl, rfl, rfl⟩
  | error e m' =>
      have hx' := h.confined.error_of_unseen (unseen_defined name cells) hx
      obtain ⟨m₁, hr₁, hdata₁, houtput₁⟩ := hdirect.eval_error hx
      obtain ⟨m₂, hr₂, hdata₂, houtput₂⟩ := hdefinition.eval_error hx'
      exact ⟨_, _, hr₁, hr₂, rfl, hdata₂.trans hdata₁.symm, houtput₂.trans houtput₁.symm⟩

end Means

/-! ### Room on the return stack -/

theorem Machine.widened_empty (m : Machine) (limit : Nat) :
    m.widened #[] limit = { m with returnLimit := limit } := by
  simp only [widened, Heap.extended, Array.append_empty]

theorem Outcome.alike_of_widened {r r' : Outcome Unit} {extra : Array Cell} {limit : Nat}
    (h : (r.widened extra limit).Alike (r'.widened extra limit)) : r.Alike r' := by
  cases r <;> cases r' <;> exact h

/-- What is evaluated with more room on the return stack is evaluated without it, unless the return
stack overflows. -/
theorem eval_of_widened {m : Machine} {text : String} {limit : Nat} {r : Outcome Unit}
    (hlimit : m.returnLimit ≤ limit)
    (hr : Reaches (fun fuel => eval fuel text) (m.widened #[] limit) r) :
    ∃ r₀, Reaches (fun fuel => eval fuel text) m r₀ ∧
      (¬ r₀.Overflows → r = r₀.widened #[] limit) := by
  have hanswers : ∀ fuel, (Pairing.widening #[] limit).Answers (eval fuel text m)
      (eval fuel text (m.widened #[] limit)) :=
    fun fuel => Pairing.answers_evalSource (Source.ofChars bufferName text.toList) hlimit
  obtain ⟨r₀, hr₀⟩ := Pairing.reaches_of_reaches hanswers hr
  refine ⟨r₀, hr₀, fun hfits => ?_⟩
  cases r₀ with
  | ok _ m₁ =>
      obtain ⟨_, hr', _, rfl⟩ := Pairing.reaches_ok hanswers hr₀
      exact (eval_steady text).reaches_unique hr hr'
  | error e m₁ =>
      rcases Pairing.reaches_error hanswers hr₀ with (rfl | ⟨hextra, _⟩) | ⟨_, hr', _, rfl⟩
      · exact absurd ⟨m₁, rfl⟩ hfits
      · exact absurd rfl hextra
      · exact (eval_steady text).reaches_unique hr hr'

/-- Interpreting and compiling agree.  A text of pure words, and the definition of a new word by them
together with a call of it, both have an outcome; unless the return stack overflows in one of them, they
succeed with the same stacks and the same output, or fail with the same error, data stack and output. -/
theorem eval_alike_of_definition {m : Machine} {name text text' : String} (hmode : m.mode = .interpret)
    (hip : m.ip < Cell.addressLimit) (hcapacity : m.heap.capacity < Cell.addressLimit)
    (hcolon : m.dictionary.find? ":" = some (.primitive .colon))
    (hsemicolon : m.dictionary.find? ";" = some (.primitive .semicolon))
    (himmediate : m.dictionary.isImmediate ";" = true)
    (hpure : ∀ word ∈ wordsOf text, IsPure m.dictionary m.heap word)
    (hfresh : name ∉ wordsOf text) (hname : name ≠ ";")
    (hroom : m.heap.here + (2 * (wordsOf text).length + 1) ≤ m.heap.capacity)
    (htext' : wordsOf text' = ":" :: name :: wordsOf text ++ [";", name]) :
    ∃ r r', Reaches (fun fuel => eval fuel text) m r ∧ Reaches (fun fuel => eval fuel text') m r' ∧
      (¬ r.Overflows → ¬ r'.Overflows → r.Alike r') := by
  obtain ⟨room, cells, x, hmeans⟩ := exists_means hpure hcapacity
  -- the two are compared where the return stack cannot overflow
  let limit := max m.returnLimit (m.returns.depth + (room + 1))
  have hlimit : m.returnLimit ≤ limit := Nat.le_max_left _ _
  let wide : Machine := { m with returnLimit := limit }
  have hwide : wide.Interpreting m.dictionary m.heap (room + 1) :=
    ⟨hmode, rfl, rfl, hip, Nat.le_max_right _ _⟩
  have hdefinition := hmeans.readsAs_definition (m := wide) hwide hcapacity hcolon hsemicolon himmediate
    hfresh hname hroom
  rw [← htext'] at hdefinition
  obtain ⟨r, r', hr, hr', halike⟩ := hmeans.eval_alike (m := wide) (hwide.mono (Nat.le_succ room)) hdefinition
  rw [show wide = m.widened #[] limit from (m.widened_empty limit).symm] at hr hr'
  obtain ⟨r₀, hr₀, hfits⟩ := eval_of_widened hlimit hr
  obtain ⟨r₀', hr₀', hfits'⟩ := eval_of_widened hlimit hr'
  refine ⟨r₀, r₀', hr₀, hr₀', fun h h' => ?_⟩
  rw [hfits h, hfits' h'] at halike
  exact Outcome.alike_of_widened halike

/-- A machine that knows how to double a number. -/
def Machine.doubling : Machine :=
  (Machine.new 32).defined "double" [.op (.primitive .dup), .op (.primitive .add)]

/-- Both ways call another definition, print its result, and fail behind it for want of a cell. -/
theorem eval_alike_of_definition_doubling :
    ∃ m m', Reaches (fun fuel => eval fuel "3 double . drop") doubling (.error .stackUnderflow m) ∧
      Reaches (fun fuel => eval fuel ": w 3 double . drop ; w") doubling (.error .stackUnderflow m') ∧
      m.transcript = "6\n" ∧ m'.data = m.data ∧ m'.output = m.output := by
  have hwords : wordsOf "3 double . drop" = ["3", "double", ".", "drop"] := by decide +kernel
  have hbody : doubling.heap.Holds 0 ([.op (.primitive .dup), .op (.primitive .add)] ++ [.op .exit]) :=
    Heap.holds_fill (by decide)
  have hdouble : IsPure doubling.dictionary doubling.heap "double" :=
    .definition rfl rfl hbody (.primitive rfl (.primitive rfl .nil))
  have hpure : ∀ word ∈ wordsOf "3 double . drop", IsPure doubling.dictionary doubling.heap word := by
    rw [hwords]
    simp only [List.forall_mem_cons]
    exact ⟨.literal (n := 3) rfl rfl, hdouble, .primitive (p := .display) rfl rfl rfl,
      .primitive (p := .drop) rfl rfl rfl, nofun⟩
  have hwords' : wordsOf ": w 3 double . drop ; w" =
      ":" :: "w" :: wordsOf "3 double . drop" ++ [";", "w"] := by decide +kernel
  obtain ⟨r, r', hr, hr', halike⟩ := eval_alike_of_definition rfl (by decide) (by decide) rfl rfl rfl
    hpure (by rw [hwords]; decide) (by decide) (by rw [hwords]; decide) hwords'
  have hrun : (eval 20 "3 double . drop").fails doubling (fun e m =>
      decide (e = .stackUnderflow ∧ m.transcript = "6\n")) = true := by
    decide +kernel
  have hrun' : (eval 20 ": w 3 double . drop ; w").fails doubling (fun e _ =>
      decide (e = .stackUnderflow)) = true := by
    decide +kernel
  obtain ⟨e, m, hm, htest⟩ := of_fails hrun
  obtain ⟨rfl, hprinted⟩ := of_decide_eq_true htest
  obtain ⟨e', m', hm', htest'⟩ := of_fails hrun'
  obtain rfl := of_decide_eq_true htest'
  cases (eval_steady _).reaches_unique hr ⟨20, hm⟩
  cases (eval_steady _).reaches_unique hr' ⟨20, hm'⟩
  obtain ⟨_, hdata, houtput⟩ := halike (by rintro ⟨_, h⟩; cases h) (by rintro ⟨_, h⟩; cases h)
  exact ⟨m, m', hr, hr', hprinted, hdata, houtput⟩

end Forth

/-
Defining a word by a structured program.  On a machine with an intact library the definition succeeds,
and from then on executing the word is executing the program.
-/
import Forth.Proofs.Structured.Booted

namespace Forth

open Machine Run

/-! ### Programs change the data stack and the output only -/

section

variable {R : Machine → Machine → Prop}

theorem StackWord.keeps_effect (hR : DataOnly R) (w : StackWord) : Action.Keeps R w.effect := by
  have hprimitive : ∀ {o : Primitive}, o.isDataWord = true → Action.Keeps R o.execute :=
    fun ho => hR.keeps_execute ho
  have hseq : ∀ {x y : Action Unit}, Action.Keeps R x → Action.Keeps R y → Action.Keeps R (do x; y) :=
    fun hx hy => hR.keeps_bind hx fun _ => hy
  have hdip : ∀ {o : Primitive}, o.isDataWord = true →
      Action.Keeps R (do let c ← pop; o.execute; push c) :=
    fun ho => hR.keeps_bind hR.keeps_pop fun c => hseq (hprimitive ho) (hR.keeps_push c)
  have hover := effect_over ▸ hseq (hdip (o := .dup) rfl) (hprimitive (o := .swap) rfl)
  have hrot := effect_rot ▸ hseq (hdip (o := .swap) rfl) (hprimitive (o := .swap) rfl)
  have hnip := effect_nip ▸ hseq (hprimitive (o := .swap) rfl) (hprimitive (o := .drop) rfl)
  have hgreater := effect_greater ▸ hseq (hprimitive (o := .swap) rfl) (hprimitive (o := .less) rfl)
  have htwoDup := effect_twoDup ▸ hseq hover hover
  have hselect : Action.Keeps R (do if ← popFlag then Primitive.execute .drop else effect nip) := by
    refine hR.keeps_bind hR.keeps_popFlag fun b => ?_
    cases b with
    | true => exact hprimitive (o := .drop) rfl
    | false => exact hnip
  cases w with
  | overWord => exact hover
  | rot => exact hrot
  | backRot => exact effect_backRot ▸ hseq hrot hrot
  | nip => exact hnip
  | tuck => exact effect_tuck ▸ hseq (hprimitive rfl) hover
  | twoDup => exact htwoDup
  | twoDrop => exact effect_twoDrop ▸ hseq (hprimitive rfl) (hprimitive rfl)
  | unequal => exact effect_unequal ▸ hseq (hprimitive rfl) (hprimitive rfl)
  | greater => exact hgreater
  | atMost => exact effect_atMost ▸ hseq hgreater (hprimitive rfl)
  | atLeast => exact effect_atLeast ▸ hseq (hprimitive rfl) (hprimitive rfl)
  | increment => exact effect_increment ▸ hseq (hR.keeps_push _) (hprimitive rfl)
  | decrement => exact effect_decrement ▸ hseq (hR.keeps_push _) (hprimitive rfl)
  | minimum => exact effect_minimum ▸ hseq htwoDup (hseq (hprimitive rfl) hselect)
  | maximum => exact effect_maximum ▸ hseq htwoDup (hseq hgreater hselect)

theorem DataWord.keeps_effect (hR : DataOnly R) (w : DataWord) : Action.Keeps R w.effect := by
  cases w with
  | primitive o ho => exact hR.keeps_execute ho
  | library w => exact w.keeps_effect hR

theorem Run.keeps_repeatWhile (hR : DataOnly R) {x : Nat → Run Bool} (hx : ∀ fuel, Run.Keeps R (x fuel))
    (fuel : Nat) : Run.Keeps R (repeatWhile x fuel) := by
  induction fuel with
  | zero =>
      intro m r hr
      cases hr
  | succ fuel ih =>
      refine hR.run_keeps_bind (hx fuel) fun again => ?_
      cases again with
      | true => exact ih
      | false => exact hR.run_keeps_pure ()

namespace Program

theorem keeps_branch (hR : DataOnly R) {α : Type} {x y : Run α} (hx : Run.Keeps R x)
    (hy : Run.Keeps R y) :
    Run.Keeps R ((liftM popFlag : Run Bool) >>= fun b => if b then x else y) := by
  refine hR.run_keeps_bind (DataOnly.run_keeps_lift _ hR.keeps_popFlag) fun b => ?_
  cases b with
  | true => exact hx
  | false => exact hy

theorem keeps_exec (hR : DataOnly R) (P : Program) (fuel : Nat) : Run.Keeps R (P.exec fuel) := by
  induction P generalizing fuel with
  | skip => exact hR.run_keeps_pure ()
  | literal l => exact DataOnly.run_keeps_lift _ (hR.keeps_push _)
  | word w => exact DataOnly.run_keeps_lift _ (w.keeps_effect hR)
  | seq P Q ihP ihQ => exact hR.run_keeps_bind (ihP fuel) fun _ => ihQ fuel
  | ifThen P ih => exact keeps_branch hR (ih fuel) (hR.run_keeps_pure ())
  | ifElse P Q ihP ihQ => exact keeps_branch hR (ihP fuel) (ihQ fuel)
  | untilTrue P ih =>
      have hflag := keeps_branch hR (hR.run_keeps_pure false) (hR.run_keeps_pure true)
      exact keeps_repeatWhile hR (fun fuel => hR.run_keeps_bind (ih fuel) fun _ => hflag) fuel
  | whileTrue P Q ihP ihQ =>
      have hagain : ∀ fuel, Run.Keeps R (Q.exec fuel >>= fun _ => pure true) :=
        fun fuel => hR.run_keeps_bind (ihQ fuel) fun _ => hR.run_keeps_pure true
      exact keeps_repeatWhile hR (fun fuel => hR.run_keeps_bind (ihP fuel) fun _ =>
        keeps_branch hR (hagain fuel) (hR.run_keeps_pure false)) fuel
  | forever P ih =>
      exact keeps_repeatWhile hR (fun fuel => hR.run_keeps_bind (ih fuel) fun _ =>
        hR.run_keeps_pure true) fuel

end Program

end

/-! ### The text of a definition -/

theorem isBlank_of_isDigit {c : Char} (hc : c.isDigit = true) : isBlank c = false := by
  have hblank : ∀ d : Char, d.isDigit = false → (c == d) = false := by
    intro d hd
    rw [beq_eq_false_iff_ne]
    rintro rfl
    rw [hc] at hd
    cases hd
  simp [isBlank, hblank ' ' rfl, hblank '\t' rfl, hblank '\n' rfl, hblank '\x0c' rfl, hblank '\r' rfl]

theorem isWord_of_digits? {cs : List Char} {n : Nat} (h : Numeral.digits? cs = some n) :
    cs ≠ [] ∧ ∀ c ∈ cs, isBlank c = false := by
  unfold Numeral.digits? at h
  split at h
  · rename_i hdigits
    simp only [Bool.and_eq_true, Bool.not_eq_true', List.isEmpty_eq_false_iff, List.all_eq_true] at hdigits
    exact ⟨hdigits.1, fun c hc => isBlank_of_isDigit (hdigits.2 c hc)⟩
  · cases h

theorem Literal.isWord (l : Literal) : IsWord l.text := by
  have hnumeral : ∃ n, Numeral.int? l.text.toList = some n := by
    have hdenotes := l.denotes
    unfold Numeral.int64? at hdenotes
    cases hint : Numeral.int? l.text.toList with
    | none => simp [hint] at hdenotes
    | some n => exact ⟨n, rfl⟩
  have hsign : ∀ {c cs n}, isBlank c = false → Numeral.digits? cs = some n →
      c :: cs ≠ [] ∧ ∀ d ∈ c :: cs, isBlank d = false := by
    intro c cs n hc hcs
    exact ⟨List.cons_ne_nil _ _, List.forall_mem_cons.mpr ⟨hc, (isWord_of_digits? hcs).2⟩⟩
  obtain ⟨n, hn⟩ := hnumeral
  have hchars : l.text.toList ≠ [] ∧ ∀ c ∈ l.text.toList, isBlank c = false := by
    unfold Numeral.int? at hn
    split at hn
    · obtain ⟨k, hk, _⟩ := Option.map_eq_some_iff.mp hn
      exact ‹l.text.toList = _› ▸ hsign rfl hk
    · obtain ⟨k, hk, _⟩ := Option.map_eq_some_iff.mp hn
      exact ‹l.text.toList = _› ▸ hsign rfl hk
    · obtain ⟨k, hk, _⟩ := Option.map_eq_some_iff.mp hn
      exact isWord_of_digits? hk
  exact ⟨hchars.1, hchars.2⟩

theorem Primitive.isWord (o : Primitive) : IsWord o.name := by
  cases o <;> decide

theorem StackWord.isWord (w : StackWord) : IsWord w.name := by
  cases w <;> decide

theorem ControlWord.isWord (w : ControlWord) : IsWord w.name := by
  cases w <;> decide

/-- The text of a program is read word by word. -/
theorem Program.isWord_of_mem_tokens (P : Program) {t : String} (ht : t ∈ P.tokens) : IsWord t := by
  induction P with
  | skip => cases ht
  | literal l => exact List.mem_singleton.mp ht ▸ l.isWord
  | word w =>
      rw [List.mem_singleton.mp ht]
      cases w with
      | primitive o _ => exact o.isWord
      | library w => exact w.isWord
  | seq P Q ihP ihQ =>
      rcases List.mem_append.mp ht with h | h
      · exact ihP h
      · exact ihQ h
  | ifThen P ih =>
      simp only [tokens, List.mem_append, List.mem_cons, List.not_mem_nil, or_false] at ht
      rcases ht with (rfl | h) | rfl
      · exact ControlWord.isWord .ifWord
      · exact ih h
      · exact ControlWord.isWord .thenWord
  | ifElse P Q ihP ihQ =>
      simp only [tokens, List.mem_append, List.mem_cons, List.not_mem_nil, or_false] at ht
      rcases ht with ((rfl | h) | (rfl | h)) | rfl
      · exact ControlWord.isWord .ifWord
      · exact ihP h
      · exact ControlWord.isWord .elseWord
      · exact ihQ h
      · exact ControlWord.isWord .thenWord
  | untilTrue P ih =>
      simp only [tokens, List.mem_append, List.mem_cons, List.not_mem_nil, or_false] at ht
      rcases ht with (rfl | h) | rfl
      · exact ControlWord.isWord .beginWord
      · exact ih h
      · exact ControlWord.isWord .untilWord
  | whileTrue P Q ihP ihQ =>
      simp only [tokens, List.mem_append, List.mem_cons, List.not_mem_nil, or_false] at ht
      rcases ht with ((rfl | h) | (rfl | h)) | rfl
      · exact ControlWord.isWord .beginWord
      · exact ihP h
      · exact ControlWord.isWord .whileWord
      · exact ihQ h
      · exact ControlWord.isWord .repeatWord
  | forever P ih =>
      simp only [tokens, List.mem_append, List.mem_cons, List.not_mem_nil, or_false] at ht
      rcases ht with (rfl | h) | rfl
      · exact ControlWord.isWord .beginWord
      · exact ih h
      · exact ControlWord.isWord .againWord

namespace Program

/-- The text `: name P ;`. -/
def definition (name : String) (P : Program) : String :=
  String.ofList (":".toList ++ spaced (name :: P.tokens ++ [";"]))

theorem offers_definition {name : String} (P : Program) (hname : IsWord name) :
    (Source.ofChars bufferName (P.definition name).toList).Offers
      (":" :: (name :: P.tokens ++ [";"])) := by
  rw [definition, String.toList_ofList]
  apply Source.offers_ofChars (Primitive.isWord .colon)
  intro t ht
  simp only [List.cons_append, List.mem_cons, List.mem_append, List.not_mem_nil, or_false] at ht
  rcases ht with rfl | h | rfl
  · exact hname
  · exact P.isWord_of_mem_tokens h
  · exact Primitive.isWord .semicolon

end Program

/-! ### Definitions -/

namespace Program

theorem All.imp {L L' : Literal → Prop} {W W' : DataWord → Prop} {P : Program} (h : P.All L W)
    (hL : ∀ l : Literal, l.text ∈ P.tokens → L l → L' l)
    (hW : ∀ w : DataWord, w.name ∈ P.tokens → W w → W' w) : P.All L' W' := by
  induction P with
  | skip => trivial
  | literal l => exact hL l List.mem_cons_self h
  | word w => exact hW w List.mem_cons_self h
  | seq P Q ihP ihQ | ifElse P Q ihP ihQ | whileTrue P Q ihP ihQ =>
      exact ⟨ihP h.1 (fun l hl => hL l (by simp [tokens, hl])) fun w hw => hW w (by simp [tokens, hw]),
        ihQ h.2 (fun l hl => hL l (by simp [tokens, hl])) fun w hw => hW w (by simp [tokens, hw])⟩
  | ifThen P ih | untilTrue P ih | forever P ih =>
      exact ih h (fun l hl => hL l (by simp [tokens, hl])) fun w hw => hW w (by simp [tokens, hw])

theorem all_of_forall {L : Literal → Prop} {W : DataWord → Prop} (P : Program) (hL : ∀ l, L l)
    (hW : ∀ w, W w) : P.All L W := by
  induction P with
  | skip => trivial
  | literal l => exact hL l
  | word w => exact hW w
  | seq P Q ihP ihQ | ifElse P Q ihP ihQ | whileTrue P Q ihP ihQ => exact ⟨ihP, ihQ⟩
  | ifThen P ih | untilTrue P ih | forever P ih => exact ih

/-- The text of the program means the program: its numerals are no words of the dictionary, and no word
on the data stack has been made immediate. -/
def ReadAsWritten (d : Dictionary) (P : Program) : Prop :=
  P.All (fun l => d.find? l.text = none) (fun w => d.isImmediate w.name = false)

instance (d : Dictionary) (P : Program) : Decidable (P.ReadAsWritten d) :=
  inferInstanceAs (Decidable (P.All _ _))

variable {m : Machine} {name : String} {P : Program}

/-- The name that is being defined does not get in the way of a program that does not use it. -/
theorem known_begun (hm : m.Intact) (hread : P.ReadAsWritten m.dictionary) (hfresh : name ∉ P.tokens) :
    P.Known (m.begun name).dictionary := by
  have hfind : ∀ t ∈ P.tokens, (m.begun name).dictionary.find? t = m.dictionary.find? t := by
    intro t ht
    have hne : name ≠ t := fun h => hfresh (h ▸ ht)
    simp only [Machine.begun, Dictionary.find?_define, if_neg hne]
  constructor
  · refine hread.imp ?_ ?_
    · intro l hl hnone
      rw [hfind _ hl, hnone]
    · intro w hw hordinary
      refine ⟨?_, hordinary⟩
      rw [hfind _ hw]
      cases w with
      | primitive o _ => exact hm.primitives o
      | library w => exact hm.stackWords w
  · intro w hw
    have hcontrols := hm.controlWords w
    exact ⟨(hfind _ hw).trans hcontrols.find?, hcontrols.isImmediate⟩

end Program

theorem Machine.Intact.compiling_begun {m : Machine} (hm : m.Intact) (name : String)
    (hip : m.ip < Cell.addressLimit) (hcapacity : m.heap.capacity < Cell.addressLimit)
    (hreturns : m.returns.depth + 8 ≤ m.returnLimit) : (m.begun name).Compiling where
  mode := rfl
  overWord := hm.stackCode .overWord
  controlWords := hm.controlCode
  ip_lt := hip
  capacity_lt := hcapacity
  room := Nat.le_trans (Nat.add_le_add_left (by decide) _) hreturns

/-- Reading a definition compiles the program behind the heap, up to an end marker. -/
theorem Machine.Intact.reads_definition {m : Machine} (hm : m.Intact) (hmode : m.mode = .interpret)
    (hip : m.ip < Cell.addressLimit) (hcapacity : m.heap.capacity < Cell.addressLimit)
    (hreturns : m.returns.depth + 8 ≤ m.returnLimit) {name : String} {P : Program}
    (hroom : m.heap.here + P.code.length + 1 ≤ m.heap.capacity) (hfresh : name ∉ P.tokens)
    (hsemicolon : name ≠ ";") (hread : P.ReadAsWritten m.dictionary) :
    Reads (":" :: (name :: P.tokens ++ [";"])) m (m.defined name P.code) := by
  have hbody : Reads P.tokens (m.begun name) ((m.begun name).compiled P.code m.data) :=
    P.compiles (hm.compiling_begun name hip hcapacity hreturns) (P.known_begun hm hread hfresh) [] m.data
      (by simp [Machine.begun]; omega)
  exact Reads.definition hmode (hm.primitives .colon) (hm.primitives .semicolon) hm.semicolon hsemicolon
    hroom hbody

/-- The machine finds the body of a name at an address of the given heap, and is about to execute it. -/
structure Machine.Ready (heap : Heap) (name : String) (address : Nat) (m : Machine) : Prop where
  mode : m.mode = .interpret
  find? : m.dictionary.find? name = some (.body address)
  heap_extends : heap.Extends m.heap
  ip_lt : m.ip < Cell.addressLimit
  room : m.returns.depth + 8 ≤ m.returnLimit

namespace Machine.Ready

variable {heap : Heap} {name : String} {a : Nat} {m : Machine} {P : Program}

theorem hosts (h : m.Ready heap name a) : m.Hosts heap m.returnLimit :=
  ⟨h.heap_extends, rfl⟩

theorem withData (h : m.Ready heap name a) (s : Stack) : { m with data := s }.Ready heap name a :=
  ⟨h.mode, h.find?, h.heap_extends, h.ip_lt, h.room⟩

theorem reaches_dispatch_iff (h : m.Ready heap name a) {r : Outcome Unit} :
    Reaches (fun fuel => dispatch fuel name) m r ↔ Reaches (fun fuel => call fuel (.body a)) m r := by
  have hdispatch : ∀ fuel, dispatch fuel name m = call fuel (.body a) m :=
    fun fuel => dispatch_of_interpret fuel h.mode h.find?
  simp only [Reaches, hdispatch]

theorem executes (h : m.Ready heap name a) (hwords : StackWord.Present heap)
    (hcode : heap.Holds a (P.code ++ [.op .exit])) (ha : a + P.code.length < Cell.addressLimit) :
    Executes heap m.returnLimit (m.entry a) 0 P.exec (fun _ => m.entry (a + P.code.length)) := by
  have hroom := h.room
  have hperforms : P.All (fun _ => True) fun w => Performs heap m.returnLimit 4 [.op w.op] w.effect :=
    P.all_of_forall (fun _ => trivial) fun w => DataWord.performs hwords w
  exact P.executes (p := m.entry 0) hperforms
    (by change m.returns.depth + 1 + 4 ≤ m.returnLimit; omega) (Heap.holds_append.mp hcode).1 ha

/-- Executing the word is executing the program: it succeeds with the same machine, or fails with the
same error, data stack and output, or does not end. -/
theorem reaches_iff (h : m.Ready heap name a) (hwords : StackWord.Present heap)
    (hcode : heap.Holds a (P.code ++ [.op .exit])) (ha : a + P.code.length < Cell.addressLimit) :
    (∀ m', Reaches (fun fuel => dispatch fuel name) m (.ok () m') ↔ Reaches P.exec m (.ok () m')) ∧
      ∀ e s o, (∃ m', Reaches (fun fuel => dispatch fuel name) m (.error e m') ∧
          m'.data = s ∧ m'.output = o) ↔
        ∃ m', Reaches P.exec m (.error e m') ∧ m'.data = s ∧ m'.output = o := by
  have hroom := h.room
  have hexec := h.executes hwords hcode ha
  have hexit := (Heap.holds_cons.mp (Heap.holds_append.mp hcode).2).1
  -- the program leaves the place alone, to which the call comes back
  have hok : ∀ {m'}, Reaches P.exec m (.ok () m') →
      Reaches (fun fuel => call fuel (.body a)) m (.ok () m') := by
    rintro m' ⟨fuel, hfuel⟩
    have hquiet := P.keeps_exec quiet_ordinary.toDataOnly fuel m _ hfuel
    have hplace : m'.placed ⟨0, m.ip, m.returns⟩ = m' := by
      rw [← hquiet.ip, ← hquiet.returns]
      rfl
    exact hplace ▸ hexec.reaches_call_of_ok h.hosts hexit (by omega) h.ip_lt ⟨fuel, hfuel⟩
  have herror : ∀ {e m'}, Reaches P.exec m (.error e m') →
      ∃ q, Reaches (fun fuel => call fuel (.body a)) m (.error e (m'.placed q)) :=
    fun hr => hexec.reaches_call_of_error h.hosts (by omega) hr
  have hunique := @(call_steady (.body a)).reaches_unique
  have hanswers : ∀ {r}, Reaches (fun fuel => call fuel (.body a)) m r → ∃ r', Reaches P.exec m r' :=
    fun hr => hexec.answers_of_call h.hosts (by omega) hr
  simp only [h.reaches_dispatch_iff]
  refine ⟨fun m' => ⟨fun hcall => ?_, hok⟩, fun e s o => ⟨?_, ?_⟩⟩
  · obtain ⟨r | ⟨e, m₁⟩, hr⟩ := hanswers hcall
    · cases hunique hcall (hok hr)
      exact hr
    · obtain ⟨q, hq⟩ := herror hr
      cases hunique hcall hq
  · rintro ⟨m', hcall, rfl, rfl⟩
    obtain ⟨r | ⟨e', m₁⟩, hr⟩ := hanswers hcall
    · cases hunique hcall (hok hr)
    · obtain ⟨q, hq⟩ := herror hr
      cases hunique hcall hq
      exact ⟨m₁, hr, rfl, rfl⟩
  · rintro ⟨m', hr, rfl, rfl⟩
    obtain ⟨q, hq⟩ := herror hr
    exact ⟨_, hq, rfl, rfl⟩

end Machine.Ready

theorem Dictionary.find?_markImmediate (d : Dictionary) (name other : String) :
    (d.markImmediate name).find? other = d.find? other := by
  simp only [Dictionary.find?, Dictionary.entries_markImmediate]

theorem Dictionary.isImmediate_markImmediate {d : Dictionary} {other : String} (name : String)
    (h : d.isImmediate other = true) : (d.markImmediate name).isImmediate other = true := by
  unfold markImmediate
  split
  · simp only [isImmediate, List.contains_cons, Bool.or_eq_true]
    exact .inr h
  · exact h

namespace Machine.Intact

variable {m : Machine}

/-- Definitions of other words leave the library as it is. -/
theorem defined (hm : m.Intact) {name : String} (code : List Cell)
    (hprimitive : ∀ o : Primitive, name ≠ o.name) (hstack : ∀ w : StackWord, name ≠ w.name)
    (hcontrol : ∀ w : ControlWord, name ≠ w.name) : (m.defined name code).Intact where
  primitives o := by
    simp only [Machine.defined, Dictionary.find?_define, if_neg (hprimitive o), hm.primitives]
  semicolon := hm.semicolon
  stackWords w := by
    simp only [Machine.defined, Dictionary.find?_define, if_neg (hstack w), hm.stackWords]
  controlWords w := by
    refine ⟨?_, (hm.controlWords w).isImmediate⟩
    simp only [Machine.defined, Dictionary.find?_define, if_neg (hcontrol w), (hm.controlWords w).find?]
  stackCode w := (hm.stackCode w).of_extends (Heap.extends_fill _ _)
  controlCode w := (hm.controlCode w).of_extends (Heap.extends_fill _ _)

theorem markImmediate (hm : m.Intact) (name : String) :
    { m with dictionary := m.dictionary.markImmediate name }.Intact where
  primitives o := (Dictionary.find?_markImmediate _ _ _).trans (hm.primitives o)
  semicolon := Dictionary.isImmediate_markImmediate name hm.semicolon
  stackWords w := (Dictionary.find?_markImmediate _ _ _).trans (hm.stackWords w)
  controlWords w :=
    ⟨(Dictionary.find?_markImmediate _ _ _).trans (hm.controlWords w).find?,
      Dictionary.isImmediate_markImmediate name (hm.controlWords w).isImmediate⟩
  stackCode := hm.stackCode
  controlCode := hm.controlCode

end Machine.Intact

/-- The machine behind a definition executes the new word next. -/
theorem Machine.ready_defined {m : Machine} (hmode : m.mode = .interpret)
    (hip : m.ip < Cell.addressLimit) (hreturns : m.returns.depth + 8 ≤ m.returnLimit) (name : String)
    (code : List Cell) :
    (m.defined name code).Ready (m.defined name code).heap name m.heap.here where
  mode := hmode
  find? := by simp [Machine.defined, Dictionary.find?_define]
  heap_extends := Heap.Extends.refl _
  ip_lt := hip
  room := hreturns

/-- Control words compile structured programs to what they mean.  The definition `: name P ;` succeeds,
and wherever the new word is executed afterwards, it answers if and only if the program does: with the
same machine, or with the same error, data stack and output. -/
theorem structured_definition {m : Machine} (hm : m.Intact) (hmode : m.mode = .interpret)
    (hip : m.ip < Cell.addressLimit) (hcapacity : m.heap.capacity < Cell.addressLimit)
    (hreturns : m.returns.depth + 8 ≤ m.returnLimit) {name : String} {P : Program}
    (hroom : m.heap.here + P.code.length + 1 ≤ m.heap.capacity) (hname : IsWord name)
    (hfresh : name ∉ P.tokens) (hsemicolon : name ≠ ";") (hread : P.ReadAsWritten m.dictionary) :
    Reaches (fun fuel => eval fuel (P.definition name)) m (.ok () (m.defined name P.code)) ∧
      (m.defined name P.code).Ready (m.defined name P.code).heap name m.heap.here ∧
      ∀ m₁ : Machine, m₁.Ready (m.defined name P.code).heap name m.heap.here →
        (∀ m', Reaches (fun fuel => dispatch fuel name) m₁ (.ok () m') ↔ Reaches P.exec m₁ (.ok () m')) ∧
        ∀ e s o, (∃ m', Reaches (fun fuel => dispatch fuel name) m₁ (.error e m') ∧
            m'.data = s ∧ m'.output = o) ↔
          ∃ m', Reaches P.exec m₁ (.error e m') ∧ m'.data = s ∧ m'.output = o := by
  have hreads := hm.reads_definition hmode hip hcapacity hreturns hroom hfresh hsemicolon hread
  have heval := hreads.evalSource _ (P.offers_definition hname)
  have hwords : StackWord.Present (m.defined name P.code).heap :=
    fun w => (hm.stackCode w).of_extends (Heap.extends_fill _ _)
  have hcode : (m.defined name P.code).heap.Holds m.heap.here (P.code ++ [.op .exit]) := by
    apply Heap.holds_fill
    simp only [List.length_append, List.length_singleton]
    omega
  refine ⟨heval, m.ready_defined hmode hip hreturns name P.code, fun m₁ hm₁ => ?_⟩
  exact hm₁.reaches_iff hwords hcode (by omega)

namespace Program

/-- Counts down to zero. -/
def countdown : Program :=
  .whileTrue
    (.seq (StackWord.primitive .dup)
      (.seq (.literal ⟨"0", 0, rfl⟩) (StackWord.library .greater)))
    (StackWord.library .decrement)

theorem definition_countdown :
    countdown.definition "zero" = ": zero begin dup 0 > while 1- repeat ;" := by
  rfl

end Program

/-- A loop, on a machine that has read the library. -/
theorem structured_definition_countdown :
    ∃ m₀ m : Machine, (∃ fuel, boot fuel 200 = some (.ok () m₀)) ∧
      Reaches (fun fuel => eval fuel ": zero begin dup 0 > while 1- repeat ;") m₀ (.ok () m) ∧
      ∃ m', Reaches (fun fuel => dispatch fuel "zero") { m with data := .ofList [.int 2] } (.ok () m') ∧
        m'.data = .ofList [.int 0] := by
  have hname : IsWord "zero" := by decide
  obtain ⟨heval, hready, hmeaning⟩ :=
    structured_definition (m := booted 200) (P := .countdown) (intact_booted (by decide)) rfl (by decide)
      (by simp; decide) (by decide) (by simp; decide) hname (by decide) (by decide) (by decide)
  rw [Program.definition_countdown] at heval
  refine ⟨_, _, reaches_boot (by decide) (by decide), heval, ?_⟩
  have hexec : (Program.countdown.exec 4).passes
      { (booted 200).defined "zero" Program.countdown.code with data := .ofList [.int 2] }
      (fun m' => decide (m'.data = .ofList [.int 0])) = true := by
    decide +kernel
  obtain ⟨_, m', hm', hdata⟩ := of_passes hexec
  exact ⟨m', ((hmeaning _ (hready.withData _)).1 m').mpr ⟨4, hm'⟩, of_decide_eq_true hdata⟩

/-- Under a condition on the dictionary and the program, a definition succeeds, and right behind it the
new word succeeds like the program. -/
def Program.MeansWhatItSays (C : Dictionary → Program → Prop) : Prop :=
  ∀ (m : Machine) (name : String) (P : Program), m.Intact → m.mode = .interpret →
    m.ip < Cell.addressLimit → m.heap.capacity < Cell.addressLimit →
    m.returns.depth + 8 ≤ m.returnLimit → m.heap.here + P.code.length + 1 ≤ m.heap.capacity →
    IsWord name → name ∉ P.tokens → name ≠ ";" → m.dictionary.find? name = none → C m.dictionary P →
      ∃ m₁, Reaches (fun fuel => eval fuel (P.definition name)) m (.ok () m₁) ∧
        ∀ m', Reaches (fun fuel => dispatch fuel name) m₁ (.ok () m') ↔ Reaches P.exec m₁ (.ok () m')

/-- A machine on which `5` is a word, defined by `: 5 1 ;`. -/
def Machine.withShadowedNumeral : Machine :=
  (booted 200).defined "5" (Program.literal StackWord.one).code

/-- A machine on which the latest word of the library was made immediate. -/
def Machine.withImmediateMaximum : Machine :=
  { booted 200 with dictionary := Library.dictionary.markImmediate "max" }

/-- Both halves of the condition are needed.  A numeral that is also a word is compiled as the word, and
a word that was made immediate is executed while the definition is read. -/
theorem not_meansWhatItSays :
    ¬ Program.MeansWhatItSays
        (fun d P => P.All (fun _ => True) fun w => d.isImmediate w.name = false) ∧
      ¬ Program.MeansWhatItSays (fun d P => P.All (fun l => d.find? l.text = none) fun _ => True) := by
  constructor
  · intro hclaim
    let five : Literal := ⟨"5", 5, rfl⟩
    have hintact : withShadowedNumeral.Intact := by
      apply (intact_booted (by decide)).defined
      · intro o
        cases o <;> decide
      · intro w
        cases w <;> decide
      · intro w
        cases w <;> decide
    obtain ⟨m₁, heval, hmeans⟩ := hclaim withShadowedNumeral "w" (.literal five) hintact rfl (by decide)
      (by simp [withShadowedNumeral, Machine.defined]; decide) (by decide)
      (by simp [withShadowedNumeral, Machine.defined, Program.code])
      (by decide) (by decide) (by decide) rfl trivial
    have hrun : (eval 20 (Program.definition "w" (.literal five))).passes withShadowedNumeral (fun m₁ =>
        (dispatch 20 "w").passes m₁ fun m₂ => decide (m₂.data.top? = some (.int 1))) = true := by
      decide +kernel
    obtain ⟨_, m, hm, hcall⟩ := of_passes hrun
    cases (eval_steady _).reaches_unique heval ⟨20, hm⟩
    obtain ⟨_, m₂, hm₂, htop⟩ := of_passes hcall
    have hexec : Reaches (Program.literal five).exec m₁
        (.ok () { m₁ with data := m₁.data.push (.int 5) }) := ⟨0, rfl⟩
    cases (Program.exec_steady _).reaches_unique ((hmeans m₂).mp ⟨20, hm₂⟩) hexec
    exact absurd (of_decide_eq_true htop) (by simp [Stack.top?, Stack.push])
  · intro hclaim
    obtain ⟨m₁, heval, _⟩ := hclaim withImmediateMaximum "w" (StackWord.library .maximum)
      ((intact_booted (by decide)).markImmediate "max") rfl (by decide)
      (by simp [withImmediateMaximum]; decide) (by decide)
      (by simp [withImmediateMaximum, StackWord.library, Program.code])
      (by decide) (by decide) (by decide) rfl trivial
    have hrun : (eval 20 (Program.definition "w" (StackWord.library .maximum))).fails
        withImmediateMaximum (fun _ _ => true) = true := by
      decide +kernel
    obtain ⟨e, m', hm', _⟩ := of_fails hrun
    cases (eval_steady _).reaches_unique heval ⟨20, hm'⟩

end Forth

/-
What a definition leaves behind.  Branches and loops of all kinds, nested in any way, are compiled to
code in which every offset leads from its own cell to where the text says, and nothing is changed but
the cells of that code and the dictionary.
-/
import Forth.Proofs.Structured.Definition

namespace Forth

open Machine Run

/-! ### Counted loops -/

/-- The words of the library that begin and end a counted loop. -/
inductive CountedWord where
  | doWord | loopWord
deriving DecidableEq, Repr

namespace CountedWord

def name : CountedWord → String
  | doWord => "do"
  | loopWord => "loop"

/-- Where the library puts the word. -/
def address : CountedWord → Nat
  | doWord => 110
  | loopWord => 121

def code : CountedWord → List Cell
  | doWord => Library.doCells
  | loopWord => Library.loopCells

/-- The heap has the code of both words. -/
def Present (heap : Heap) : Prop :=
  ∀ w : CountedWord, heap.Holds w.address (w.code ++ [.op .exit])

/-- What a counted loop begins with: limit and index are put on the return stack. -/
def opening : List Cell :=
  [.op (.primitive .swap), .op (.primitive .toReturn), .op (.primitive .toReturn)]

/-- What follows the body of a counted loop: the index is increased and compared with the limit. -/
def counting : List Cell :=
  [.op (.primitive .fromReturn), .op (.primitive .lit), .int 1, .op (.primitive .add),
    .op (.primitive .fromReturn), .op (.body StackWord.twoDup.address), .op (.primitive .toReturn),
    .op (.primitive .toReturn), .op (.primitive .less), .op (.primitive .logicalNot)]

/-- What a counted loop ends with: limit and index are dropped. -/
def closing : List Cell :=
  [.op (.primitive .fromReturn), .op (.primitive .fromReturn), .op (.body StackWord.twoDrop.address)]

/-- What `do`, a body and `loop` are compiled to. -/
def fragment (body : List Cell) : List Cell :=
  opening ++ body ++ (counting ++ Program.jumpCells .jumpIfFalse (-(body.length + 11)) ++ closing)

/-- Code that appends cells. -/
def emitCells (cells : List Cell) : List Cell :=
  cells.flatMap fun c =>
    [.op (.primitive (if c.kind = .op then .tick else .lit)), c, .op (.primitive .comma)]

variable {heap : Heap} {limit room : Nat}

theorem performs_emit (cells : List Cell) :
    Performs heap limit room (emitCells cells) (appendAll cells) := by
  induction cells with
  | nil => exact fun p a _ _ _ => Executes.pure heap limit () fun _ => p.to a
  | cons c cells ih =>
      have hinline : (Primitive.execute (if c.kind = .op then .tick else .lit)) = Primitive.pushInline := by
        split <;> rfl
      have hcell : Performs heap limit room
          [.op (.primitive (if c.kind = .op then .tick else .lit)), c, .op (.primitive .comma)]
          (append c) := by
        have hcomma : append c = (do push c; Primitive.execute .comma) := by
          simp [Primitive.execute]
        rw [hcomma]
        exact (Performs.inline c hinline).append (.primitive .comma rfl)
      exact hcell.append ih

/-- What `do` does: it leaves the address of the body that follows. -/
def enter : Action Unit := do
  appendAll opening
  Primitive.execute .here

/-- What `loop` does: it takes the address of the body, and appends a jump to it. -/
def close : Action Unit := do
  appendAll counting
  ControlWord.back .jumpIfFalse
  appendAll closing

theorem performs_enter : Performs heap limit room (code .doWord) enter := by
  have hcode : code .doWord = emitCells opening ++ [.op (.primitive .here)] := rfl
  rw [hcode]
  exact (performs_emit opening).append (.primitive .here rfl)

theorem performs_close : Performs heap limit room (code .loopWord) close := by
  have hcode : code .loopWord =
      emitCells counting ++ (ControlWord.backCells .jumpIfFalse ++ emitCells closing) := rfl
  rw [hcode]
  exact (performs_emit counting).append
    ((ControlWord.performs_back .jumpIfFalse).append (performs_emit closing))

theorem enter_apply {m : Machine} (hroom : m.heap.here + 3 ≤ m.heap.capacity) :
    enter m = .ok () { m with
      heap := m.heap.fill opening
      data := m.data.push (Cell.ofAddress (m.heap.here + 3)) } :=
  Action.bind_of_ok (appendAll_of_room opening hroom)

theorem close_apply {m : Machine} {a : Nat} (offset : Int)
    (hoffset : (a : Int) - (m.heap.here + 11 : Nat) = offset)
    (hroom : m.heap.here + 15 ≤ m.heap.capacity) :
    close { m with data := m.data.push (Cell.ofAddress a) } = .ok () { m with
      heap := m.heap.fill (counting ++ Program.jumpCells .jumpIfFalse offset ++ closing) } := by
  have hcounting : counting.length = 10 := rfl
  have hclosing : closing.length = 3 := rfl
  have hcount := appendAll_of_room counting
    (m := { m with data := m.data.push (Cell.ofAddress a) })
    (show m.heap.here + counting.length ≤ m.heap.capacity by omega)
  have hback := ControlWord.back_apply (m := { m with heap := m.heap.fill counting }) .jumpIfFalse
    (a := a) (by simp only [Heap.here_fill, Heap.capacity_fill]; omega)
  have hclose := appendAll_of_room closing
    (m := { m with heap := (m.heap.fill counting).fill (Program.jumpCells .jumpIfFalse offset) })
    (by simp only [Heap.here_fill, Heap.capacity_fill, Program.length_jumpCells]; omega)
  simp only [Heap.here_fill, hcounting, Nat.add_assoc, Nat.reduceAdd, hoffset] at hback
  simp only [Heap.fill_append]
  exact (Action.bind_of_ok hcount).trans ((Action.bind_of_ok hback).trans hclose)

end CountedWord

/-- The dictionary has the word of counted loops, as an immediate one. -/
structure Dictionary.Counts (d : Dictionary) (w : CountedWord) : Prop where
  find? : d.find? w.name = some (.body w.address)
  isImmediate : d.isImmediate w.name = true

namespace Machine.Compiling

open CountedWord

variable {m : Machine}

/-- The address of the body of a counted loop is left. -/
theorem reads_do (h : m.Compiling) (hcode : CountedWord.Present m.heap) (xs : List Cell) (s : Stack)
    (hw : m.dictionary.Counts .doWord) (hroom : m.heap.here + xs.length + 3 ≤ m.heap.capacity) :
    Reads ["do"] (m.compiled xs s)
      (m.compiled (xs ++ opening) (s.push (Cell.ofAddress (m.heap.here + xs.length + 3)))) := by
  have hm := h.compiled xs s
  apply hm.reads_immediate hw.find? hw.isImmediate
  intro source
  have hcells := (hcode .doWord).of_extends (Heap.extends_fill m.heap xs)
  have henter := enter_apply (m := { m.compiled xs s with source := source })
    (by simpa [Machine.compiled] using hroom)
  have hcall := (hm.with_source source).reaches_call_of_performs hcells (by decide) performs_enter henter
  simpa [Machine.compiled, Machine.placed, Heap.fill_append] using hcall

/-- A counted loop is closed by a jump back to its body. -/
theorem reads_loop (h : m.Compiling) (hcode : CountedWord.Present m.heap) (xs : List Cell) (s : Stack)
    (hw : m.dictionary.Counts .loopWord) {a : Nat} {offset : Int}
    (hoffset : (a : Int) - (m.heap.here + xs.length + 11 : Nat) = offset)
    (hroom : m.heap.here + xs.length + 15 ≤ m.heap.capacity) :
    Reads ["loop"] (m.compiled xs (s.push (Cell.ofAddress a)))
      (m.compiled (xs ++ (counting ++ Program.jumpCells .jumpIfFalse offset ++ closing)) s) := by
  have hm := h.compiled xs (s.push (Cell.ofAddress a))
  apply hm.reads_immediate hw.find? hw.isImmediate
  intro source
  have hcells := (hcode .loopWord).of_extends (Heap.extends_fill m.heap xs)
  have hclose := close_apply (a := a) offset (m := { m.compiled xs s with source := source })
    (by simpa [Machine.compiled] using hoffset) (by simpa [Machine.compiled] using hroom)
  have hcall := (hm.with_source source).reaches_call_of_performs hcells (by decide) performs_close hclose
  simp only [Machine.compiled, Machine.placed, ← Heap.fill_append] at hcall
  exact hcall

end Machine.Compiling

/-- A counted loop. -/
theorem Machine.CompilesTo.counted {m : Machine} {ts : List String} {cs : List Cell} (h : m.Compiling)
    (hcode : CountedWord.Present m.heap) (hwords : ∀ w, m.dictionary.Counts w)
    (hP : m.CompilesTo ts cs) :
    m.CompilesTo ("do" :: ts ++ ["loop"]) (CountedWord.fragment cs) := by
  intro xs s hroom
  rw [CountedWord.fragment] at hroom ⊢
  have hopening : CountedWord.opening.length = 3 := rfl
  have hcounting : CountedWord.counting.length = 10 := rfl
  have hclosing : CountedWord.closing.length = 3 := rfl
  simp only [List.length_append, Program.length_jumpCells, hopening, hcounting, hclosing] at hroom
  have hopen := h.reads_do hcode xs s (hwords .doWord) (by omega)
  have hbody := hP (xs ++ CountedWord.opening) (s.push (Cell.ofAddress (m.heap.here + xs.length + 3)))
    (by simp only [List.length_append, hopening]; omega)
  have hoffset : ((m.heap.here + xs.length + 3 : Nat) : Int) -
      (m.heap.here + (xs ++ CountedWord.opening ++ cs).length + 11 : Nat) = -(cs.length + 11) := by
    simp only [List.length_append, hopening]
    omega
  have hclose := h.reads_loop hcode (xs ++ CountedWord.opening ++ cs) s (hwords .loopWord) hoffset
    (by simp only [List.length_append, hopening]; omega)
  have hall := (hopen.append hbody).append hclose
  simpa only [List.append_assoc, List.cons_append, List.nil_append] using hall

/-! ### Phrases -/

/-- What the text of a definition is made of: numerals, words with the operations that they stand for,
branches and loops. -/
inductive Phrase where
  | empty
  | literal (l : Literal)
  | word (name : String) (op : Op)
  | seq (P Q : Phrase)
  | ifThen (P : Phrase)
  | ifElse (P Q : Phrase)
  | untilTrue (P : Phrase)
  | forever (P : Phrase)
  | whileTrue (P Q : Phrase)
  | counted (P : Phrase)

namespace Phrase

/-- The words of the text of a phrase. -/
def tokens : Phrase → List String
  | empty => []
  | literal l => [l.text]
  | word name _ => [name]
  | seq P Q => P.tokens ++ Q.tokens
  | ifThen P => "if" :: P.tokens ++ ["then"]
  | ifElse P Q => "if" :: P.tokens ++ "else" :: Q.tokens ++ ["then"]
  | untilTrue P => "begin" :: P.tokens ++ ["until"]
  | forever P => "begin" :: P.tokens ++ ["again"]
  | whileTrue P Q => "begin" :: P.tokens ++ "while" :: Q.tokens ++ ["repeat"]
  | counted P => "do" :: P.tokens ++ ["loop"]

/-- The number of cells that a phrase is compiled to. -/
def size : Phrase → Nat
  | empty => 0
  | literal _ => 2
  | word _ _ => 1
  | seq P Q => P.size + Q.size
  | ifThen P => 2 + P.size
  | ifElse P Q => 2 + P.size + 2 + Q.size
  | untilTrue P | forever P => P.size + 2
  | whileTrue P Q => P.size + 2 + Q.size + 2
  | counted P => 3 + P.size + 15

/-- A jump that lies at an address.  The cell behind it holds the target less its own address. -/
def jumpTo (o : Primitive) (address target : Nat) : List Cell :=
  [.op (.primitive o), .int (Int64.ofInt (target - (address + 1 : Nat)))]

theorem jumpTo_eq (offset : Int) {o : Primitive} {a target : Nat}
    (hoffset : (target : Int) - (a + 1 : Nat) = offset) :
    jumpTo o a target = Program.jumpCells o offset := by
  rw [jumpTo, hoffset, Program.jumpCells]

/-- The code of a phrase that lies at an address. -/
def layout : Phrase → Nat → List Cell
  | empty, _ => []
  | literal l, _ => [.op (.primitive .lit), .int l.value]
  | word _ op, _ => [.op op]
  | seq P Q, a => P.layout a ++ Q.layout (a + P.size)
  | ifThen P, a => jumpTo .jumpIfFalse a (a + 2 + P.size) ++ P.layout (a + 2)
  | ifElse P Q, a =>
      let other := a + 2 + P.size + 2
      jumpTo .jumpIfFalse a other ++ P.layout (a + 2) ++
        jumpTo .jump (a + 2 + P.size) (other + Q.size) ++ Q.layout other
  | untilTrue P, a => P.layout a ++ jumpTo .jumpIfFalse (a + P.size) a
  | forever P, a => P.layout a ++ jumpTo .jump (a + P.size) a
  | whileTrue P Q, a =>
      let body := a + P.size + 2
      P.layout a ++ jumpTo .jumpIfFalse (a + P.size) (body + Q.size + 2) ++ Q.layout body ++
        jumpTo .jump (body + Q.size) a
  | counted P, a =>
      let body := a + 3
      CountedWord.opening ++ P.layout body ++
        (CountedWord.counting ++ jumpTo .jumpIfFalse (body + P.size + 10) body ++ CountedWord.closing)

theorem length_layout (P : Phrase) (a : Nat) : (P.layout a).length = P.size := by
  induction P generalizing a with
  | empty | literal l | word name op => rfl
  | seq P Q ihP ihQ => simp only [layout, size, List.length_append, ihP, ihQ]
  | ifThen P ih => simp [layout, size, jumpTo, ih]; omega
  | ifElse P Q ihP ihQ => simp [layout, size, jumpTo, ihP, ihQ]; omega
  | untilTrue P ih | forever P ih => simp [layout, size, jumpTo, ih]
  | whileTrue P Q ihP ihQ => simp [layout, size, jumpTo, ihP, ihQ]; omega
  | counted P ih =>
      simp [layout, size, jumpTo, ih, CountedWord.opening, CountedWord.counting, CountedWord.closing]
      omega

/-- All numerals and all words of a phrase have the given properties. -/
def All (L : Literal → Prop) (W : String → Op → Prop) : Phrase → Prop
  | empty => True
  | literal l => L l
  | word name op => W name op
  | seq P Q | ifElse P Q | whileTrue P Q => P.All L W ∧ Q.All L W
  | ifThen P | untilTrue P | forever P | counted P => P.All L W

/-- The dictionary has a word, as one that is compiled and not executed at once. -/
def Ordinary (d : Dictionary) (name : String) (op : Op) : Prop :=
  d.find? name = some op ∧ d.isImmediate name = false

/-- The dictionary has the words of the phrase, and no entry for its numerals. -/
def Known (d : Dictionary) (P : Phrase) : Prop :=
  P.All (fun l => d.find? l.text = none) (Ordinary d)

variable {m : Machine}

/-- Reading a phrase compiles it to its layout.  The offsets count from their own cells, so that it does
not matter at which address the layout is taken. -/
theorem compiles (P : Phrase) (h : m.Compiling) (hcontrols : ∀ w, m.dictionary.Controls w)
    (hcode : CountedWord.Present m.heap) (hcounts : ∀ w, m.dictionary.Counts w)
    (hP : P.Known m.dictionary) (a : Nat) : m.CompilesTo P.tokens (P.layout a) := by
  induction P generalizing a with
  | empty => exact CompilesTo.nil m
  | literal l => exact CompilesTo.numeral h hP
  | word name op => exact CompilesTo.entry h hP.1 hP.2
  | seq P Q ihP ihQ => exact (ihP hP.1 a).append (ihQ hP.2 (a + P.size))
  | ifThen P ih =>
      have hform := CompilesTo.ifThen h (hcontrols .ifWord) (hcontrols .thenWord) (ih hP (a + 2))
      rw [length_layout] at hform
      rw [layout, jumpTo_eq (P.size + 1) (by omega)]
      exact hform
  | ifElse P Q ihP ihQ =>
      have hform := CompilesTo.ifElse h (hcontrols .ifWord) (hcontrols .elseWord) (hcontrols .thenWord)
        (ihP hP.1 (a + 2)) (ihQ hP.2 (a + 2 + P.size + 2))
      rw [length_layout, length_layout] at hform
      rw [layout, jumpTo_eq (P.size + 3) (by omega),
        jumpTo_eq (Q.size + 1) (by omega)]
      exact hform
  | untilTrue P ih =>
      have hform := CompilesTo.loop h (hcontrols .beginWord) (hcontrols .untilWord) rfl (ih hP a)
      rw [length_layout] at hform
      rw [layout, jumpTo_eq (-(P.size + 1)) (by omega)]
      exact hform
  | forever P ih =>
      have hform := CompilesTo.loop h (hcontrols .beginWord) (hcontrols .againWord) rfl (ih hP a)
      rw [length_layout] at hform
      rw [layout, jumpTo_eq (-(P.size + 1)) (by omega)]
      exact hform
  | whileTrue P Q ihP ihQ =>
      have hform := CompilesTo.whileTrue h (hcontrols .beginWord) (hcontrols .whileWord)
        (hcontrols .repeatWord) (ihP hP.1 a) (ihQ hP.2 (a + P.size + 2))
      rw [length_layout, length_layout] at hform
      rw [layout, jumpTo_eq (Q.size + 3) (by omega),
        jumpTo_eq (-(P.size + Q.size + 3)) (by omega)]
      exact hform
  | counted P ih =>
      have hform := CompilesTo.counted h hcode hcounts (ih hP (a + 3))
      rw [CountedWord.fragment, length_layout] at hform
      rw [layout, jumpTo_eq (-(P.size + 11)) (by omega)]
      exact hform

/-- A loop in a branch, at address 100: the first offset leads from 101 to 107, the second from 106 back
to 102. -/
example :
    (ifThen (untilTrue (seq (word "dup" (.primitive .dup)) (literal ⟨"3", 3, rfl⟩)))).layout 100 =
      [.op (.primitive .jumpIfFalse), .int 6, .op (.primitive .dup), .op (.primitive .lit), .int 3,
        .op (.primitive .jumpIfFalse), .int (-4)] := by
  rfl

end Phrase

/-! ### Definitions -/

/-- All words of the library, and the primitives, are neither shadowed nor overwritten. -/
structure Machine.WhollyIntact (m : Machine) : Prop extends m.Intact where
  countedWords : ∀ w, m.dictionary.Counts w
  countedCode : CountedWord.Present m.heap

theorem Machine.whollyIntact_booted {capacity : Nat} (hcapacity : 185 ≤ capacity) :
    (booted capacity).WhollyIntact where
  toIntact := intact_booted hcapacity
  countedWords w := by
    change Library.dictionary.Counts w
    cases w <;> exact ⟨by rfl, by rfl⟩
  countedCode w := by
    have hcells := holds_booted hcapacity
    rw [← Nat.zero_add w.address]
    apply hcells.of_isPrefixOf_drop
    cases w <;> rfl

/-- A word has been added, with the given cells as its code, and nothing else has changed that a program
could tell. -/
structure Machine.Gains (m : Machine) (name : String) (cells : List Cell) (m' : Machine) : Prop where
  dictionary : m'.dictionary = m.dictionary.define name (.body m.heap.here)
  here : m'.heap.here = m.heap.here + cells.length
  inside : m'.heap.Holds m.heap.here cells
  outside : ∀ a, a < m.heap.here ∨ m.heap.here + cells.length ≤ a → m'.heap.get? a = m.heap.get? a
  data : m'.data = m.data
  returns : m'.returns = m.returns
  ip : m'.ip = m.ip
  mode : m'.mode = .interpret
  output : m'.output = m.output

theorem Machine.gains_defined {m : Machine} (hmode : m.mode = .interpret) (name : String)
    {code : List Cell} (hroom : m.heap.here + code.length + 1 ≤ m.heap.capacity) :
    m.Gains name (code ++ [.op .exit]) (m.defined name code) where
  dictionary := rfl
  here := Heap.here_fill _ _
  inside := Heap.holds_fill (by simpa [Nat.add_assoc] using hroom)
  outside := by
    rintro a (hbelow | hbehind)
    · exact (Heap.extends_fill _ _).get? a hbelow
    · exact Heap.get?_fill_of_le _ hbehind
  data := rfl
  returns := rfl
  ip := rfl
  mode := hmode
  output := rfl

/-- What a definition leaves behind.  Reading `: name P ;` succeeds; it adds the name to the dictionary
and the layout of P to the heap, up to an end marker, and leaves everything else as it was.  The name
may occur in P, where it stands for the new word. -/
theorem definition_gains_layout {m : Machine} (hm : m.WhollyIntact) (hmode : m.mode = .interpret)
    (hip : m.ip < Cell.addressLimit) (hcapacity : m.heap.capacity < Cell.addressLimit)
    (hreturns : m.returns.depth + 4 ≤ m.returnLimit) {name : String} (hsemicolon : name ≠ ";")
    (hcontrol : ∀ w : ControlWord, name ≠ w.name) (hcounted : ∀ w : CountedWord, name ≠ w.name)
    {P : Phrase} (hP : P.Known (m.dictionary.define name (.body m.heap.here)))
    (hroom : m.heap.here + P.size + 1 ≤ m.heap.capacity) {text : String}
    (htext : (Source.ofChars bufferName text.toList).readAll.1.map Token.text =
      ":" :: (name :: P.tokens ++ [";"])) :
    ∃ m', Reaches (fun fuel => eval fuel text) m (.ok () m') ∧
      m.Gains name (P.layout m.heap.here ++ [.op .exit]) m' := by
  have hbegun : (m.begun name).Compiling :=
    ⟨rfl, hm.stackCode .overWord, hm.controlCode, hip, hcapacity, Nat.le_of_succ_le hreturns⟩
  have hfind : ∀ {word : String}, name ≠ word →
      (m.begun name).dictionary.find? word = m.dictionary.find? word := by
    intro word hne
    simp only [Machine.begun, Dictionary.find?_define, if_neg hne]
  have hcontrols : ∀ w, (m.begun name).dictionary.Controls w :=
    fun w => ⟨(hfind (hcontrol w)).trans (hm.controlWords w).find?, (hm.controlWords w).isImmediate⟩
  have hcounts : ∀ w, (m.begun name).dictionary.Counts w :=
    fun w => ⟨(hfind (hcounted w)).trans (hm.countedWords w).find?, (hm.countedWords w).isImmediate⟩
  have hsize : m.heap.here + (P.layout m.heap.here).length + 1 ≤ m.heap.capacity := by
    rw [P.length_layout]
    exact hroom
  have hbody : Reads P.tokens (m.begun name) ((m.begun name).compiled (P.layout m.heap.here) m.data) :=
    P.compiles hbegun hcontrols hm.countedCode hcounts hP m.heap.here [] m.data
      (Nat.le_of_succ_le hsize)
  have hreads := Reads.definition hmode (hm.primitives .colon) (hm.primitives .semicolon) hm.semicolon
    hsemicolon hsize hbody
  exact ⟨_, hreads.evalSource_of_readAll _ htext, gains_defined hmode name hsize⟩

namespace Phrase

/-- A counted loop around a branch, in which the word `w` at an address is called. -/
def nested (address : Nat) : Phrase :=
  counted (ifElse (word "w" (.body address)) (literal ⟨"7", 7, rfl⟩))

end Phrase

/-- A word that calls itself in a branch of a loop, defined behind the library. -/
theorem definition_gains_layout_nested :
    ∃ m₀ m', (∃ fuel, boot fuel 300 = some (.ok () m₀)) ∧
      Reaches (fun fuel => eval fuel ": w do if w else 7 then loop ;") m₀ (.ok () m') ∧
      m₀.Gains "w" ((Phrase.nested 185).layout 185 ++ [.op .exit]) m' := by
  have hknown : (Phrase.nested 185).Known ((booted 300).dictionary.define "w" (.body 185)) :=
    ⟨⟨rfl, rfl⟩, rfl⟩
  have hgains : ∃ m', Reaches (fun fuel => eval fuel ": w do if w else 7 then loop ;") (booted 300)
      (.ok () m') ∧ (booted 300).Gains "w"
        ((Phrase.nested 185).layout (booted 300).heap.here ++ [.op .exit]) m' := by
    apply definition_gains_layout (whollyIntact_booted (by decide)) rfl (by decide) (by simp; decide)
      (by decide) (by decide)
    · intro w
      cases w <;> decide
    · intro w
      cases w <;> decide
    · simpa using hknown
    · simp
      decide
    · decide +kernel
  rw [here_booted] at hgains
  obtain ⟨m', heval, hm'⟩ := hgains
  exact ⟨_, m', reaches_boot (by decide) (by decide), heval, hm'⟩

/-- The numerals of the phrase must be no words.  Where `5` is a word, `: w 5 ;` compiles a call of it,
which is one cell and not two. -/
theorem not_definition_gains_layout :
    ¬ ∀ (m : Machine) (name text : String) (P : Phrase), m.WhollyIntact → m.mode = .interpret →
      m.ip < Cell.addressLimit → m.heap.capacity < Cell.addressLimit →
      m.returns.depth + 4 ≤ m.returnLimit → name ≠ ";" → (∀ w : ControlWord, name ≠ w.name) →
      (∀ w : CountedWord, name ≠ w.name) →
      P.All (fun _ => True) (Phrase.Ordinary (m.dictionary.define name (.body m.heap.here))) →
      m.heap.here + P.size + 1 ≤ m.heap.capacity →
      (Source.ofChars bufferName text.toList).readAll.1.map Token.text =
        ":" :: (name :: P.tokens ++ [";"]) →
      ∃ m', Reaches (fun fuel => eval fuel text) m (.ok () m') ∧
        m.Gains name (P.layout m.heap.here ++ [.op .exit]) m' := by
  intro hclaim
  have hintact : withShadowedNumeral.WhollyIntact := by
    have hbooted : (booted 200).WhollyIntact := whollyIntact_booted (by decide)
    have hlibrary : withShadowedNumeral.Intact := by
      apply hbooted.toIntact.defined
      · intro o
        cases o <;> decide
      · intro w
        cases w <;> decide
      · intro w
        cases w <;> decide
    refine ⟨hlibrary, fun w => ?_, fun w => (hbooted.countedCode w).of_extends (Heap.extends_fill _ _)⟩
    change (Library.dictionary.define "5" (.body (booted 200).heap.here)).Counts w
    cases w <;> exact ⟨by rfl, by rfl⟩
  have hhere : withShadowedNumeral.heap.here = 188 := by
    simp [withShadowedNumeral, Machine.defined, Program.code]
  obtain ⟨m', heval, hgains⟩ := hclaim withShadowedNumeral "w" ": w 5 ;" (.literal ⟨"5", 5, rfl⟩) hintact
    rfl (by decide) (by simp [withShadowedNumeral, Machine.defined]; decide) (by decide) (by decide)
    (by intro w; cases w <;> decide) (by intro w; cases w <;> decide) trivial
    (by simp [withShadowedNumeral, Machine.defined, Program.code, Phrase.size]) (by decide +kernel)
  have hrun : (eval 20 ": w 5 ;").passes withShadowedNumeral (fun m₁ =>
      decide (m₁.heap.here = 190)) = true := by
    decide +kernel
  obtain ⟨_, m₁, hm₁, htest⟩ := of_passes hrun
  cases (eval_steady _).reaches_unique heval ⟨20, hm₁⟩
  have hend := hgains.here
  rw [hhere, of_decide_eq_true htest] at hend
  cases hend

end Forth

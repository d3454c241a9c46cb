/-
The machine that has read the library.  Its heap begins with the code of the words of the library, one
after the other, and its dictionary lists them behind the primitives.  A machine is intact as long as
the words that programs are made of are found, and their code is there.
-/
import Forth.Proofs.Structured.Compilation

namespace Forth

open Machine Run

/-- The words of the library that programs are made of, and the primitives, are neither shadowed nor
overwritten. -/
structure Machine.Intact (m : Machine) : Prop where
  primitives : ∀ o : Primitive, m.dictionary.find? o.name = some (.primitive o)
  semicolon : m.dictionary.isImmediate ";" = true
  stackWords : ∀ w : StackWord, m.dictionary.find? w.name = some (.body w.address)
  controlWords : ∀ w : ControlWord, m.dictionary.Controls w
  stackCode : StackWord.Present m.heap
  controlCode : ControlWord.Present m.heap

namespace Library

/-- The cells of a counted loop's beginning. -/
def doCells : List Cell :=
  [.op (.primitive .tick), .op (.primitive .swap), .op (.primitive .comma),
    .op (.primitive .tick), .op (.primitive .toReturn), .op (.primitive .comma),
    .op (.primitive .tick), .op (.primitive .toReturn), .op (.primitive .comma), .op (.primitive .here)]

def loopCells : List Cell :=
  [.op (.primitive .tick), .op (.primitive .fromReturn), .op (.primitive .comma),
    .op (.primitive .tick), .op (.primitive .lit), .op (.primitive .comma),
    .op (.primitive .lit), .int 1, .op (.primitive .comma),
    .op (.primitive .tick), .op (.primitive .add), .op (.primitive .comma),
    .op (.primitive .tick), .op (.primitive .fromReturn), .op (.primitive .comma),
    .op (.primitive .tick), .op (.body StackWord.twoDup.address), .op (.primitive .comma),
    .op (.primitive .tick), .op (.primitive .toReturn), .op (.primitive .comma),
    .op (.primitive .tick), .op (.primitive .toReturn), .op (.primitive .comma),
    .op (.primitive .tick), .op (.primitive .less), .op (.primitive .comma),
    .op (.primitive .tick), .op (.primitive .logicalNot), .op (.primitive .comma),
    .op (.primitive .tick), .op (.primitive .jumpIfFalse), .op (.primitive .comma),
    .op (.primitive .here), .op (.primitive .sub), .op (.primitive .comma),
    .op (.primitive .tick), .op (.primitive .fromReturn), .op (.primitive .comma),
    .op (.primitive .tick), .op (.primitive .fromReturn), .op (.primitive .comma),
    .op (.primitive .tick), .op (.body StackWord.twoDrop.address), .op (.primitive .comma)]

/-- The words of the library in the order of their definition, each with its code. -/
def definitions : List (String × List Cell) :=
  [StackWord.overWord, .rot, .backRot, .nip, .tuck, .twoDup, .twoDrop, .unequal, .greater, .atMost, .atLeast,
      .increment, .decrement].map (fun w => (w.name, w.code)) ++
    [ControlWord.ifWord, .thenWord, .elseWord, .beginWord, .untilWord, .againWord, .whileWord,
      .repeatWord].map (fun w => (w.name, w.code)) ++
    [("do", doCells), ("loop", loopCells)] ++
    [StackWord.minimum, .maximum].map (fun w => (w.name, w.code))

/-- The code of the library. -/
def cells : List Cell :=
  definitions.flatMap fun d => d.2 ++ [.op .exit]

theorem length_cells : cells.length = 185 := by
  rfl

/-- The entries of the library, oldest first, if its code begins at an address. -/
def entriesFrom : Nat → List (String × List Cell) → List Entry
  | _, [] => []
  | a, (name, code) :: ds => ⟨name, .body a⟩ :: entriesFrom (a + code.length + 1) ds

/-- The dictionary behind the library. -/
def dictionary : Dictionary where
  entries := (entriesFrom 0 definitions).reverse ++ Dictionary.core.entries
  immediates :=
    ["loop", "do", "repeat", "while", "again", "until", "begin", "else", "then", "if"] ++
      Dictionary.core.immediates

end Library

/-- A machine that has read the library, and nothing else. -/
def Machine.booted (capacity : Nat) : Machine :=
  { Machine.new capacity with
    dictionary := Library.dictionary
    heap := (Heap.ofCapacity capacity).fill Library.cells
    lastWord := some "max" }

namespace Heap

theorem Holds.of_isPrefixOf_drop {heap : Heap} {a : Nat} {cells cs : List Cell} (h : heap.Holds a cells)
    (n : Nat) (hcs : cs.isPrefixOf (cells.drop n) = true) : heap.Holds (a + n) cs := by
  obtain ⟨rest, hrest⟩ := List.isPrefixOf_iff_prefix.mp hcs
  intro i c hi
  have hcell : cells[n + i]? = some c := by
    rw [← List.getElem?_drop, ← hrest, List.getElem?_append_left (List.getElem?_eq_some_iff.mp hi).1]
    exact hi
  rw [Nat.add_assoc]
  exact h (n + i) c hcell

end Heap

namespace Machine

@[simp] theorem here_booted (capacity : Nat) : (booted capacity).heap.here = 185 := by
  simp [booted, Library.length_cells]

@[simp] theorem capacity_booted (capacity : Nat) : (booted capacity).heap.capacity = capacity := by
  simp [booted]

theorem holds_booted {capacity : Nat} (hcapacity : 185 ≤ capacity) :
    (booted capacity).heap.Holds 0 Library.cells := by
  apply Heap.holds_fill
  simpa [Library.length_cells] using hcapacity

theorem intact_booted {capacity : Nat} (hcapacity : 185 ≤ capacity) : (booted capacity).Intact := by
  have hcells := holds_booted hcapacity
  refine ⟨?_, ?_, ?_, ?_, ?_, ?_⟩
  · intro o
    change Library.dictionary.find? o.name = _
    cases o <;> rfl
  · change Library.dictionary.isImmediate ";" = true
    rfl
  · intro w
    change Library.dictionary.find? w.name = _
    cases w <;> rfl
  · intro w
    change Library.dictionary.Controls w
    cases w <;> exact ⟨by rfl, by rfl⟩
  · intro w
    rw [← Nat.zero_add w.address]
    apply hcells.of_isPrefixOf_drop
    cases w <;> rfl
  · intro w
    rw [← Nat.zero_add w.address]
    apply hcells.of_isPrefixOf_drop
    cases w <;> rfl

end Machine

/-! ### Reading the library -/

namespace Library

/-- How far the library has been read: the dictionary, the cells, the mode and the latest name. -/
structure Stage where
  dictionary : Dictionary
  cells : List Cell
  mode : Mode
  lastWord : Option String
deriving DecidableEq

namespace Stage

variable {s s' : Stage} {ws : List String} {capacity : Nat}

def machine (s : Stage) (capacity : Nat) : Machine :=
  { Machine.new capacity with
    dictionary := s.dictionary
    heap := (Heap.ofCapacity capacity).fill s.cells
    mode := s.mode
    lastWord := s.lastWord }

def begun (s : Stage) (name : String) : Stage where
  dictionary := s.dictionary.define name (.body s.cells.length)
  cells := s.cells
  mode := .compile
  lastWord := some name

def appended (s : Stage) (cells : List Cell) : Stage :=
  { s with cells := s.cells ++ cells }

def ended (s : Stage) : Stage :=
  { s with cells := s.cells ++ [.op .exit], mode := .interpret }

def marked (s : Stage) (name : String) : Stage :=
  { s with dictionary := s.dictionary.markImmediate name }

/-- What is read at once: a comment, the beginning or the end of a definition, the mark of an immediate
word, or a word that is compiled. -/
inductive Step : List String → Stage → Stage → Prop where
  | comment {s : Stage} {word : String} {content : List String} (hmode : s.mode = .interpret)
      (hfind : s.dictionary.find? word = some (.primitive .comment)) (hcontent : ∀ w ∈ content, w ≠ ")") :
      Step (word :: (content ++ [")"])) s s
  | colon {s : Stage} {word : String} (name : String) (hmode : s.mode = .interpret)
      (hfind : s.dictionary.find? word = some (.primitive .colon)) : Step [word, name] s (s.begun name)
  | immediate {s : Stage} {word name : String} (hmode : s.mode = .interpret)
      (hfind : s.dictionary.find? word = some (.primitive .immediate)) (hlast : s.lastWord = some name) :
      Step [word] s (s.marked name)
  | semicolon {s : Stage} {word : String} (hmode : s.mode = .compile)
      (hfind : s.dictionary.find? word = some (.primitive .semicolon))
      (himmediate : s.dictionary.isImmediate word = true) : Step [word] s s.ended
  | compile {s : Stage} {word : String} {cells : List Cell} (hmode : s.mode = .compile)
      (hcells : s.dictionary.compile? word = some cells) : Step [word] s (s.appended cells)

/-- The words lead from one stage to another, step by step. -/
inductive Scans : List String → Stage → Stage → Prop where
  | nil (s : Stage) : Scans [] s s
  | step {s s₁ s' : Stage} {ws words : List String} (hstep : Step ws s s₁) (hrest : Scans words s₁ s') :
      Scans (ws ++ words) s s'

/-- Finds the stage to which the words lead.  `inside` says that a comment has been begun. -/
def scan : Bool → List String → Stage → Option Stage
  | true, [], _ => none
  | true, word :: words, s => scan (word != ")") words s
  | false, [], s => some s
  | false, word :: words, s =>
      match s.mode, s.dictionary.find? word, words with
      | .interpret, some (.primitive .comment), words => scan true words s
      | .interpret, some (.primitive .colon), name :: words => scan false words (s.begun name)
      | .interpret, some (.primitive .immediate), words =>
          s.lastWord.bind fun name => scan false words (s.marked name)
      | .compile, some (.primitive .semicolon), words =>
          if s.dictionary.isImmediate word then scan false words s.ended else none
      | .compile, _, words =>
          (s.dictionary.compile? word).bind fun cells => scan false words (s.appended cells)
      | .interpret, _, _ => none

/-- The words lead from one stage to another; inside a comment, those behind its end do. -/
def ScansFrom (s s' : Stage) (ws : List String) : Bool → Prop
  | false => Scans ws s s'
  | true => ∃ content words, ws = (content ++ [")"]) ++ words ∧ (∀ w ∈ content, w ≠ ")") ∧
      Scans words s s'

theorem scansFrom_of_scan {inside : Bool} (h : scan inside ws s = some s') : ScansFrom s s' ws inside := by
  fun_induction scan inside ws s with
  | case1 => cases h
  | case2 word words s ih =>
      by_cases hend : word = ")"
      · subst hend
        exact ⟨[], words, rfl, by simp, ih h⟩
      · have hinside : (word != ")") = true := bne_iff_ne.mpr hend
        rw [hinside] at ih h
        obtain ⟨content, rest, rfl, hcontent, hrest⟩ := ih h
        exact ⟨word :: content, rest, rfl, List.forall_mem_cons.mpr ⟨hend, hcontent⟩, hrest⟩
  | case3 =>
      cases h
      exact Scans.nil _
  | case4 word s words hfind hmode ih =>
      obtain ⟨content, rest, rfl, hcontent, hrest⟩ := ih h
      exact .step (.comment hmode hfind hcontent) hrest
  | case5 word s name words hfind hmode ih => exact .step (.colon name hmode hfind) (ih h)
  | case6 word s words hfind hmode ih =>
      obtain ⟨name, hlast, h⟩ := Option.bind_eq_some_iff.mp h
      exact .step (.immediate hmode hfind hlast) (ih name h)
  | case7 word s words hfind hmode himmediate ih =>
      exact .step (.semicolon hmode hfind himmediate) (ih h)
  | case8 => cases h
  | case9 word s words hmode _ ih =>
      obtain ⟨cells, hcells, h⟩ := Option.bind_eq_some_iff.mp h
      exact .step (.compile hmode hcells) (ih cells h)
  | case10 => cases h

theorem scans_of_scan (h : scan false ws s = some s') : Scans ws s s' :=
  scansFrom_of_scan h

@[simp] theorem here_machine (s : Stage) (capacity : Nat) :
    (s.machine capacity).heap.here = s.cells.length := by
  simp [machine]

@[simp] theorem capacity_machine (s : Stage) (capacity : Nat) :
    (s.machine capacity).heap.capacity = capacity := by
  simp [machine]

theorem begun_machine (s : Stage) (name : String) (capacity : Nat) :
    (s.machine capacity).begun name = (s.begun name).machine capacity := by
  simp [machine, begun, Machine.begun]

theorem appended_machine (s : Stage) (cells : List Cell) (capacity : Nat) :
    (s.machine capacity).compiled cells (s.machine capacity).data =
      (s.appended cells).machine capacity := by
  simp [machine, appended, Machine.compiled, Heap.fill_append]

theorem ended_machine (s : Stage) (capacity : Nat) :
    { s.machine capacity with
      heap := (s.machine capacity).heap.push (.op .exit)
      mode := .interpret } = s.ended.machine capacity := by
  simp [machine, ended, Heap.fill_append, Heap.fill]

theorem Step.length_le (h : Step ws s s') : s.cells.length ≤ s'.cells.length := by
  cases h with
  | comment | colon | immediate => exact Nat.le_refl _
  | semicolon => simp [ended]
  | compile => simp [appended]

theorem Scans.length_le (h : Scans ws s s') : s.cells.length ≤ s'.cells.length := by
  induction h with
  | nil s => exact Nat.le_refl _
  | step hstep _ ih => exact Nat.le_trans hstep.length_le ih

theorem Step.reads (h : Step ws s s') (hroom : s'.cells.length ≤ capacity) :
    Reads ws (s.machine capacity) (s'.machine capacity) := by
  cases h with
  | comment hmode hfind hcontent => exact Reads.comment (m := s.machine capacity) hmode hfind hcontent
  | colon name hmode hfind =>
      rw [← begun_machine]
      exact Reads.colon name hmode hfind
  | immediate hmode hfind hlast => exact Reads.immediate (m := s.machine capacity) hmode hfind hlast
  | semicolon hmode hfind himmediate =>
      rw [← ended_machine]
      exact Reads.semicolon hmode hfind himmediate (by simpa [ended, Nat.succ_le_iff] using hroom)
  | compile hmode hcells =>
      rw [← appended_machine]
      exact Reads.compile hmode hcells (by simpa [appended] using hroom)

/-- What is scanned is read, if there is room for it. -/
theorem Scans.reads (h : Scans ws s s') (hroom : s'.cells.length ≤ capacity) :
    Reads ws (s.machine capacity) (s'.machine capacity) := by
  induction h with
  | nil s => exact Reads.nil _
  | step hstep hrest ih => exact (hstep.reads (Nat.le_trans hrest.length_le hroom)).append (ih hroom)

def defined (s : Stage) (name : String) (code : List Cell) : Stage where
  dictionary := s.dictionary.define name (.body s.cells.length)
  cells := s.cells ++ (code ++ [.op .exit])
  mode := s.mode
  lastWord := some name

theorem defined_machine (s : Stage) (name : String) (code : List Cell) (capacity : Nat) :
    (s.machine capacity).defined name code = (s.defined name code).machine capacity := by
  simp [machine, defined, Machine.defined, Heap.fill_append]

/-- The stage has the control words, and the words that definitions begin and end with. -/
structure HasControl (s : Stage) : Prop where
  mode : s.mode = .interpret
  colon : s.dictionary.find? ":" = some (.primitive .colon)
  semicolon : s.dictionary.find? ";" = some (.primitive .semicolon)
  isImmediate : s.dictionary.isImmediate ";" = true
  cells : (Library.cells.take 110).isPrefixOf s.cells = true

theorem HasControl.compiling (hs : s.HasControl) (name : String) (hroom : s.cells.length ≤ capacity)
    (hcapacity : capacity < Cell.addressLimit) : ((s.machine capacity).begun name).Compiling := by
  have hcells : (s.machine capacity).heap.Holds 0 (Library.cells.take 110) := by
    have hall : (s.machine capacity).heap.Holds 0 s.cells := by
      apply Heap.holds_fill
      simpa using hroom
    exact hall.of_isPrefixOf_drop 0 hs.cells
  have hip : 0 < Cell.addressLimit := by decide
  have hreturns : 0 + 3 ≤ defaultReturnLimit := by decide
  refine ⟨rfl, ?_, ?_, hip, by simpa [begun_machine] using hcapacity, hreturns⟩
  · exact hcells.of_isPrefixOf_drop 0 rfl
  · intro w
    rw [← Nat.zero_add w.address]
    apply hcells.of_isPrefixOf_drop
    cases w <;> rfl

theorem HasControl.reads_definition (hs : s.HasControl) {name : String} {P : Program} (hname : name ≠ ";")
    (hP : P.Known (s.begun name).dictionary)
    (hroom : s.cells.length + P.code.length + 1 ≤ capacity) (hcapacity : capacity < Cell.addressLimit) :
    Reads (":" :: (name :: P.tokens ++ [";"])) (s.machine capacity)
      ((s.defined name P.code).machine capacity) := by
  have hcompiling := hs.compiling name (by omega) hcapacity
  have hbody := P.compiles hcompiling (begun_machine s name capacity ▸ hP) [] (s.machine capacity).data
    (by simp [begun_machine, begun]; omega)
  rw [← defined_machine]
  exact Reads.definition hs.mode hs.colon hs.semicolon hs.isImmediate hname (by simpa using hroom) hbody

end Stage

/-- The words of the text of the library. -/
def words : List String :=
  (Source.ofChars name text).readAll.1.map Token.text

/-- The library up to the words that are defined by control words. -/
def controlStage : Stage where
  dictionary := { dictionary with entries := dictionary.entries.drop 2 }
  cells := cells.take 167
  mode := .interpret
  lastWord := some "loop"

/-- The library but for its last word. -/
def minimumStage : Stage :=
  controlStage.defined "min" (StackWord.code .minimum)

theorem scan_words :
    Stage.scan false (words.take 277) ⟨Dictionary.core, [], .interpret, none⟩ = some controlStage ∧
      words.drop 277 =
        (":" :: ("min" :: (StackWord.extremum (StackWord.primitive .less)).tokens ++ [";"])) ++
          (":" :: ("max" :: (StackWord.extremum (StackWord.library .greater)).tokens ++ [";"])) := by
  decide +kernel

theorem scans_words : Stage.Scans (words.take 277) ⟨Dictionary.core, [], .interpret, none⟩ controlStage :=
  Stage.scans_of_scan scan_words.1

set_option maxRecDepth 2000 in
theorem defined_minimumStage :
    minimumStage.defined "max" (StackWord.code .maximum) =
      ⟨dictionary, cells, .interpret, some "max"⟩ := by
  rfl

theorem hasControl_controlStage : controlStage.HasControl :=
  ⟨rfl, rfl, rfl, rfl, rfl⟩

theorem hasControl_minimumStage : minimumStage.HasControl :=
  ⟨rfl, rfl, rfl, rfl, rfl⟩

theorem length_controlStage : controlStage.cells.length = 167 := by
  simp [controlStage, length_cells]

theorem length_minimum : (StackWord.extremum (StackWord.primitive .less)).code.length = 8 := rfl

theorem length_minimumStage : minimumStage.cells.length = 176 := by
  have hcode : (StackWord.code .minimum).length = 8 := length_minimum
  simp [minimumStage, Stage.defined, length_controlStage, hcode]

theorem length_maximum : (StackWord.extremum (StackWord.library .greater)).code.length = 8 := rfl

theorem known_minimum :
    (StackWord.extremum (StackWord.primitive .less)).Known (controlStage.begun "min").dictionary := by
  refine ⟨by decide, fun w _ => ?_⟩
  cases w <;> exact ⟨rfl, rfl⟩

theorem known_maximum :
    (StackWord.extremum (StackWord.library .greater)).Known (minimumStage.begun "max").dictionary := by
  refine ⟨by decide, fun w _ => ?_⟩
  cases w <;> exact ⟨rfl, rfl⟩

theorem reads_minimum {capacity : Nat} (hroom : 176 ≤ capacity)
    (hcapacity : capacity < Cell.addressLimit) :
    Reads (":" :: ("min" :: (StackWord.extremum (StackWord.primitive .less)).tokens ++ [";"]))
      (controlStage.machine capacity) (minimumStage.machine capacity) :=
  hasControl_controlStage.reads_definition (by decide) known_minimum
    (by simpa [length_minimum, length_controlStage] using hroom) hcapacity

theorem reads_maximum {capacity : Nat} (hroom : 185 ≤ capacity)
    (hcapacity : capacity < Cell.addressLimit) :
    Reads (":" :: ("max" :: (StackWord.extremum (StackWord.library .greater)).tokens ++ [";"]))
      (minimumStage.machine capacity) (booted capacity) := by
  have hbooted : booted capacity =
      (minimumStage.defined "max" (StackWord.code .maximum)).machine capacity := by
    rw [defined_minimumStage]
    rfl
  rw [hbooted]
  exact hasControl_minimumStage.reads_definition (by decide) known_maximum
    (by simpa [length_maximum, length_minimumStage] using hroom) hcapacity

end Library

theorem Heap.maxCapacity_lt : Heap.maxCapacity < Cell.addressLimit := by decide

/-- Reading the library makes a booted machine, if the capacity suffices. -/
theorem Machine.reaches_boot {capacity : Nat} (hroom : 185 ≤ capacity)
    (hcapacity : capacity ≤ Heap.maxCapacity) :
    ∃ fuel, boot fuel capacity = some (.ok () (booted capacity)) := by
  have haddress := Nat.lt_of_le_of_lt hcapacity Heap.maxCapacity_lt
  have hfirst := Library.scans_words.reads
    (Library.length_controlStage ▸ Nat.le_trans (by decide : 167 ≤ 185) hroom)
  have hmin := Library.reads_minimum (Nat.le_trans (by decide) hroom) haddress
  have hwords := hfirst.append (hmin.append (Library.reads_maximum hroom haddress))
  rw [← Library.scan_words.2, List.take_append_drop] at hwords
  obtain ⟨fuel, hfuel⟩ := hwords.evalSource_of_readAll (Source.ofChars Library.name Library.text) rfl
  exact ⟨fuel, boot_eq_some_iff.mpr ⟨hcapacity, hfuel⟩⟩

theorem Machine.boot_unique {capacity fuel fuel' : Nat} {m m' : Machine}
    (h : boot fuel capacity = some (.ok () m)) (h' : boot fuel' capacity = some (.ok () m')) : m = m' := by
  cases (evalSource_steady _).reaches_unique ⟨fuel, (boot_eq_some_iff.mp h).2⟩
    ⟨fuel', (boot_eq_some_iff.mp h').2⟩
  rfl

end Forth

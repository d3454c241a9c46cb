/-
Reading a text while a definition is open.  Words that are not immediate append their cells to the heap,
one after the other, until one of them is unknown or the heap is full; a literal may then have been cut
in half.
-/
import Mathlib.Data.List.TakeWhile
import Forth.Proofs.PureWords

namespace Forth

open Machine Run

namespace Heap

variable {heap heap' : Heap} {cells : List Cell}

/-- How many cells can still be appended. -/
def room (heap : Heap) : Nat :=
  heap.capacity - heap.here

theorem room_fill (heap : Heap) (cells : List Cell) :
    (heap.fill cells).room = heap.room - cells.length := by
  simp only [room, capacity_fill, here_fill, Nat.sub_add_eq]

/-- The cells have been put behind those that were filled, and nothing else in the heap has changed. -/
structure Appended (heap : Heap) (cells : List Cell) (heap' : Heap) : Prop where
  here_eq : heap'.here = heap.here + cells.length
  capacity_eq : heap'.capacity = heap.capacity
  holds : heap'.Holds heap.here cells
  elsewhere : ∀ a, a < heap.here ∨ heap.here + cells.length ≤ a → heap'.get? a = heap.get? a

theorem appended_fill (hroom : cells.length ≤ heap.room) : heap.Appended cells (heap.fill cells) where
  here_eq := here_fill heap cells
  capacity_eq := capacity_fill heap cells
  holds := by
    by_cases hfits : heap.here + cells.length ≤ heap.capacity
    · exact holds_fill hfits
    · have hnone : cells = [] := List.eq_nil_of_length_eq_zero (by simp only [room] at hroom; omega)
      simp [hnone, Holds]
  elsewhere a ha := by
    rcases ha with hbelow | habove
    · exact (extends_fill heap cells).get? a hbelow
    · exact get?_fill_of_le cells habove

/-- Cells that do not all fit fill the heap to its end. -/
theorem Appended.here_eq_capacity (h : heap.Appended (cells.take heap.room) heap')
    (hroom : heap.room < cells.length) (hhere : heap.here ≤ heap.capacity) :
    heap'.here = heap'.capacity := by
  rw [h.here_eq, h.capacity_eq, List.length_take_of_le (Nat.le_of_lt hroom), room]
  omega

end Heap

namespace Machine

variable {m m₁ m' : Machine} {word : String} {words words' : List String} {cells : List Cell} {e : Error}

/-! ### One word -/

theorem appendAll_of_fits (hroom : cells.length ≤ m.heap.room) :
    appendAll cells m = .ok () { m with heap := m.heap.fill cells } := by
  cases cells with
  | nil => rfl
  | cons c cells =>
      apply appendAll_of_room
      simp only [Heap.room, List.length_cons] at hroom ⊢
      omega

/-- Cells that do not all fit are appended as far as they do. -/
theorem appendAll_of_overflow (hroom : m.heap.room < cells.length) :
    appendAll cells m =
      .error .heapOverflow { m with heap := m.heap.fill (cells.take m.heap.room) } := by
  induction cells generalizing m with
  | nil => exact absurd hroom (Nat.not_lt_zero _)
  | cons c cells ih =>
      by_cases hfits : m.heap.here < m.heap.capacity
      · have hless : m.heap.room = (m.heap.push c).room + 1 := by
          simp only [Heap.room, Heap.capacity_push, Heap.here_push]
          omega
        have hrest : (m.heap.push c).room < cells.length := by
          rw [hless, List.length_cons] at hroom
          exact Nat.lt_of_succ_lt_succ hroom
        rw [hless, List.take_succ_cons]
        exact (Action.bind_of_ok (append_of_room hfits)).trans
          (ih (m := { m with heap := m.heap.push c }) hrest)
      · have hnone : m.heap.room = 0 := Nat.sub_eq_zero_of_le (Nat.le_of_not_lt hfits)
        rw [hnone]
        exact Action.bind_of_error (append_of_full (Nat.le_of_not_lt hfits))

theorem dispatch_of_unknown (fuel : Nat) (hcells : m.dictionary.compile? word = none)
    (hordinary : m.dictionary.isImmediate word = false) :
    dispatch fuel word m = some (.error (.undefinedWord word) m) := by
  unfold Dictionary.compile? at hcells
  cases hfind : m.dictionary.find? word with
  | some op => simp [hfind, hordinary] at hcells
  | none =>
      simp only [hfind, Option.map_eq_none_iff] at hcells
      exact dispatch_of_missing fuel hfind hcells

/-! ### A row of words -/

/-- Reading the words comes to an error, and leaves the given machine. -/
def StopsAt (words : List String) (m : Machine) (e : Error) (m' : Machine) : Prop :=
  ∀ (s : Source) rest, s.Offers (words ++ rest) → ∃ s',
    Reaches build { m with source := some s } (.error e { m' with source := some s' })

namespace StopsAt

theorem single (h : ∀ source, dispatch 0 word { m with source := source } =
    some (.error e { m' with source := source })) : StopsAt [word] m e m' := by
  intro s rest hs
  obtain ⟨token, s', hnext, rfl, _⟩ := hs
  exact ⟨s', 1, (Reads.build_succ 0 hnext).trans (Run.bind_of_error (h (some s')))⟩

theorem primitive {p : Primitive} (hmode : m.mode = .interpret)
    (hfind : m.dictionary.find? word = some (.primitive p))
    (hp : ∀ source, p.execute { m with source := source } = .error e { m' with source := source }) :
    StopsAt [word] m e m' :=
  .single fun source =>
    (dispatch_of_interpret (m := { m with source := source }) 0 hmode hfind).trans
      (congrArg some (hp source))

theorem append (h : StopsAt words m e m') (words' : List String) :
    StopsAt (words ++ words') m e m' := by
  intro s rest hs
  rw [List.append_assoc] at hs
  exact h s _ hs

theorem behind (hread : Reads words m m₁) (h : StopsAt words' m₁ e m') :
    StopsAt (words ++ words') m e m' := by
  intro s rest hs
  rw [List.append_assoc] at hs
  obtain ⟨s₁, hs₁, hfirst⟩ := hread s _ hs
  obtain ⟨s', hstop⟩ := h s₁ rest hs₁
  exact ⟨s', hfirst _ hstop⟩

/-- A failed evaluation is recorded. -/
theorem reaches_eval {text : String} (h : StopsAt (wordsOf text) m e m') : ∃ location,
    Reaches (fun fuel => eval fuel text) m
      (.error e { m' with lastError := some ⟨e, location⟩, source := m.source }) := by
  have hoffers : (Source.ofChars bufferName text.toList).Offers (wordsOf text ++ []) := by
    rw [List.append_nil]
    exact Source.offers_of_readAll rfl
  obtain ⟨s', hbuild⟩ := h _ [] hoffers
  exact ⟨s'.lastLocation, reaches_evalSource_iff.mpr ⟨_, hbuild, rfl⟩⟩

end StopsAt

end Machine

namespace Dictionary

variable {d : Dictionary} {word : String} {words rest : List String} {cells : List Cell}

/-- The longest row of words at the beginning that are in the dictionary or numbers. -/
def knownWords (d : Dictionary) (words : List String) : List String :=
  words.takeWhile fun word => (d.compile? word).isSome

/-- The cells to which words are compiled. -/
def codeOf (d : Dictionary) (words : List String) : List Cell :=
  words.flatMap fun word => (d.compile? word).getD []

theorem isSome_of_mem_knownWords (hword : word ∈ d.knownWords words) : (d.compile? word).isSome :=
  List.mem_takeWhile_imp (p := fun word => (d.compile? word).isSome) hword

/-- The word at which the known words end. -/
theorem compile?_of_knownWords (hsplit : words = d.knownWords words ++ word :: rest) :
    d.compile? word = none := by
  have happend : d.knownWords (d.knownWords words ++ word :: rest) =
      d.knownWords words ++ d.knownWords (word :: rest) :=
    List.takeWhile_append_of_pos fun _ hother => isSome_of_mem_knownWords hother
  rw [← hsplit] at happend
  have hnone : d.knownWords (word :: rest) = [] := List.self_eq_append_right.mp happend
  simpa [knownWords] using hnone

theorem codeOf_cons (words : List String) (hcells : d.compile? word = some cells) :
    d.codeOf (word :: words) = cells ++ d.codeOf words := by
  simp only [codeOf, List.flatMap_cons, hcells, Option.getD_some]

end Dictionary

namespace Machine

variable {m : Machine} {word : String} {words : List String} {cells : List Cell}

theorem reads_word_of_fits (hmode : m.mode = .compile) (hcells : m.dictionary.compile? word = some cells)
    (hroom : cells.length ≤ m.heap.room) : Reads [word] m { m with heap := m.heap.fill cells } := by
  apply Reads.word
  intro source
  have hdispatch := dispatch_of_compile? (m := { m with source := source }) 0 hmode hcells
  exact ⟨0, hdispatch.trans (congrArg some (appendAll_of_fits hroom))⟩

theorem stopsAt_word_of_overflow (hmode : m.mode = .compile)
    (hcells : m.dictionary.compile? word = some cells) (hroom : m.heap.room < cells.length) :
    StopsAt [word] m .heapOverflow { m with heap := m.heap.fill (cells.take m.heap.room) } := by
  apply StopsAt.single
  intro source
  have hdispatch := dispatch_of_compile? (m := { m with source := source }) 0 hmode hcells
  exact hdispatch.trans (congrArg some (appendAll_of_overflow hroom))

theorem stopsAt_unknown (hcells : m.dictionary.compile? word = none)
    (hordinary : m.dictionary.isImmediate word = false) :
    StopsAt [word] m (.undefinedWord word) m :=
  .single fun source => dispatch_of_unknown (m := { m with source := source }) 0 hcells hordinary

/-- Known words are compiled one after the other. -/
theorem reads_of_fits (hmode : m.mode = .compile)
    (hknown : ∀ word ∈ words, (m.dictionary.compile? word).isSome)
    (hroom : (m.dictionary.codeOf words).length ≤ m.heap.room) :
    Reads words m { m with heap := m.heap.fill (m.dictionary.codeOf words) } := by
  induction words generalizing m with
  | nil => exact .nil m
  | cons word words ih =>
      obtain ⟨hword, hrest⟩ := List.forall_mem_cons.mp hknown
      obtain ⟨cells, hcells⟩ := Option.isSome_iff_exists.mp hword
      rw [Dictionary.codeOf_cons words hcells] at hroom ⊢
      rw [List.length_append] at hroom
      have hfirst := reads_word_of_fits hmode hcells (by omega)
      have hsecond := ih (m := { m with heap := m.heap.fill cells }) hmode hrest
        (by rw [Heap.room_fill]; dsimp only; omega)
      rw [Heap.fill_append]
      exact hfirst.append hsecond

/-- Known words whose cells do not all fit are compiled until the heap is full. -/
theorem stopsAt_of_overflow (hmode : m.mode = .compile)
    (hknown : ∀ word ∈ words, (m.dictionary.compile? word).isSome)
    (hroom : m.heap.room < (m.dictionary.codeOf words).length) :
    StopsAt words m .heapOverflow
      { m with heap := m.heap.fill ((m.dictionary.codeOf words).take m.heap.room) } := by
  induction words generalizing m with
  | nil => exact absurd hroom (Nat.not_lt_zero _)
  | cons word words ih =>
      obtain ⟨hword, hrest⟩ := List.forall_mem_cons.mp hknown
      obtain ⟨cells, hcells⟩ := Option.isSome_iff_exists.mp hword
      rw [Dictionary.codeOf_cons words hcells] at hroom ⊢
      rw [List.length_append] at hroom
      by_cases hfits : cells.length ≤ m.heap.room
      · have hfirst := reads_word_of_fits hmode hcells hfits
        have hsecond := ih (m := { m with heap := m.heap.fill cells }) hmode hrest
          (by rw [Heap.room_fill]; dsimp only; omega)
        rw [Heap.room_fill] at hsecond
        rw [List.take_append, List.take_of_length_le hfits, Heap.fill_append]
        exact .behind hfirst hsecond
      · -- the word itself is cut
        have hcut := Nat.lt_of_not_le hfits
        rw [List.take_append_of_le_length (Nat.le_of_lt hcut)]
        exact (stopsAt_word_of_overflow hmode hcells hcut).append words

end Machine

/-- In a definition, words are compiled.  Words that are not immediate append their cells, as far as
they are known.  If these cells fit, the evaluation succeeds behind the last word, or fails at the first
unknown one; otherwise the heap is filled to its end.  The record of the failure apart, nothing but the
heap is changed. -/
theorem eval_compiles_words {m : Machine} {text : String} (hmode : m.mode = .compile)
    (hordinary : ∀ word ∈ wordsOf text, m.dictionary.isImmediate word = false) :
    let known := m.dictionary.knownWords (wordsOf text)
    let code := m.dictionary.codeOf known
    (code.length ≤ m.heap.room → ∃ heap, m.heap.Appended code heap ∧
      (known = wordsOf text → Reaches (fun fuel => eval fuel text) m (.ok () { m with heap := heap })) ∧
      (∀ word rest, wordsOf text = known ++ word :: rest → ∃ location,
        Reaches (fun fuel => eval fuel text) m (.error (.undefinedWord word)
          { m with heap := heap, lastError := some ⟨.undefinedWord word, location⟩ }))) ∧
    (m.heap.room < code.length → ∃ heap location, m.heap.Appended (code.take m.heap.room) heap ∧
      (m.heap.here ≤ m.heap.capacity → heap.here = heap.capacity) ∧
      Reaches (fun fuel => eval fuel text) m (.error .heapOverflow
        { m with heap := heap, lastError := some ⟨.heapOverflow, location⟩ })) := by
  intro known code
  have hknown : ∀ word ∈ known, (m.dictionary.compile? word).isSome :=
    fun _ hword => Dictionary.isSome_of_mem_knownWords hword
  constructor
  · intro hroom
    have hread : Reads known m { m with heap := m.heap.fill code } :=
      reads_of_fits hmode hknown hroom
    refine ⟨_, Heap.appended_fill hroom, fun hall => ?_, fun word rest hsplit => ?_⟩
    · rw [hall] at hread
      exact hread.evalSource_of_readAll _ rfl
    · have hword : word ∈ wordsOf text := by
        rw [hsplit]
        exact List.mem_append_right _ List.mem_cons_self
      have hstop := stopsAt_unknown (m := { m with heap := m.heap.fill code })
        (Dictionary.compile?_of_knownWords hsplit) (hordinary word hword)
      have hall := StopsAt.behind hread (hstop.append rest)
      rw [List.singleton_append, ← hsplit] at hall
      exact hall.reaches_eval
  · intro hroom
    have hfilled : m.heap.Appended (code.take m.heap.room) (m.heap.fill (code.take m.heap.room)) :=
      Heap.appended_fill (List.length_take_le _ _)
    obtain ⟨rest, hsplit⟩ : known <+: wordsOf text := List.takeWhile_prefix _
    have hstop := (stopsAt_of_overflow hmode hknown hroom).append rest
    rw [hsplit] at hstop
    obtain ⟨location, hreaches⟩ := hstop.reaches_eval
    exact ⟨_, location, hfilled, hfilled.here_eq_capacity hroom, hreaches⟩

/-- A definition is open, and there is room for two cells. -/
def Machine.narrow : Machine :=
  { Machine.new 2 with mode := .compile }

/-- A literal is cut in half by the end of the heap. -/
theorem eval_compiles_words_of_cut_literal :
    ∃ heap location, heap.get? 0 = some (.op (.primitive .dup)) ∧
      heap.get? 1 = some (.op (.primitive .lit)) ∧ heap.here = 2 ∧
      Reaches (fun fuel => eval fuel "dup 5 drop") narrow
        (.error .heapOverflow
          { narrow with heap := heap, lastError := some ⟨.heapOverflow, location⟩ }) := by
  have hwords : wordsOf "dup 5 drop" = ["dup", "5", "drop"] := by decide +kernel
  have hcode : narrow.dictionary.codeOf (narrow.dictionary.knownWords (wordsOf "dup 5 drop")) =
      [.op (.primitive .dup), .op (.primitive .lit), .int 5, .op (.primitive .drop)] := by
    rw [hwords]
    decide +kernel
  have hordinary : ∀ word ∈ wordsOf "dup 5 drop", narrow.dictionary.isImmediate word = false := by
    rw [hwords]
    decide
  obtain ⟨_, hoverflow⟩ := eval_compiles_words rfl hordinary
  rw [hcode] at hoverflow
  obtain ⟨heap, location, happended, hfull, hreaches⟩ := hoverflow (by decide)
  have hcells := Heap.holds_cons.mp happended.holds
  exact ⟨heap, location, hcells.1.2, (Heap.holds_cons.mp hcells.2).1.2,
    (hfull (by decide)).trans happended.capacity_eq, hreaches⟩

end Forth

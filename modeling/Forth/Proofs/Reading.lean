/-
Reading a text word by word.  What a row of words does to the machine is put together from what each
of them does; the source from which they are read, and what follows them there, does not matter.
-/
import Forth.Proofs.Answers
import Forth.Proofs.SourceText

namespace Forth

open Machine Run

/-- A text that is read as one token. -/
structure IsWord (text : String) : Prop where
  nonempty : text.toList ≠ []
  unbroken : ∀ c ∈ text.toList, isBlank c = false

theorem isWord_iff {text : String} :
    IsWord text ↔ text.toList.isEmpty = false ∧ text.toList.any isBlank = false := by
  rw [List.isEmpty_eq_false_iff, List.any_eq_false]
  constructor
  · rintro ⟨hnonempty, hunbroken⟩
    exact ⟨hnonempty, fun c hc => by simp [hunbroken c hc]⟩
  · rintro ⟨hnonempty, hunbroken⟩
    exact ⟨hnonempty, fun c hc => by simpa using hunbroken c hc⟩

instance (text : String) : Decidable (IsWord text) :=
  decidable_of_iff _ isWord_iff.symm

/-- The text of some words, each with a space before it. -/
def spaced (words : List String) : List Char :=
  words.flatMap fun word => ' ' :: word.toList

namespace Source

/-- The source has the given words still to be read, and nothing else. -/
def Offers (s : Source) : List String → Prop
  | [] => s.next.1 = none
  | word :: words => ∃ token s', s.next = (some token, s') ∧ token.text = word ∧ s'.Offers words

theorem takeWhile_spaced (words : List String) : (spaced words).takeWhile (fun c => !isBlank c) = [] := by
  cases words <;> rfl

theorem dropWhile_spaced (words : List String) :
    (spaced words).dropWhile (fun c => !isBlank c) = spaced words := by
  cases words <;> rfl

/-- A word in front of a spaced text is the next token, with or without a space before it. -/
theorem next_of_rest {s : Source} {word : String} {words : List String} (hword : IsWord word)
    (h : s.rest = word.toList ++ spaced words ∨ s.rest = spaced (word :: words)) :
    ∃ token s', s.next = (some token, s') ∧ token.text = word ∧ s'.rest = spaced words := by
  obtain ⟨c, cs, hchars⟩ := List.exists_cons_of_ne_nil hword.nonempty
  have hhead : isBlank c = false := hword.unbroken c (by simp [hchars])
  have hskip : s.skipBlanks.rest = word.toList ++ spaced words := by
    rcases h with h | h
    · simp [skipBlanks, h, hchars, hhead]
    · simp [skipBlanks, h, spaced, hchars, hhead, show isBlank ' ' = true from rfl]
  have hall : ∀ d ∈ word.toList, (!isBlank d) = true := by
    intro d hd
    simp [hword.unbroken d hd]
  have hnext : s.next = (some s.skipBlanks.front, s.skipBlanks.passed s.skipBlanks.front) := by
    simp [next, hskip, hchars]
  refine ⟨_, _, hnext, ?_, ?_⟩
  · simp [Token.text, front, hskip, List.takeWhile_append_of_pos hall, takeWhile_spaced]
  · simp [passed, front, hskip, List.dropWhile_append_of_pos hall, dropWhile_spaced]

theorem offers_spaced {words : List String} (hwords : ∀ word ∈ words, IsWord word) {s : Source}
    (h : s.rest = spaced words) : s.Offers words := by
  induction words generalizing s with
  | nil => exact next_of_rest_nil h
  | cons word words ih =>
      obtain ⟨hword, hrest⟩ := List.forall_mem_cons.mp hwords
      obtain ⟨token, s', hnext, htext, hs'⟩ := next_of_rest hword (Or.inr h)
      exact ⟨token, s', hnext, htext, ih hrest hs'⟩

/-- Words with spaces between them are read as they are written. -/
theorem offers_ofChars {name word : String} {words : List String} (hword : IsWord word)
    (hwords : ∀ word ∈ words, IsWord word) :
    (Source.ofChars name (word.toList ++ spaced words)).Offers (word :: words) := by
  obtain ⟨token, s', hnext, htext, hs'⟩ :=
    next_of_rest (s := Source.ofChars name (word.toList ++ spaced words)) hword (Or.inl rfl)
  exact ⟨token, s', hnext, htext, offers_spaced hwords hs'⟩

theorem offers_readUpTo {s : Source} {count : Nat} (h : s.rest.length < count) :
    s.Offers ((s.readUpTo count).1.map Token.text) := by
  induction count generalizing s with
  | zero => exact absurd h (Nat.not_lt_zero _)
  | succ count ih =>
      unfold readUpTo
      rcases hnext : s.next with ⟨_ | token, s'⟩
      · exact congrArg Prod.fst hnext
      · have hshorter := length_rest_lt_of_next hnext
        exact ⟨token, s', hnext, rfl, ih (by omega)⟩

/-- A source offers the words that it is read as. -/
theorem offers_of_readAll {s : Source} {words : List String} (h : s.readAll.1.map Token.text = words) :
    s.Offers words :=
  h ▸ offers_readUpTo (Nat.lt_succ_self _)

theorem Offers.unique {s : Source} {words words' : List String} (h : s.Offers words)
    (h' : s.Offers words') : words = words' := by
  induction words generalizing s words' with
  | nil =>
      cases words' with
      | nil => rfl
      | cons word' words' =>
          obtain ⟨token, s', hnext, _, _⟩ := h'
          rw [Offers, hnext] at h
          cases h
  | cons word words ih =>
      obtain ⟨token, s', hnext, rfl, hrest⟩ := h
      cases words' with
      | nil =>
          rw [Offers, hnext] at h'
          cases h'
      | cons word' words' =>
          obtain ⟨token', s'', hnext', rfl, hrest'⟩ := h'
          cases hnext.symm.trans hnext'
          rw [ih hrest hrest']

theorem Offers.words_eq {s : Source} {words : List String} (h : s.Offers words) :
    s.readAll.1.map Token.text = words :=
  (offers_of_readAll rfl).unique h

/-- Skipping past a word takes all words up to the first such one. -/
theorem Offers.skipPast {s : Source} {words rest : List String} {word : String}
    (hwords : ∀ w ∈ words, w ≠ word) (h : s.Offers (words ++ word :: rest)) :
    (s.skipPast word).Offers rest := by
  induction words generalizing s with
  | nil =>
      obtain ⟨t, s', hnext, htext, hs'⟩ := h
      rw [skipPast_of_next hnext, if_pos htext]
      exact hs'
  | cons w words ih =>
      obtain ⟨hw, hrest⟩ := List.forall_mem_cons.mp hwords
      obtain ⟨t, s', hnext, htext, hs'⟩ := h
      rw [skipPast_of_next hnext, if_neg (htext ▸ hw)]
      exact ih hrest hs'

end Source

namespace Machine

variable {m : Machine} {word : String} {op : Op}

theorem dispatch_of_interpret (fuel : Nat) (hmode : m.mode = .interpret)
    (hfind : m.dictionary.find? word = some op) : dispatch fuel word m = call fuel op m := by
  rw [dispatch_apply, hmode, hfind]

theorem dispatch_of_immediate (fuel : Nat) (hmode : m.mode = .compile)
    (hfind : m.dictionary.find? word = some op) (himmediate : m.dictionary.isImmediate word = true) :
    dispatch fuel word m = call fuel op m := by
  rw [dispatch_apply, hmode, hfind]
  simp only [himmediate, ↓reduceIte]

theorem dispatch_of_number (fuel : Nat) {n : Int64} (hmode : m.mode = .interpret)
    (hfind : m.dictionary.find? word = none) (hnumber : Numeral.int64? word = some n) :
    dispatch fuel word m = some (.ok () { m with data := m.data.push (.int n) }) := by
  have happly := dispatch_apply fuel word m
  rw [hmode, hfind] at happly
  simp only [number, hnumber] at happly
  exact happly

/-- A word that is neither in the dictionary nor a number is unknown in both modes. -/
theorem dispatch_of_missing (fuel : Nat) (hfind : m.dictionary.find? word = none)
    (hnumber : Numeral.int64? word = none) :
    dispatch fuel word m = some (.error (.undefinedWord word) m) := by
  rw [dispatch_apply, hfind]
  cases m.mode <;> simp only [number, hnumber] <;> rfl

/-- The comment word reads past the closing parenthesis. -/
theorem call_comment (fuel : Nat) (m : Machine) (s : Source) :
    call fuel (.primitive .comment) { m with source := some s } =
      some (.ok () { m with source := some (s.skipPast ")") }) :=
  rfl

theorem append_of_room {c : Cell} (hroom : m.heap.here < m.heap.capacity) :
    append c m = .ok () { m with heap := m.heap.push c } := by
  simp only [append, hroom, ↓reduceIte]

theorem append_of_full {c : Cell} (hfull : m.heap.capacity ≤ m.heap.here) :
    append c m = .error .heapOverflow m := by
  simp only [append, Nat.not_lt_of_le hfull, ↓reduceIte]

end Machine

/-- The end of an evaluation: a failure is recorded, and the former source is put back. -/
def Outcome.closed (previous : Option Source) : Outcome Unit → Outcome Unit
  | .ok _ m => .ok () { m with source := previous }
  | .error e m => .error e
      { m with
        lastError := some ⟨e, m.source.bind Source.lastLocation⟩
        source := previous }

namespace Machine

theorem evalSource_eq (fuel : Nat) (source : Source) (m : Machine) :
    evalSource fuel source m =
      (build fuel { m with source := some source }).map (Outcome.closed m.source) := by
  unfold evalSource
  rcases build fuel { m with source := some source } with _ | ⟨_, _⟩ | ⟨_, _⟩ <;> rfl

/-- Evaluating a source is reading it to its end. -/
theorem reaches_evalSource_iff {m : Machine} {source : Source} {r : Outcome Unit} :
    Reaches (fun fuel => evalSource fuel source) m r ↔
      ∃ r₀, Reaches build { m with source := some source } r₀ ∧ r₀.closed m.source = r := by
  constructor
  · rintro ⟨fuel, hfuel⟩
    have hbuild := (evalSource_eq fuel source m).symm.trans hfuel
    obtain ⟨r₀, hr₀, hclosed⟩ := Option.map_eq_some_iff.mp hbuild
    exact ⟨r₀, ⟨fuel, hr₀⟩, hclosed⟩
  · rintro ⟨r₀, ⟨fuel, hfuel⟩, hclosed⟩
    refine ⟨fuel, (evalSource_eq fuel source m).trans ?_⟩
    rw [hfuel, Option.map_some, hclosed]

end Machine

/-- The machine after the definition of a name was begun. -/
def Machine.begun (m : Machine) (name : String) : Machine :=
  { m with
    dictionary := m.dictionary.define name (.body m.heap.here)
    lastWord := some name
    mode := .compile }

/-- Reading the words takes one machine to the other: whatever is read behind them on the second machine
has the same answer behind them on the first. -/
def Reads (words : List String) (m m' : Machine) : Prop :=
  ∀ (s : Source) rest, s.Offers (words ++ rest) → ∃ s' : Source, s'.Offers rest ∧
    ∀ r, Reaches build { m' with source := some s' } r → Reaches build { m with source := some s } r

namespace Reads

variable {m m' m₁ m₂ m₃ : Machine}

theorem nil (m : Machine) : Reads [] m m :=
  fun s _ hs => ⟨s, hs, fun _ h => h⟩

theorem append {xs ys : List String} (hxs : Reads xs m₁ m₂) (hys : Reads ys m₂ m₃) :
    Reads (xs ++ ys) m₁ m₃ := by
  intro s rest hs
  rw [List.append_assoc] at hs
  obtain ⟨s₁, hs₁, hfirst⟩ := hxs s _ hs
  obtain ⟨s₂, hs₂, hsecond⟩ := hys s₁ rest hs₁
  exact ⟨s₂, hs₂, fun r h => hfirst r (hsecond r h)⟩

theorem build_succ (fuel : Nat) {s s' : Source} {token : Token} (hnext : s.next = (some token, s')) :
    build (fuel + 1) { m with source := some s } =
      (dispatch fuel token.text >>= fun _ => build fuel) { m with source := some s' } := by
  have hlift : (liftM nextToken : Run (Option Token)) { m with source := some s } =
      some (.ok (some token) { m with source := some s' }) := by
    rw [Run.lift_apply]
    simp only [nextToken, hnext]
  exact Run.bind_of_ok hlift

theorem build_of_next_eq_none (fuel : Nat) {s : Source} (h : s.next.1 = none) :
    build (fuel + 1) { m with source := some s } = some (.ok () { m with source := some s.next.2 }) := by
  have hlift : (liftM nextToken : Run (Option Token)) { m with source := some s } =
      some (.ok none { m with source := some s.next.2 }) := by
    rw [Run.lift_apply]
    simp only [nextToken, h]
  exact Run.bind_of_ok hlift

theorem dispatch_steady (word : String) : Steady fun fuel => dispatch fuel word :=
  fun _ _ h => dispatch_below h word

theorem build_steady : Steady build :=
  fun _ _ h => build_below h

/-- One word, which does not read on itself. -/
theorem word {text : String}
    (h : ∀ source, Reaches (fun fuel => dispatch fuel text) { m with source := source }
      (.ok () { m' with source := source })) : Reads [text] m m' := by
  rintro s rest ⟨token, s', hnext, htext, hs'⟩
  refine ⟨s', hs', fun r hr => ?_⟩
  apply Reaches.of_succ
  obtain ⟨fuel, hfuel⟩ := Reaches.bind_ok (f := fun fuel _ => build fuel) (dispatch_steady text)
    build_steady (h (some s')) hr
  exact ⟨fuel, (build_succ fuel hnext).trans (htext ▸ hfuel)⟩

theorem dispatch_colon (fuel : Nat) {word : String} {s s' : Source} {token : Token}
    (hmode : m.mode = .interpret) (hcolon : m.dictionary.find? word = some (.primitive .colon))
    (hnext : s.next = (some token, s')) :
    dispatch fuel word { m with source := some s } =
      some (.ok () { m.begun token.text with source := some s' }) := by
  have hname : nextName { m with source := some s } = .ok token.text { m with source := some s' } := by
    simp only [nextName, bind, EStateM.bind, nextToken, hnext]
    rfl
  have hcall : call fuel (.primitive .colon) { m with source := some s } =
      some (.ok () { m.begun token.text with source := some s' }) :=
    congrArg some (Action.bind_of_ok hname)
  exact (dispatch_of_interpret (m := { m with source := some s }) fuel hmode hcolon).trans hcall

/-- A colon reads the name that it defines. -/
theorem colon {word : String} (name : String) (hmode : m.mode = .interpret)
    (hcolon : m.dictionary.find? word = some (.primitive .colon)) :
    Reads [word, name] m (m.begun name) := by
  rintro s rest ⟨token, s₁, hnext, htext, token', s', hnext', rfl, hs'⟩
  refine ⟨s', hs', fun r hr => ?_⟩
  obtain ⟨fuel, hfuel⟩ := hr
  have hdispatch := dispatch_colon fuel hmode (htext ▸ hcolon) hnext'
  exact ⟨fuel + 1, (build_succ fuel hnext).trans ((Run.bind_of_ok hdispatch).trans hfuel)⟩

/-- A comment reads the words up to its end, and does nothing else. -/
theorem comment {word : String} {content : List String} (hmode : m.mode = .interpret)
    (hfind : m.dictionary.find? word = some (.primitive .comment))
    (hcontent : ∀ w ∈ content, w ≠ ")") : Reads (word :: (content ++ [")"])) m m := by
  rintro s rest ⟨token, s', hnext, rfl, hs'⟩
  have hinside : s'.Offers (content ++ ")" :: rest) := by simpa using hs'
  refine ⟨_, hinside.skipPast hcontent, fun r hr => ?_⟩
  obtain ⟨fuel, hfuel⟩ := hr
  have hdispatch := (dispatch_of_interpret (m := { m with source := some s' }) fuel hmode hfind).trans
    (call_comment fuel m s')
  exact ⟨fuel + 1, (build_succ fuel hnext).trans ((Run.bind_of_ok hdispatch).trans hfuel)⟩

theorem number {word : String} {n : Int64} (hmode : m.mode = .interpret)
    (hfind : m.dictionary.find? word = none) (hnumber : Numeral.int64? word = some n) :
    Reads [word] m { m with data := m.data.push (.int n) } :=
  .word fun source =>
    ⟨0, dispatch_of_number (m := { m with source := source }) 0 hmode hfind hnumber⟩

/-- A primitive is executed under any name that it goes by. -/
theorem primitive {word : String} {p : Primitive} (hmode : m.mode = .interpret)
    (hfind : m.dictionary.find? word = some (.primitive p))
    (hp : ∀ source, p.execute { m with source := source } = .ok () { m' with source := source }) :
    Reads [word] m m' :=
  .word fun source =>
    ⟨0, (dispatch_of_interpret (m := { m with source := source }) 0 hmode hfind).trans
      (congrArg some (hp source))⟩

/-- The latest word becomes immediate. -/
theorem immediate {word name : String} (hmode : m.mode = .interpret)
    (hfind : m.dictionary.find? word = some (.primitive .immediate)) (hlast : m.lastWord = some name) :
    Reads [word] m { m with dictionary := m.dictionary.markImmediate name } := by
  apply Reads.primitive hmode hfind
  intro source
  change markLastWord { m with source := source } = _
  simp only [markLastWord, hlast]
  rfl

/-- Reading all words of a source is evaluating it. -/
theorem evalSource {words : List String} (h : Reads words m m') (source : Source)
    (hsource : source.Offers words) :
    Reaches (fun fuel => evalSource fuel source) m (.ok () { m' with source := m.source }) := by
  obtain ⟨s', hs', hbuild⟩ := h source [] (by simpa using hsource)
  have hend := hbuild _ ⟨1, build_of_next_eq_none 0 hs'⟩
  exact reaches_evalSource_iff.mpr ⟨_, hend, rfl⟩

theorem evalSource_of_readAll {words : List String} (h : Reads words m m') (source : Source)
    (hwords : source.readAll.1.map Token.text = words) :
    Reaches (fun fuel => Machine.evalSource fuel source) m (.ok () { m' with source := m.source }) :=
  h.evalSource source (Source.offers_of_readAll hwords)

end Reads

end Forth

/-
Comments are transparent.  Where the comment word has its meaning, a comment between two texts is read
past without an effect, in both modes and whatever words it holds; only the place of a failure behind it
can move.
-/
import Forth.Proofs.Dialogue
import Forth.Proofs.Numerals

namespace Forth

open Machine Run

/-! ### Outcomes up to the place of a failure -/

/-- The place with its token and file only. -/
def Location.unplaced (l : Location) : Location :=
  { l with line := 0, column := 0, wholeLine := "" }

/-- The outcome without line and column of the failure, and without the text of its line. -/
def Outcome.unplaced : Outcome Unit → Outcome Unit
  | .ok _ m => .ok () m
  | .error e m => .error e
      { m with
        lastError := m.lastError.map fun failure =>
          { failure with location := failure.location.map Location.unplaced } }

theorem Outcome.unplaced_lowered (lines : Nat) (r : Outcome Unit) :
    (r.lowered lines).unplaced = r.unplaced := by
  cases r with
  | ok _ m => rfl
  | error e m =>
      simp only [lowered, unplaced, Option.map_map, Function.comp_def]
      rfl

/-- Failures at tokens of one position are the same up to their places, if the words are the same. -/
theorem Outcome.Relocated.unplaced_eq {source source' : Source} {r r' : Outcome Unit}
    (h : Relocated source source' r r')
    (hwords : source.readAll.1.map Token.text = source'.readAll.1.map Token.text)
    (hname : source.name = source'.name) : r'.unplaced = r.unplaced := by
  cases h with
  | ok m => rfl
  | @error k t t' e m ht ht' =>
      have htext := congrArg (·[k]?) hwords
      simp only [List.getElem?_map, ht, ht', Option.map_some, Option.some.injEq] at htext
      have hlocation : (t'.location source'.name).unplaced = (t.location source.name).unplaced := by
        simp only [Token.location, Location.unplaced, htext, hname]
      simp only [unplaced, Option.map_some, hlocation]

/-- Evaluating the source comes to the outcome, up to the place of a failure. -/
def Machine.EndsAs (m : Machine) (source : Source) (o : Outcome Unit) : Prop :=
  ∃ r, Reaches (fun fuel => evalSource fuel source) m r ∧ r.unplaced = o

/-! ### A comment in front -/

namespace Source

theorem name_skipPast (s : Source) (word : String) : (s.skipPast word).name = s.name :=
  skipPast_induction (motive := fun s' => s'.name = s.name) (fun s' h => s'.name_next.trans h) rfl

end Source

/-- The comment word has its meaning, also while a definition is read. -/
structure Dictionary.ReadsComments (d : Dictionary) : Prop where
  find? : d.find? "(" = some (.primitive .comment)
  isImmediate : d.isImmediate "(" = true

namespace Machine

variable {m m₁ : Machine} {source source' : Source} {o : Outcome Unit}

theorem EndsAs.of_words (h : m.EndsAs source o)
    (hwords : source.readAll.1.map Token.text = source'.readAll.1.map Token.text)
    (hname : source.name = source'.name) : m.EndsAs source' o := by
  obtain ⟨r, ⟨fuel, hr⟩, rfl⟩ := h
  obtain ⟨r', hr', hsame⟩ := evalSource_relocated hwords hr
  exact ⟨r', ⟨fuel, hr'⟩, hsame.unplaced_eq hwords hname⟩

theorem endsAs_iff_of_words
    (hwords : source.readAll.1.map Token.text = source'.readAll.1.map Token.text)
    (hname : source.name = source'.name) : m.EndsAs source o ↔ m.EndsAs source' o :=
  ⟨fun h => h.of_words hwords hname, fun h => h.of_words hwords.symm hname.symm⟩

/-- In both modes the comment word is executed, and reads past the closing parenthesis. -/
theorem dispatch_comment (fuel : Nat) (hd : m.dictionary.ReadsComments) (s : Source) :
    dispatch fuel "(" { m with source := some s } =
      some (.ok () { m with source := some (s.skipPast ")") }) := by
  rw [← call_comment fuel]
  have hmode : m.mode = .interpret ∨ m.mode = .compile := by
    cases m.mode <;> simp
  rcases hmode with hmode | hmode
  · exact dispatch_of_interpret (m := { m with source := some s }) fuel hmode hd.find?
  · exact dispatch_of_immediate (m := { m with source := some s }) fuel hmode hd.find? hd.isImmediate

/-- A source that begins with a comment is evaluated as what stands behind the comment. -/
theorem endsAs_behind_comment {words rest : List String} (hd : m.dictionary.ReadsComments)
    (hwords : ∀ word ∈ words, word ≠ ")")
    (hsource : source.readAll.1.map Token.text = "(" :: (words ++ ")" :: rest))
    (hsource' : source'.readAll.1.map Token.text = rest) (hname : source.name = source'.name) :
    m.EndsAs source o ↔ m.EndsAs source' o := by
  obtain ⟨token, s, hnext, htext, hs⟩ := Source.offers_of_readAll hsource
  have hbehind : (s.skipPast ")").readAll.1.map Token.text = rest := (hs.skipPast hwords).words_eq
  have hname' : (s.skipPast ")").name = source.name := by
    rw [Source.name_skipPast]
    simpa only [hnext] using source.name_next
  have hword : Reaches (fun fuel => dispatch fuel token.text) { m with source := some s }
      (.ok () { m with source := some (s.skipPast ")") }) := by
    rw [htext]
    exact ⟨0, dispatch_comment 0 hd s⟩
  have hskip : m.EndsAs source o ↔ m.EndsAs (s.skipPast ")") o := by
    simp only [EndsAs, reaches_evalSource_iff, reaches_build_of_dispatch hnext hword]
  exact hskip.trans (endsAs_iff_of_words (hbehind.trans hsource'.symm) (hname'.trans hname))

/-- Where the first text reads within itself and succeeds, the text on the next line is evaluated as it
is on the machine that the first one leaves. -/
theorem endsAs_behind_line {line rest : List Char} {name : String}
    (hwithin : m.ReadsWithin (Source.ofChars name line))
    (hline : Reaches (fun fuel => evalSource fuel (Source.ofChars name line)) m (.ok () m₁)) :
    m.EndsAs (Source.ofChars name (line ++ '\n' :: rest)) o ↔ m₁.EndsAs (Source.ofChars name rest) o := by
  obtain ⟨r₀, ⟨fuel, hfuel⟩, hclosed⟩ := reaches_evalSource_iff.mp hline
  rcases build_extended rest hwithin hfuel with
    ⟨m₂, s, rfl, hend, hname, _, hiff⟩ | ⟨e, m₂, s, rfl, _⟩
  · cases hclosed
    have hcut : ∀ r, Reaches (fun fuel => evalSource fuel (Source.ofChars name (line ++ '\n' :: rest))) m r ↔
        Reaches (fun fuel => evalSource fuel (s.extended ('\n' :: rest))) { m₂ with source := m.source } r := by
      intro r
      rw [reaches_evalSource_iff, reaches_evalSource_iff]
      exact exists_congr fun r₁ => and_congr_left fun _ => hiff r₁
    simp only [EndsAs, hcut, reaches_evalSource_cut hend, hname]
    constructor
    · rintro ⟨_, ⟨r₁, hr₁, rfl⟩, hr⟩
      exact ⟨r₁, hr₁, (Outcome.unplaced_lowered _ r₁).symm.trans hr⟩
    · rintro ⟨r₁, hr₁, hr⟩
      exact ⟨_, ⟨r₁, hr₁, rfl⟩, (Outcome.unplaced_lowered _ r₁).trans hr⟩
  · cases hclosed

/-- What follows a text, with spaces between, may as well stand on the next line: the words are the same. -/
theorem endsAs_behind_text {a text : String} {texts : List String} (hself : m.SelfContained a)
    (ha : Reaches (fun fuel => eval fuel a) m (.ok () m₁))
    (htext : wordsOf text = texts.flatMap wordsOf) :
    m.EndsAs (Source.ofChars bufferName (" ".intercalate (a :: texts)).toList) o ↔
      m₁.EndsAs (Source.ofChars bufferName text.toList) o := by
  have hwords : wordsOf (" ".intercalate (a :: texts)) =
      (Source.ofChars bufferName (a.toList ++ '\n' :: text.toList)).readAll.1.map Token.text := by
    rw [Source.words_append bufferName rfl, wordsOf, Source.words_intercalate]
    exact congrArg (wordsOf a ++ ·) htext.symm
  have hline : m.EndsAs (Source.ofChars bufferName (a.toList ++ '\n' :: text.toList)) o ↔
      m₁.EndsAs (Source.ofChars bufferName text.toList) o :=
    endsAs_behind_line hself ha
  exact (endsAs_iff_of_words hwords rfl).trans hline

end Machine

/-- Comments are transparent in both modes.  Let a text succeed without reading on behind its end, and
let the comment word have its meaning where it has ended.  Then a comment of any words other than the
closing parenthesis may stand between this text and another one: with it and without it, evaluation comes
to the same outcomes, but for line, column and line text in the place of a failure. -/
theorem comment_transparent {m m₁ : Machine} {a : String} (hself : m.SelfContained a)
    (ha : Reaches (fun fuel => eval fuel a) m (.ok () m₁)) (hd : m₁.dictionary.ReadsComments)
    {words : List String} (hwords : ∀ word ∈ words, IsWord word ∧ word ≠ ")") (b : String)
    (o : Outcome Unit) :
    (∃ r, Reaches (fun fuel => eval fuel (" ".intercalate ([a, "("] ++ words ++ [")", b]))) m r ∧
        r.unplaced = o) ↔
      ∃ r, Reaches (fun fuel => eval fuel (" ".intercalate [a, b])) m r ∧ r.unplaced = o := by
  let behind := " ".intercalate ("(" :: (words ++ [")", b]))
  have hparens : IsWord "(" ∧ IsWord ")" := by decide
  have hinside : words.flatMap wordsOf = words :=
    flatMap_wordsOf fun word hword => (hwords word hword).1
  have hall : wordsOf behind = ("(" :: (words ++ [")", b])).flatMap wordsOf :=
    Source.words_intercalate bufferName _
  have hbehind : wordsOf behind = "(" :: (words ++ ")" :: wordsOf b) := by
    simp [hall, hinside, hparens.1.wordsOf, hparens.2.wordsOf]
  have hcomment : m₁.EndsAs (Source.ofChars bufferName behind.toList) o ↔
      m₁.EndsAs (Source.ofChars bufferName b.toList) o :=
    endsAs_behind_comment hd (fun word hword => (hwords word hword).2) hbehind rfl rfl
  have hwith : m.EndsAs (Source.ofChars bufferName (" ".intercalate
      ([a, "("] ++ words ++ [")", b])).toList) o ↔
      m₁.EndsAs (Source.ofChars bufferName behind.toList) o := endsAs_behind_text hself ha hall
  have hwithout : m.EndsAs (Source.ofChars bufferName (" ".intercalate [a, b]).toList) o ↔
      m₁.EndsAs (Source.ofChars bufferName b.toList) o := endsAs_behind_text hself ha (by simp)
  exact hwith.trans (hcomment.trans hwithout.symm)

/-- A comment that stands between a compiled `[']` and its operand, and holds the words of a definition.
The failure behind it is on the same line, but further on. -/
theorem comment_transparent_of_open_definition :
    (Machine.new 8).SelfContained ": f [']" ∧
      ∃ m₁ m₂ m₂', Reaches (fun fuel => eval fuel ": f [']") (Machine.new 8) (.ok () m₁) ∧
        m₁.mode = .compile ∧ m₁.dictionary.ReadsComments ∧
        Reaches (fun fuel => eval fuel ": f ['] dup ; x") (Machine.new 8) (.error (.undefinedWord "x") m₂) ∧
        Reaches (fun fuel => eval fuel ": f ['] ( : undefined ( ; ) dup ; x") (Machine.new 8)
          (.error (.undefinedWord "x") m₂') ∧
        (m₂.lastError.bind Failure.location).map Location.column = some 14 ∧
        (m₂'.lastError.bind Failure.location).map Location.column = some 34 ∧
        Outcome.unplaced (.error (.undefinedWord "x") m₂') =
          Outcome.unplaced (.error (.undefinedWord "x") m₂) := by
  have hself : (Machine.new 8).SelfContained ": f [']" :=
    .colon rfl rfl rfl rfl
      (.word (some .tick) rfl rfl (by rintro _ ⟨⟩ s hs; exact hs) ⟨0, rfl⟩ rfl (.of_next_eq_none rfl))
  have hfirst : (eval 20 ": f [']").passes (Machine.new 8) (fun m₁ =>
      decide (m₁.mode = .compile ∧ m₁.dictionary.find? "(" = some (.primitive .comment) ∧
        m₁.dictionary.isImmediate "(" = true)) = true := by
    decide +kernel
  obtain ⟨_, m₁, hfirst, htest⟩ := of_passes hfirst
  obtain ⟨hmode, hfind, himmediate⟩ := of_decide_eq_true htest
  have hplain : (eval 20 ": f ['] dup ; x").fails (Machine.new 8) (fun e m₂ =>
      decide (e = .undefinedWord "x" ∧
        (m₂.lastError.bind Failure.location).map Location.column = some 14)) = true := by
    decide +kernel
  obtain ⟨_, m₂, hplain, htest⟩ := of_fails hplain
  obtain ⟨rfl, hcolumn⟩ := of_decide_eq_true htest
  have hcommented : (eval 20 ": f ['] ( : undefined ( ; ) dup ; x").fails (Machine.new 8) (fun _ m₂' =>
      decide ((m₂'.lastError.bind Failure.location).map Location.column = some 34)) = true := by
    decide +kernel
  obtain ⟨e, m₂', hcommented, htest⟩ := of_fails hcommented
  have hcolumn' := of_decide_eq_true htest
  have hcomment : ∀ word ∈ [":", "undefined", "(", ";"], IsWord word ∧ word ≠ ")" := by decide +kernel
  obtain ⟨r, hr, hsame⟩ := (comment_transparent hself ⟨20, hfirst⟩ ⟨hfind, himmediate⟩ hcomment "dup ; x"
    _).mpr ⟨_, ⟨20, hplain⟩, rfl⟩
  obtain rfl := (eval_steady _).reaches_unique hr ⟨20, hcommented⟩
  obtain ⟨rfl, _⟩ := EStateM.Result.error.inj hsame
  exact ⟨hself, m₁, m₂, m₂', ⟨20, hfirst⟩, hmode, ⟨hfind, himmediate⟩, ⟨20, hplain⟩, ⟨20, hcommented⟩,
    hcolumn, hcolumn', hsame⟩

end Forth

/-
Evaluation sees nothing of a source but its words.  Two sources with the same words are evaluated alike,
whatever blanks stand between the words and whatever the sources are called; only where a failure is
located is told differently, and both places are those of the token at one position.
-/
import Forth.Proofs.Concatenation

namespace Forth

open Machine Run

/-! ### Positions among the tokens of a source -/

namespace Source

variable {s s' : Source} {t : Token} {tokens tokens' : List Token} {k : Nat} {word : String}

theorem skipPast_of_next_eq_none (h : s.next = (none, s')) : s.skipPast word = s' := by
  rw [skipPast, skipUpTo, h]

/-- The token at a position was read last, and those behind it are still to be read. -/
structure ReadTo (tokens : List Token) (k : Nat) (s : Source) : Prop where
  last : ∃ t, tokens[k]? = some t ∧ s.last = some t
  rest : s.readAll.1 = tokens.drop (k + 1)

/-- Behind its first token a source has been read to the first position. -/
theorem readTo_zero (h : s.next = (some t, s')) : s'.ReadTo s.readAll.1 0 := by
  rw [readAll_of_next h]
  exact ⟨⟨t, rfl, last_of_next_eq_some h⟩, rfl⟩

namespace ReadTo

theorem next_fst (h : s.ReadTo tokens k) : s.next.1 = tokens[k + 1]? := by
  rw [← List.head?_drop, ← h.rest]
  rcases hnext : s.next with ⟨_ | t, s'⟩
  · rw [readAll_of_next_eq_none (by rw [hnext])]
    rfl
  · rw [readAll_of_next hnext]
    rfl

theorem of_next_eq_none (h : s.ReadTo tokens k) (hnext : s.next = (none, s')) : s'.ReadTo tokens k where
  last := by
    rw [last_of_next_eq_none hnext]
    exact h.last
  rest := by
    have hempty : s.readAll.1 = [] := readAll_of_next_eq_none (by rw [hnext])
    rw [readAll_of_next_eq_none (next_eq_none_of_next hnext), ← h.rest, hempty]

theorem of_next_eq_some (h : s.ReadTo tokens k) (hnext : s.next = (some t, s')) :
    s'.ReadTo tokens (k + 1) where
  last := by
    have hfst := h.next_fst
    rw [hnext] at hfst
    exact ⟨t, hfst.symm, last_of_next_eq_some hnext⟩
  rest := by
    have hrest := h.rest
    rw [readAll_of_next hnext] at hrest
    rw [← List.tail_drop, ← hrest, List.tail_cons]

end ReadTo

/-- Both sources have been read to one position, each of its own tokens. -/
def SamePosition (tokens tokens' : List Token) (s s' : Source) : Prop :=
  ∃ k, s.ReadTo tokens k ∧ s'.ReadTo tokens' k

namespace SamePosition

/-- Where the words are the same, both sources have the same word next, or both none. -/
theorem next_cases (hwords : tokens.map Token.text = tokens'.map Token.text)
    (h : SamePosition tokens tokens' s s') :
    (∃ s₁ s₁', s.next = (none, s₁) ∧ s'.next = (none, s₁') ∧ SamePosition tokens tokens' s₁ s₁') ∨
      ∃ t t' s₁ s₁', s.next = (some t, s₁) ∧ s'.next = (some t', s₁') ∧ t'.text = t.text ∧
        SamePosition tokens tokens' s₁ s₁' := by
  obtain ⟨k, hs, hs'⟩ := h
  have htext : s'.next.1.map Token.text = s.next.1.map Token.text := by
    rw [hs.next_fst, hs'.next_fst, ← List.getElem?_map, ← List.getElem?_map, hwords]
  rcases hnext : s.next with ⟨_ | t, s₁⟩
  · rcases hnext' : s'.next with ⟨_ | t', s₁'⟩
    · exact Or.inl ⟨s₁, s₁', rfl, rfl, k, hs.of_next_eq_none hnext, hs'.of_next_eq_none hnext'⟩
    · simp [hnext, hnext'] at htext
  · rcases hnext' : s'.next with ⟨_ | t', s₁'⟩
    · simp [hnext, hnext'] at htext
    · have hsame : t'.text = t.text := by simpa [hnext, hnext'] using htext
      exact Or.inr ⟨t, t', s₁, s₁', rfl, rfl, hsame, k + 1, hs.of_next_eq_some hnext,
        hs'.of_next_eq_some hnext'⟩

/-- Skipping comes to the same word in both sources, by induction on the tokens of the first one. -/
theorem skipPast (hwords : tokens.map Token.text = tokens'.map Token.text)
    (h : SamePosition tokens tokens' s s') :
    SamePosition tokens tokens' (s.skipPast word) (s'.skipPast word) := by
  generalize hrest : s.readAll.1 = rest
  induction rest generalizing s s' with
  | nil =>
      rcases h.next_cases hwords with ⟨s₁, s₁', hnext, hnext', hend⟩ | ⟨t, _, s₁, _, hnext, _⟩
      · rw [skipPast_of_next_eq_none hnext, skipPast_of_next_eq_none hnext']
        exact hend
      · rw [readAll_of_next hnext] at hrest
        cases hrest
  | cons t₁ rest ih =>
      rcases h.next_cases hwords with ⟨s₁, _, hnext, _⟩ | ⟨t, t', s₁, s₁', hnext, hnext', htext, hbehind⟩
      · rw [readAll_of_next_eq_none (by rw [hnext])] at hrest
        cases hrest
      · rw [readAll_of_next hnext] at hrest
        rw [skipPast_of_next hnext, skipPast_of_next hnext', htext]
        by_cases hword : t.text = word
        · rw [if_pos hword, if_pos hword]
          exact hbehind
        · rw [if_neg hword, if_neg hword]
          exact ih hbehind (List.cons.inj hrest).2

end SamePosition

/-- Two sources with the same words begin with the same word, or have none. -/
theorem first_cases (hwords : s.readAll.1.map Token.text = s'.readAll.1.map Token.text) :
    (s.next.1 = none ∧ s'.next.1 = none) ∨
      ∃ t t' s₁ s₁', s.next = (some t, s₁) ∧ s'.next = (some t', s₁') ∧ t'.text = t.text ∧
        SamePosition s.readAll.1 s'.readAll.1 s₁ s₁' := by
  rcases hnext : s.next with ⟨_ | t, s₁⟩
  · have hempty : s.readAll.1 = [] := readAll_of_next_eq_none (by rw [hnext])
    rcases hnext' : s'.next with ⟨_ | t', s₁'⟩
    · exact Or.inl ⟨rfl, rfl⟩
    · rw [hempty, readAll_of_next hnext'] at hwords
      cases hwords
  · rcases hnext' : s'.next with ⟨_ | t', s₁'⟩
    · have hempty : s'.readAll.1 = [] := readAll_of_next_eq_none (by rw [hnext'])
      rw [hempty, readAll_of_next hnext] at hwords
      cases hwords
    · rw [readAll_of_next hnext, readAll_of_next hnext'] at hwords
      have hsame : t'.text = t.text := (List.cons.inj hwords).1.symm
      exact Or.inr ⟨t, t', s₁, s₁', rfl, rfl, hsame, 0, readTo_zero hnext, readTo_zero hnext'⟩

end Source

/-! ### Machines that read the same words -/

namespace Pairing

/-- A machine beside one that reads the same words from another source.  The names of the sources stay
what they are. -/
def rewording (name name' : String) (tokens tokens' : List Token) : Pairing :=
  onSources (fun s s' => s.name = name ∧ s'.name = name' ∧ s.SamePosition tokens tokens' s')
    fun _ _ => True

theorem onText_rewording (name name' : String) {tokens tokens' : List Token}
    (hwords : tokens.map Token.text = tokens'.map Token.text) :
    OnText (rewording name name' tokens tokens') where
  toOnWords := by
    refine (onStreams_onSources ?_ ?_).onWords
    · rintro s s' ⟨hname, hname', hsame⟩ _
      have hnames := And.intro (s.name_next.trans hname) (s'.name_next.trans hname')
      rcases hsame.next_cases hwords with
        ⟨s₁, s₁', hnext, hnext', hend⟩ | ⟨t, t', s₁, s₁', hnext, hnext', htext, hbehind⟩
      · rw [hnext, hnext'] at hnames ⊢
        exact ⟨rfl, hnames.1, hnames.2, hend⟩
      · rw [hnext, hnext'] at hnames ⊢
        exact ⟨congrArg some htext, hnames.1, hnames.2, hbehind⟩
    · rintro s s' ⟨hname, hname', hsame⟩ _
      refine ⟨?_, ?_, hsame.skipPast hwords⟩
      · exact Source.skipPast_induction (motive := fun s => s.name = name)
          (fun s h => s.name_next.trans h) hname
      · exact Source.skipPast_induction (motive := fun s => s.name = name')
          (fun s h => s.name_next.trans h) hname'
  allows_all _ _ _ _ := trivial

end Pairing

/-- Two outcomes that are the same but for where a failure is located: at a token of the one source, and
at the token of the same position in the other. -/
inductive Outcome.Relocated (source source' : Source) : Outcome Unit → Outcome Unit → Prop where
  | ok (m : Machine) : Relocated source source' (.ok () m) (.ok () m)
  | error {k : Nat} {t t' : Token} (e : Error) (m : Machine) :
      source.readAll.1[k]? = some t → source'.readAll.1[k]? = some t' →
        Relocated source source'
          (.error e { m with lastError := some ⟨e, some (t.location source.name)⟩ })
          (.error e { m with lastError := some ⟨e, some (t'.location source'.name)⟩ })

theorem Outcome.Relocated.symm {source source' : Source} {r r' : Outcome Unit}
    (h : Relocated source source' r r') : Relocated source' source r' r := by
  cases h with
  | ok m => exact .ok m
  | error e m ht ht' => exact .error e m ht' ht

namespace Machine

variable {source source' : Source} {m : Machine} {fuel : Nat}

/-- What has been read alike ends alike. -/
theorem relocated_of_answers {o : Option (Outcome Unit)} {r : Outcome Unit} {previous : Option Source}
    (h : (Pairing.rewording source.name source'.name source.readAll.1 source'.readAll.1).Answers
      (some r) o) :
    ∃ r', o.map (Outcome.closed previous) = some r' ∧
      Outcome.Relocated source source' (r.closed previous) r' := by
  cases r with
  | ok _ m₁ =>
      obtain ⟨_, rfl, s, s', _, _, rfl⟩ := h
      exact ⟨_, rfl, .ok _⟩
  | error e m₁ =>
      rcases h with hexcused | ⟨_, rfl, s, s', hs, ⟨hname, hname', k, hread, hread'⟩, rfl⟩
      · exact hexcused.elim
      · obtain ⟨t, ht, hlast⟩ := hread.last
        obtain ⟨t', ht', hlast'⟩ := hread'.last
        refine ⟨_, rfl, ?_⟩
        simp only [Outcome.closed, hs, Option.bind_some, Source.lastLocation, hlast, hlast', hname, hname',
          Option.map_some]
        exact .error e { m₁ with source := previous } ht ht'

/-- Two sources with the same words, of which there is one at least, are read alike. -/
theorem answers_build_of_words
    (hwords : source.readAll.1.map Token.text = source'.readAll.1.map Token.text)
    (hfirst : source.next.1 ≠ none) :
    (Pairing.rewording source.name source'.name source.readAll.1 source'.readAll.1).Answers
      (build fuel { m with source := some source }) (build fuel { m with source := some source' }) := by
  cases fuel with
  | zero => rfl
  | succ fuel =>
      -- before the first token no position has been read, so the first word is taken apart here
      rcases Source.first_cases hwords with ⟨hend, _⟩ | ⟨t, t', s, s', hnext, hnext', htext, hsame⟩
      · exact absurd hend hfirst
      · have hname : s.name = source.name := by simpa only [hnext] using source.name_next
        have hname' : s'.name = source'.name := by simpa only [hnext'] using source'.name_next
        have hP := Pairing.onText_rewording source.name source'.name hwords
        rw [Reads.build_succ fuel hnext, Reads.build_succ fuel hnext', htext]
        refine Pairing.answers_bind ?_ fun _ m₁ m₁' _ h₁ => hP.answers_build fuel h₁
        exact hP.answers_dispatch fuel t.text ⟨s, s', rfl, ⟨hname, hname', hsame⟩, rfl⟩ fun p m₁ _ =>
          hP.allows_all p m₁

/-- Two sources with the same words, evaluated on one machine in the same number of steps. -/
theorem evalSource_relocated
    (hwords : source.readAll.1.map Token.text = source'.readAll.1.map Token.text) {r : Outcome Unit}
    (hr : evalSource fuel source m = some r) :
    ∃ r', evalSource fuel source' m = some r' ∧ Outcome.Relocated source source' r r' := by
  rw [evalSource_eq] at hr ⊢
  obtain ⟨r₀, hr₀, rfl⟩ := Option.map_eq_some_iff.mp hr
  by_cases hfirst : source.next.1 = none
  · have hfirst' : source'.next.1 = none := by
      rcases Source.first_cases hwords with ⟨_, hend'⟩ | ⟨t, t', s, s', hnext, _⟩
      · exact hend'
      · simp [hnext] at hfirst
    cases fuel with
    | zero => cases hr₀
    | succ fuel =>
        rw [Reads.build_of_next_eq_none fuel hfirst] at hr₀
        rw [Reads.build_of_next_eq_none fuel hfirst']
        cases hr₀
        exact ⟨_, rfl, .ok _⟩
  · exact relocated_of_answers (hr₀ ▸ answers_build_of_words hwords hfirst)

end Machine

/-- Evaluation depends on its source through the words alone.  Two sources with the same words, whatever
blanks stand between them and whatever the sources are called, are evaluated to the same end on every
machine; a failure is located at the tokens of one position in the two. -/
theorem evalSource_of_same_words {name name' : String} {text text' : List Char}
    (hwords : (Source.ofChars name text).readAll.1.map Token.text =
      (Source.ofChars name' text').readAll.1.map Token.text) (m : Machine) :
    (∀ r, Reaches (fun fuel => evalSource fuel (Source.ofChars name text)) m r →
      ∃ r', Reaches (fun fuel => evalSource fuel (Source.ofChars name' text')) m r' ∧
        Outcome.Relocated (Source.ofChars name text) (Source.ofChars name' text') r r') ∧
    ∀ r', Reaches (fun fuel => evalSource fuel (Source.ofChars name' text')) m r' →
      ∃ r, Reaches (fun fuel => evalSource fuel (Source.ofChars name text)) m r ∧
        Outcome.Relocated (Source.ofChars name text) (Source.ofChars name' text') r r' := by
  constructor
  · rintro r ⟨fuel, hr⟩
    obtain ⟨r', hr', hsame⟩ := evalSource_relocated hwords hr
    exact ⟨r', ⟨fuel, hr'⟩, hsame⟩
  · rintro r' ⟨fuel, hr'⟩
    obtain ⟨r, hr, hsame⟩ := evalSource_relocated hwords.symm hr'
    exact ⟨r, ⟨fuel, hr⟩, hsame.symm⟩

/-- A definition and its use, on one line. -/
def Source.onOneLine : Source :=
  .ofChars bufferName ": half 0 / ; ( by ( nothing ) 4 half".toList

/-- The same words on three lines of a file. -/
def Source.onThreeLines : Source :=
  .ofChars "half.fs" ": half\n\t0 / ;\r\n ( by ( nothing )\x0c4  half".toList

/-- Both stop at the same word, which is on the first line of the one source and on the third one of the
other. -/
theorem evalSource_of_same_words_on_lines :
    Source.onOneLine.readAll.1.map Token.text = Source.onThreeLines.readAll.1.map Token.text ∧
      ∃ m m', Reaches (fun fuel => evalSource fuel .onOneLine) (Machine.new 8) (.error .divisionByZero m) ∧
        Reaches (fun fuel => evalSource fuel .onThreeLines) (Machine.new 8) (.error .divisionByZero m') ∧
        Outcome.Relocated .onOneLine .onThreeLines (.error .divisionByZero m) (.error .divisionByZero m') ∧
        (m.lastError.bind Failure.location).map Location.line = some 0 ∧
        (m'.lastError.bind Failure.location).map Location.line = some 2 := by
  have hwords : Source.onOneLine.readAll.1.map Token.text =
      Source.onThreeLines.readAll.1.map Token.text := by
    decide +kernel
  have hrun : (evalSource 20 .onOneLine).fails (Machine.new 8) (fun e m =>
      (evalSource 20 .onThreeLines).fails (Machine.new 8) fun e' m' =>
        decide (e = .divisionByZero ∧ e' = .divisionByZero ∧
          (m.lastError.bind Failure.location).map Location.line = some 0 ∧
          (m'.lastError.bind Failure.location).map Location.line = some 2)) = true := by
    decide +kernel
  obtain ⟨e, m, hm, htest⟩ := of_fails hrun
  obtain ⟨e', m', hm', htest⟩ := of_fails htest
  obtain ⟨rfl, rfl, hline, hline'⟩ := of_decide_eq_true htest
  obtain ⟨r', hr', hsame⟩ := (evalSource_of_same_words hwords (Machine.new 8)).1 _ ⟨20, hm⟩
  cases (evalSource_steady .onThreeLines).reaches_unique hr' ⟨20, hm'⟩
  exact ⟨hwords, m, m', ⟨20, hm⟩, ⟨20, hm'⟩, hsame, hline, hline'⟩

end Forth

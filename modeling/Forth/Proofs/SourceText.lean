/-
A source as a part of a longer text.  Text put behind what is to be read changes none of the tokens
that are read before it; text put in front of what was read changes only where the tokens stand.  The
line of a token, which is found by going through all that stands before it, begins behind the last line
end there.
-/
import Forth.Source

namespace Forth

section

variable {α : Type} {p : α → Bool} {l r : List α} {c : α}

theorem takeWhile_append_cons (hc : p c = false) : (l ++ c :: r).takeWhile p = l.takeWhile p := by
  induction l with
  | nil => simp [hc]
  | cons d l ih => cases hd : p d <;> simp [hd, ih]

theorem dropWhile_append_cons (hc : p c = false) :
    (l ++ c :: r).dropWhile p = l.dropWhile p ++ c :: r := by
  induction l with
  | nil => simp [hc]
  | cons d l ih => cases hd : p d <;> simp [hd, ih]

/-- Taking stops inside the first list, if there is something that it does not take. -/
theorem takeWhile_append_of_dropWhile (h : l.dropWhile p ≠ []) :
    (l ++ r).takeWhile p = l.takeWhile p := by
  induction l with
  | nil => exact absurd rfl h
  | cons d l ih =>
      cases hd : p d with
      | false =>
          have hstop : ¬ p d = true := by simp [hd]
          rw [List.cons_append, List.takeWhile_cons_of_neg hstop, List.takeWhile_cons_of_neg hstop]
      | true =>
          rw [List.dropWhile_cons_of_pos hd] at h
          rw [List.cons_append, List.takeWhile_cons_of_pos hd, List.takeWhile_cons_of_pos hd, ih h]

theorem dropWhile_append_of_dropWhile (h : l.dropWhile p ≠ []) :
    (l ++ r).dropWhile p = l.dropWhile p ++ r := by
  rw [List.dropWhile_append, if_neg (mt List.isEmpty_iff.mp h)]

theorem takeWhile_eq_of_dropWhile_eq_nil (h : l.dropWhile p = []) : l.takeWhile p = l := by
  have hsplit := List.takeWhile_append_dropWhile (p := p) (l := l)
  rw [h, List.append_nil] at hsplit
  exact hsplit

end

/-! ### Bytes and lines -/

theorem byteLength_append (cs ds : List Char) : byteLength (cs ++ ds) = byteLength cs + byteLength ds := by
  induction cs with
  | nil => simp
  | cons c cs ih => simp [ih, Nat.add_assoc]

theorem byteLength_reverse (cs : List Char) : byteLength cs.reverse = byteLength cs := by
  induction cs with
  | nil => rfl
  | cons c cs ih => simp [byteLength_append, ih, Nat.add_comm]

theorem dropBytes_cons (c : Char) (cs : List Char) (count : Nat) :
    dropBytes (c.utf8Size + count) (c :: cs) = dropBytes count cs := by
  obtain ⟨n, hn⟩ := Nat.exists_eq_succ_of_ne_zero (Nat.ne_of_gt c.utf8Size_pos)
  have hrest : n + count + 1 - c.utf8Size = count := by omega
  rw [hn, Nat.succ_add, dropBytes, hrest]

theorem dropBytes_append (l r : List Char) : dropBytes (byteLength l) (l ++ r) = r := by
  induction l with
  | nil => simp [dropBytes]
  | cons c l ih => rw [byteLength_cons, List.cons_append, dropBytes_cons, ih]

theorem scanLines_append (found : LineStart) (offset : Nat) (l r : List Char) :
    scanLines found offset (l ++ r) = scanLines (scanLines found offset l) (offset + byteLength l) r := by
  induction l generalizing found offset with
  | nil => rfl
  | cons c l ih =>
      simp only [List.cons_append, scanLines, ih]
      rw [Nat.add_assoc]
      rfl

namespace Token

/-- The lines before that of the token. -/
def above (t : Token) : List Char :=
  (t.before.dropWhile (· != '\n')).reverse

/-- The scan comes to the line of the token: every line end before it was counted, and the line starts
behind the last one. -/
theorem lineStart_eq (t : Token) : t.lineStart = ⟨t.before.count '\n', byteLength t.above⟩ := by
  suffices hscan : ∀ before : List Char, scanLines ⟨0, 0⟩ 0 before.reverse =
      ⟨before.count '\n', byteLength (before.dropWhile (· != '\n'))⟩ by
    rw [lineStart, hscan, above, byteLength_reverse]
  intro before
  -- the last character of the text is the first one of `before`
  induction before with
  | nil => rfl
  | cons c before ih =>
      rw [List.reverse_cons, scanLines_append, ih]
      by_cases hc : c = '\n'
      · subst hc
        simp [scanLines, byteLength_reverse, Nat.add_comm, show Char.utf8Size '\n' = 1 from rfl]
      · simp [scanLines, hc]

theorem line_eq (t : Token) : t.line = t.before.count '\n' := by
  rw [line, lineStart_eq]

/-- What stands before the token, cut behind the last line end in it. -/
theorem above_append (t : Token) :
    t.above ++ (t.before.takeWhile (· != '\n')).reverse = t.before.reverse := by
  rw [above, ← List.reverse_append, List.takeWhile_append_dropWhile]

theorem margin_eq (t : Token) : t.margin = (t.before.takeWhile (· != '\n')).reverse := by
  rw [margin, lineStart_eq, ← above_append, dropBytes_append]

theorem above_append_margin (t : Token) : t.above ++ t.margin = t.before.reverse := by
  rw [margin_eq, above_append]

end Token

/-! ### The tokens of a source, one by one -/

namespace Source

variable {s s' : Source} {t : Token} {word : String}

theorem next_of_blank (h : s.skipBlanks.rest = []) : s.next = (none, s.skipBlanks) := by
  simp [next, h]

theorem next_of_word (h : s.skipBlanks.rest ≠ []) :
    s.next = (some s.skipBlanks.front, s.skipBlanks.passed s.skipBlanks.front) := by
  simp [next, h]

theorem skipBlanks_of_next_eq_none (h : s.next.1 = none) : s.skipBlanks.rest = [] := by
  apply Decidable.byContradiction
  intro hrest
  rw [next_of_word hrest] at h
  cases h

theorem skipBlanks_of_next_eq_some (h : s.next = (some t, s')) : s.skipBlanks.rest ≠ [] := by
  intro hrest
  rw [next_of_blank hrest] at h
  cases h

theorem name_next (s : Source) : s.next.2.name = s.name := by
  by_cases hrest : s.skipBlanks.rest = []
  · rw [next_of_blank hrest]
    rfl
  · rw [next_of_word hrest]
    rfl

theorem last_of_next_eq_some (h : s.next = (some t, s')) : s'.last = some t := by
  rw [next_of_word (skipBlanks_of_next_eq_some h)] at h
  cases h
  rfl

theorem last_of_next_eq_none (h : s.next = (none, s')) : s'.last = s.last := by
  have hblank : s.skipBlanks.rest = [] := skipBlanks_of_next_eq_none (by rw [h])
  rw [next_of_blank hblank] at h
  cases h
  rfl

theorem readAll_of_next_eq_none (h : s.next.1 = none) : s.readAll.1 = [] := by
  rw [readAll, readUpTo, next_of_blank (skipBlanks_of_next_eq_none h)]

theorem readAll_of_next (h : s.next = (some t, s')) : s.readAll.1 = t :: s'.readAll.1 := by
  rw [readAll, readUpTo, h]
  simp only [readUpTo_eq_readAll (length_rest_lt_of_next h)]

theorem skipPast_of_next (h : s.next = (some t, s')) :
    s.skipPast word = if t.text = word then s' else s'.skipPast word := by
  rw [skipPast, skipUpTo, h]
  simp only [skipUpTo_eq_skipPast (length_rest_lt_of_next h)]

/-- What reading a token preserves is preserved by skipping tokens. -/
theorem skipPast_induction {motive : Source → Prop} (hnext : ∀ s, motive s → motive s.next.2)
    (hs : motive s) : motive (s.skipPast word) := by
  generalize hcount : s.rest.length + 1 = count
  rw [skipPast, hcount]
  clear hcount
  induction count generalizing s with
  | zero => exact hs
  | succ count ih =>
      have hread := hnext s hs
      unfold skipUpTo
      revert hread
      rcases s.next with ⟨_ | token, s'⟩ <;> intro hread
      · exact hread
      · dsimp only
        split
        · exact hread
        · exact ih hread

end Source

/-! ### More text behind -/

/-- The token with more text behind it. -/
def Token.extended (tail : List Char) (t : Token) : Token :=
  { t with after := t.after ++ tail }

/-- The source with more text to be read at its end. -/
def Source.extended (tail : List Char) (s : Source) : Source :=
  { s with rest := s.rest ++ tail, last := s.last.map (Token.extended tail) }

namespace Source

variable {s s' : Source} {t : Token} {word : String} {c : Char} {cs : List Char}

/-- Behind a blank, more text does not change the token read next. -/
theorem next_extended (hc : isBlank c = true) (h : s.next = (some t, s')) :
    (s.extended (c :: cs)).next = (some (t.extended (c :: cs)), s'.extended (c :: cs)) := by
  have hrest : s.rest.dropWhile isBlank ≠ [] := skipBlanks_of_next_eq_some h
  have hbefore : (s.extended (c :: cs)).skipBlanks.before = s.skipBlanks.before := by
    simp only [skipBlanks, extended, takeWhile_append_of_dropWhile hrest]
  have hbehind : (s.extended (c :: cs)).skipBlanks.rest = s.skipBlanks.rest ++ c :: cs := by
    simp only [skipBlanks, extended, dropWhile_append_of_dropWhile hrest]
  have hfront : (s.extended (c :: cs)).skipBlanks.front = s.skipBlanks.front.extended (c :: cs) := by
    simp only [front, Token.extended, hbefore, hbehind]
    rw [takeWhile_append_cons (p := fun c => !isBlank c) (by simp [hc]),
      dropWhile_append_cons (p := fun c => !isBlank c) (by simp [hc])]
  rw [next_of_word hrest] at h
  cases h
  rw [next_of_word (by simp [hbehind]), hfront]
  rfl

/-- Skipping past a word that is there does not come to the text behind. -/
theorem skipPast_extended (hc : isBlank c = true) (h : ∃ t ∈ s.readAll.1, t.text = word) :
    (s.extended (c :: cs)).skipPast word = (s.skipPast word).extended (c :: cs) := by
  generalize htokens : s.readAll.1 = tokens at h
  induction tokens generalizing s with
  | nil =>
      obtain ⟨_, hmem, _⟩ := h
      cases hmem
  | cons t₁ tokens ih =>
      rcases hnext : s.next with ⟨_ | t, s'⟩
      · rw [readAll_of_next_eq_none (by rw [hnext])] at htokens
        cases htokens
      · rw [readAll_of_next hnext] at htokens
        obtain ⟨rfl, hrest⟩ := List.cons.inj htokens
        rw [skipPast_of_next hnext, skipPast_of_next (next_extended hc hnext)]
        change (if t.text = word then _ else _) = _
        by_cases htext : t.text = word
        · rw [if_pos htext, if_pos htext]
        · rw [if_neg htext, if_neg htext]
          apply ih hrest
          obtain ⟨t', hmem, ht'⟩ := h
          rcases List.mem_cons.mp hmem with rfl | hmem
          · exact absurd ht' htext
          · exact ⟨t', hmem, ht'⟩

end Source

/-- Text behind the end of a line is not seen from a token before it. -/
theorem Token.location_extended (file : String) (t : Token) (tail : List Char) :
    (t.extended ('\n' :: tail)).location file = t.location file := by
  have hline : (t.extended ('\n' :: tail)).wholeLine = t.wholeLine := by
    change t.margin ++ (t.chars ++ (t.after ++ '\n' :: tail)).takeWhile _ = _
    rw [← List.append_assoc, takeWhile_append_cons rfl]
    rfl
  simp only [location, hline]
  rfl

theorem Source.lastLocation_extended (s : Source) (tail : List Char) :
    (s.extended ('\n' :: tail)).lastLocation = s.lastLocation := by
  cases h : s.last with
  | none => simp only [lastLocation, extended, h, Option.map_none]
  | some t => simp only [lastLocation, extended, h, Option.map_some, Token.location_extended]

/-! ### More text in front -/

/-- The token with more text before it.  That text is given last character first. -/
def Token.shifted (front : List Char) (t : Token) : Token :=
  { t with before := t.before ++ front }

/-- The source with more text that was read at its beginning. -/
def Source.shifted (front : List Char) (s : Source) : Source :=
  { s with before := s.before ++ front, last := s.last.map (Token.shifted front) }

/-- The place so many lines further down. -/
def Location.lowered (lines : Nat) (l : Location) : Location :=
  { l with line := l.line + lines }

namespace Source

variable {word : String}

theorem skipBlanks_shifted (s : Source) (front : List Char) :
    (s.shifted front).skipBlanks = s.skipBlanks.shifted front := by
  simp only [skipBlanks, shifted, List.append_assoc]

theorem next_shifted (s : Source) (front : List Char) :
    (s.shifted front).next = (s.next.1.map (Token.shifted front), s.next.2.shifted front) := by
  by_cases hrest : s.skipBlanks.rest = []
  · have hrest' : (s.shifted front).skipBlanks.rest = [] := hrest
    rw [next_of_blank hrest, next_of_blank hrest', skipBlanks_shifted]
    rfl
  · have hrest' : (s.shifted front).skipBlanks.rest ≠ [] := hrest
    rw [next_of_word hrest, next_of_word hrest', skipBlanks_shifted]
    simp only [passed, Source.front, shifted, Token.shifted, Option.map_some, List.append_assoc]

theorem skipPast_shifted (s : Source) (front : List Char) :
    (s.shifted front).skipPast word = (s.skipPast word).shifted front := by
  have hskip : ∀ count (s : Source),
      (s.shifted front).skipUpTo word count = (s.skipUpTo word count).shifted front := by
    intro count
    induction count with
    | zero => exact fun _ => rfl
    | succ count ih =>
        intro s
        unfold skipUpTo
        rw [next_shifted]
        rcases s.next with ⟨_ | t, s'⟩
        · rfl
        · dsimp only [Option.map_some]
          change (if t.text = word then _ else _) = _
          by_cases htext : t.text = word
          · rw [if_pos htext, if_pos htext]
          · rw [if_neg htext, if_neg htext, ih]
  exact hskip _ s

end Source

/-- Behind whole lines a token stands so many lines lower, and at the same place of its line. -/
theorem Token.location_shifted (file : String) (t : Token) (front : List Char) :
    (t.shifted ('\n' :: front)).location file =
      (t.location file).lowered (1 + front.count '\n') := by
  have hmargin : (t.shifted ('\n' :: front)).margin = t.margin := by
    rw [margin_eq, margin_eq]
    exact congrArg List.reverse (takeWhile_append_cons rfl)
  have hline : (t.shifted ('\n' :: front)).line = t.line + (1 + front.count '\n') := by
    simp only [line_eq, shifted, List.count_append, List.count_cons_self]
    omega
  simp only [location, Location.lowered, column, wholeLine, hmargin, hline]
  rfl

theorem Source.lastLocation_shifted (s : Source) (front : List Char) :
    (s.shifted ('\n' :: front)).lastLocation =
      s.lastLocation.map (Location.lowered (1 + front.count '\n')) := by
  cases h : s.last with
  | none => simp only [lastLocation, shifted, h, Option.map_none]
  | some t => simp only [lastLocation, shifted, h, Option.map_some, Token.location_shifted]

/-! ### The cut between two texts -/

namespace Source

variable {s : Source} {b : List Char}

/-- Where a text has been read to its end, the token read next is the first one of the text behind the
end of the line. -/
theorem next_cut (hend : s.next.1 = none) :
    (s.extended ('\n' :: b)).next.1 =
        (ofChars s.name b).next.1.map (Token.shifted ('\n' :: s.text.reverse)) ∧
      ((ofChars s.name b).next.1 ≠ none →
        (s.extended ('\n' :: b)).next.2 =
          (ofChars s.name b).next.2.shifted ('\n' :: s.text.reverse)) := by
  have hblank : s.rest.dropWhile isBlank = [] := skipBlanks_of_next_eq_none hend
  have hrest : (s.extended ('\n' :: b)).skipBlanks.rest = (ofChars s.name b).skipBlanks.rest := by
    simp [skipBlanks, extended, ofChars, List.dropWhile_append, hblank, show isBlank '\n' = true from rfl]
  have hbefore : (s.extended ('\n' :: b)).skipBlanks.before =
      (ofChars s.name b).skipBlanks.before ++ '\n' :: s.text.reverse := by
    have htaken : (s.rest ++ '\n' :: b).takeWhile isBlank = s.rest ++ '\n' :: b.takeWhile isBlank := by
      rw [List.takeWhile_append, if_pos (by rw [takeWhile_eq_of_dropWhile_eq_nil hblank])]
      rfl
    simp [skipBlanks, extended, ofChars, text, htaken]
  have hfront : (s.extended ('\n' :: b)).skipBlanks.front =
      (ofChars s.name b).skipBlanks.front.shifted ('\n' :: s.text.reverse) := by
    simp only [front, Token.shifted, hrest, hbefore]
  by_cases hword : (ofChars s.name b).skipBlanks.rest = []
  · rw [next_of_blank hword, next_of_blank (hrest.trans hword)]
    exact ⟨rfl, fun hsome => absurd rfl hsome⟩
  · rw [next_of_word hword, next_of_word (hrest ▸ hword), hfront]
    refine ⟨rfl, fun _ => ?_⟩
    simp only [passed, shifted, Token.shifted, Option.map_some, List.append_assoc]
    rfl

end Source

end Forth

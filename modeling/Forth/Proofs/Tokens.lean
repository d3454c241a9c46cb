/-
The tokens of a text are its longest rows of characters other than blanks: all of them, each once, and
in order.  In UTF-8 a token takes the bytes from its start to its stop; between two tokens, before the
first and behind the last one there is nothing but blanks.
-/
import Mathlib.Data.List.TakeWhile
import Forth.Proofs.SourceText

namespace Forth

/-! ### Bytes -/

theorem byteLength_pos {cs : List Char} (h : cs ≠ []) : 0 < byteLength cs := by
  obtain ⟨c, cs, rfl⟩ := List.exists_cons_of_ne_nil h
  rw [byteLength_cons]
  exact Nat.add_pos_left c.utf8Size_pos _

/-- The length in bytes is that of the text as it is encoded. -/
theorem byteLength_eq_utf8ByteSize (cs : List Char) : byteLength cs = (String.ofList cs).utf8ByteSize := by
  induction cs with
  | nil => rfl
  | cons c cs ih =>
      have hsplit : String.ofList (c :: cs) = String.singleton c ++ String.ofList cs := by
        rw [String.singleton_eq_ofList, ← String.ofList_append, List.singleton_append]
      rw [hsplit, String.utf8ByteSize_append, String.utf8ByteSize_singleton, ← ih, byteLength_cons]

/-! ### Longest rows -/

namespace Token

/-- The text in which the token stands. -/
def context (t : Token) : List Char :=
  t.before.reverse ++ (t.chars ++ t.after)

/-- The token is a row of characters other than blanks, and cannot be made longer on either side. -/
structure IsRun (t : Token) : Prop where
  nonempty : t.chars ≠ []
  unbroken : ∀ c ∈ t.chars, isBlank c = false
  starts : ∀ c ∈ t.before.head?, isBlank c = true
  ends : ∀ c ∈ t.after.head?, isBlank c = true

namespace IsRun

variable {t t' : Token} {gap : List Char}

theorem exists_head (h : t.IsRun) : ∃ c cs, t.chars = c :: cs ∧ isBlank c = false := by
  obtain ⟨c, cs, hchars⟩ := List.exists_cons_of_ne_nil h.nonempty
  exact ⟨c, cs, hchars, h.unbroken c (by simp [hchars])⟩

/-- The token is what is taken before the next blank. -/
theorem takeWhile_eq (h : t.IsRun) : (t.chars ++ t.after).takeWhile (fun c => !isBlank c) = t.chars := by
  have hall : ∀ c ∈ t.chars, (!isBlank c) = true := by
    intro c hc
    simp [h.unbroken c hc]
  rw [List.takeWhile_append_of_pos hall]
  cases hafter : t.after with
  | nil => simp
  | cons c cs =>
      have hblank : isBlank c = true := h.ends c (by simp [hafter])
      simp [hblank]

theorem ext_of_append_eq (h : t.IsRun) (h' : t'.IsRun) (hbefore : t'.before = t.before)
    (hrest : t.chars ++ t.after = t'.chars ++ t'.after) : t' = t := by
  have hchars : t'.chars = t.chars := by
    rw [← h.takeWhile_eq, ← h'.takeWhile_eq, hrest]
  have hafter : t'.after = t.after := by
    rw [hchars] at hrest
    exact (List.append_cancel_left hrest).symm
  obtain ⟨before, chars, after⟩ := t
  obtain ⟨before', chars', after'⟩ := t'
  simp only at hbefore hchars hafter
  rw [hbefore, hchars, hafter]

/-- A longest row that begins no earlier than another is the same, or lies behind it: it cannot begin
inside, because what stands before it is a blank. -/
theorem eq_or_behind (h : t.IsRun) (h' : t'.IsRun) (hbefore : t'.before = gap.reverse ++ t.before)
    (hrest : t.chars ++ t.after = gap ++ (t'.chars ++ t'.after)) :
    t' = t ∨ ∃ gap', gap = t.chars ++ gap' ∧ t.after = gap' ++ (t'.chars ++ t'.after) := by
  rcases List.eq_nil_or_concat gap with rfl | ⟨init, c, rfl⟩
  · exact Or.inl (h.ext_of_append_eq h' (by simpa using hbefore) (by simpa using hrest))
  · rcases List.append_eq_append_iff.mp hrest with ⟨gap', hgap, hafter⟩ | ⟨inside, hchars, _⟩
    · exact Or.inr ⟨gap', hgap, hafter⟩
    · have hblank : isBlank c = true := h'.starts c (by simp [hbefore])
      have hword : isBlank c = false := h.unbroken c (by simp [hchars])
      rw [hblank] at hword
      cases hword

end IsRun

/-- The token stands in what is left of the source. -/
def LiesAhead (t : Token) (s : Source) : Prop :=
  ∃ gap, s.rest = gap ++ (t.chars ++ t.after) ∧ t.before = gap.reverse ++ s.before

end Token

namespace Source

variable {s s' : Source} {t t₁ : Token}

/-- Reading does not stand inside a token. -/
def AtBorder (s : Source) : Prop :=
  (∀ c ∈ s.before.head?, isBlank c = true) ∨ ∀ c ∈ s.rest.head?, isBlank c = true

theorem atBorder_ofChars (name : String) (text : List Char) : (ofChars name text).AtBorder := by
  left
  intro c hc
  cases hc

/-- What is left of a source when a token is read. -/
structure Yields (s : Source) (t : Token) (s' : Source) : Prop where
  rest_eq : s.rest = s.rest.takeWhile isBlank ++ (t.chars ++ t.after)
  before_eq : t.before = (s.rest.takeWhile isBlank).reverse ++ s.before
  before_behind : s'.before = t.chars.reverse ++ t.before
  rest_behind : s'.rest = t.after

theorem yields_of_next (h : s.next = (some t, s')) : s.Yields t s' := by
  rw [next_of_word (skipBlanks_of_next_eq_some h)] at h
  cases h
  constructor
  · simp [front, skipBlanks]
  · rfl
  · rfl
  · rfl

theorem head?_dropWhile_word (cs : List Char) :
    ∀ c ∈ (cs.dropWhile fun c => !isBlank c).head?, isBlank c = true := by
  intro c hc
  have hstop := List.head?_dropWhile_not (fun c => !isBlank c) cs
  rw [Option.mem_def.mp hc] at hstop
  simpa using hstop

/-- Behind a token there is a blank or nothing. -/
theorem head?_rest_of_next (h : s.next = (some t, s')) : ∀ c ∈ s'.rest.head?, isBlank c = true := by
  rw [next_of_word (skipBlanks_of_next_eq_some h)] at h
  cases h
  exact head?_dropWhile_word _

theorem isRun_of_next (hs : s.AtBorder) (h : s.next = (some t, s')) : t.IsRun := by
  have hyields := yields_of_next h
  have hrest := skipBlanks_of_next_eq_some h
  rw [next_of_word hrest] at h
  cases h
  obtain ⟨c, cs, hcons⟩ := List.exists_cons_of_ne_nil hrest
  have hword := head?_skipBlanks hcons
  constructor
  · simp [front, hcons, hword]
  · intro d hd
    simpa using List.mem_takeWhile_imp hd
  · intro d hd
    rw [hyields.before_eq] at hd
    rcases List.eq_nil_or_concat (s.rest.takeWhile isBlank) with hnone | ⟨init, e, hblanks⟩
    · rcases hs with hbefore | hnext
      · exact hbefore d (by simpa [hnone] using hd)
      · have hhead : s.rest.head? = some c := by
          rw [hyields.rest_eq, hnone]
          simp [front, hcons, hword]
        rw [hnext c hhead] at hword
        cases hword
    · have hmem : e ∈ s.rest.takeWhile isBlank := by simp [hblanks]
      have hde : e = d := by simpa [hblanks] using hd
      exact hde ▸ List.mem_takeWhile_imp hmem
  · exact head?_dropWhile_word _

theorem atBorder_of_next (h : s.next = (some t, s')) : s'.AtBorder :=
  Or.inr (head?_rest_of_next h)

/-- A longest row in what is left of a source is the token read next, or lies in what is left behind. -/
theorem eq_or_liesAhead (hs : s.AtBorder) (h : s.next = (some t₁, s')) (ht : t.IsRun) (hahead : t.LiesAhead s) :
    t = t₁ ∨ t.LiesAhead s' := by
  have hyields := yields_of_next h
  obtain ⟨gap, hrest, hbefore⟩ := hahead
  obtain ⟨c, cs, hchars, hword⟩ := ht.exists_head
  -- the row does not begin among the blanks that are skipped
  obtain ⟨gap₁, rfl, hrest₁⟩ : ∃ gap₁, gap = s.rest.takeWhile isBlank ++ gap₁ ∧
      t₁.chars ++ t₁.after = gap₁ ++ (t.chars ++ t.after) := by
    rcases List.append_eq_append_iff.mp (hrest.symm.trans hyields.rest_eq) with
      ⟨blanks, hblanks, hbegins⟩ | ⟨gap₁, hgap, hrest₁⟩
    · cases blanks with
      | nil => exact ⟨[], by simpa using hblanks.symm, by simpa using hbegins.symm⟩
      | cons d ds =>
          rw [hchars, List.cons_append, List.cons_append] at hbegins
          have hd : d ∈ s.rest.takeWhile isBlank := by simp [hblanks]
          rw [← (List.cons.inj hbegins).1] at hd
          rw [List.mem_takeWhile_imp hd] at hword
          cases hword
    · exact ⟨gap₁, hgap, hrest₁⟩
  have hbefore₁ : t.before = gap₁.reverse ++ t₁.before := by
    rw [hbefore, hyields.before_eq, List.reverse_append, List.append_assoc]
  rcases (isRun_of_next hs h).eq_or_behind ht hbefore₁ hrest₁ with heq | ⟨gap', rfl, hbehind⟩
  · exact Or.inl heq
  · refine Or.inr ⟨gap', hyields.rest_behind.trans hbehind, ?_⟩
    rw [hbefore₁, hyields.before_behind, List.reverse_append, List.append_assoc]

/-- The tokens that are read are the longest rows in what is left of the source. -/
theorem mem_readAll_iff (hs : s.AtBorder) : t ∈ s.readAll.1 ↔ t.IsRun ∧ t.LiesAhead s := by
  generalize htokens : s.readAll.1 = tokens
  induction tokens generalizing s with
  | nil =>
      constructor
      · intro hmem
        cases hmem
      · rintro ⟨ht, gap, hrest, _⟩
        obtain ⟨c, cs, hchars, hword⟩ := ht.exists_head
        rcases hnext : s.next with ⟨_ | t₁, s'⟩
        · have hblank : s.rest.dropWhile isBlank = [] := skipBlanks_of_next_eq_none (by rw [hnext])
          have hc := List.dropWhile_eq_nil_iff.mp hblank c (by simp [hrest, hchars])
          rw [hc] at hword
          cases hword
        · rw [readAll_of_next hnext] at htokens
          cases htokens
  | cons t₁ tokens ih =>
      rcases hnext : s.next with ⟨_ | t₂, s'⟩
      · rw [readAll_of_next_eq_none (by rw [hnext])] at htokens
        cases htokens
      · rw [readAll_of_next hnext] at htokens
        obtain ⟨rfl, hrest⟩ := List.cons.inj htokens
        have hyields := yields_of_next hnext
        rw [List.mem_cons, ih (atBorder_of_next hnext) hrest]
        constructor
        · rintro (rfl | ⟨ht, gap, hgap, hbefore⟩)
          · exact ⟨isRun_of_next hs hnext, _, hyields.rest_eq, hyields.before_eq⟩
          · refine ⟨ht, s.rest.takeWhile isBlank ++ (t₂.chars ++ gap), ?_, ?_⟩
            · rw [hyields.rest_behind] at hgap
              simpa [← hgap] using hyields.rest_eq
            · rw [hbefore, hyields.before_behind, hyields.before_eq]
              simp
        · rintro ⟨ht, hahead⟩
          rcases eq_or_liesAhead hs hnext ht hahead with heq | hbehind
          · exact Or.inl heq
          · exact Or.inr ⟨ht, hbehind⟩

/-! ### Order -/

/-- What is read behind a token begins behind it, with a blank between. -/
theorem stop_lt_start (h : s.next = (some t₁, s')) (hmem : t ∈ s'.readAll.1) : t₁.stop < t.start := by
  have hyields := yields_of_next h
  have hborder := atBorder_of_next h
  obtain ⟨ht, gap, hrest, hbefore⟩ := (mem_readAll_iff hborder).mp hmem
  have hstart : t.start = byteLength gap + t₁.stop := by
    rw [Token.start, hbefore, hyields.before_behind]
    simp only [byteLength_append, byteLength_reverse, Token.stop, Token.start]
    omega
  have hgap : gap ≠ [] := by
    rintro rfl
    obtain ⟨c, cs, hchars, hword⟩ := ht.exists_head
    have hblank := head?_rest_of_next h c (by simp [hrest, hchars])
    rw [hblank] at hword
    cases hword
  have hpos := byteLength_pos hgap
  omega

theorem pairwise_readAll (s : Source) : s.readAll.1.Pairwise fun t t' => t.stop < t'.start := by
  generalize htokens : s.readAll.1 = tokens
  induction tokens generalizing s with
  | nil => exact .nil
  | cons t₁ tokens ih =>
      rcases hnext : s.next with ⟨_ | t₂, s'⟩
      · rw [readAll_of_next_eq_none (by rw [hnext])] at htokens
        cases htokens
      · rw [readAll_of_next hnext] at htokens
        obtain ⟨rfl, hrest⟩ := List.cons.inj htokens
        refine List.pairwise_cons.mpr ⟨fun t hmem => ?_, ih s' hrest⟩
        exact stop_lt_start hnext (hrest ▸ hmem)

/-! ### One call after the other -/

/-- The source after the next token has been asked for so many times. -/
def asked : Nat → Source → Source
  | 0, s => s
  | n + 1, s => asked n s.next.2

/-- The calls yield the tokens in turn, and nothing any more when these are used up. -/
theorem next_asked (n : Nat) (s : Source) : (s.asked n).next.1 = s.readAll.1[n]? := by
  induction n generalizing s with
  | zero =>
      rcases hnext : s.next with ⟨_ | t, s'⟩
      · rw [readAll_of_next_eq_none (by rw [hnext]), asked, hnext]
        rfl
      · rw [readAll_of_next hnext, asked, hnext]
        rfl
  | succ n ih =>
      rw [asked, ih]
      rcases hnext : s.next with ⟨_ | t, s'⟩
      · rw [readAll_of_next_eq_none (next_eq_none_of_next hnext),
          readAll_of_next_eq_none (by rw [hnext])]
        rfl
      · rw [readAll_of_next hnext, List.getElem?_cons_succ]

theorem last_asked (n : Nat) (s : Source) :
    (s.asked n).last = (s.readAll.1.take n).getLast?.or s.last := by
  induction n generalizing s with
  | zero => simp [asked]
  | succ n ih =>
      rw [asked, ih]
      rcases hnext : s.next with ⟨_ | t, s'⟩
      · rw [readAll_of_next_eq_none (next_eq_none_of_next hnext),
          readAll_of_next_eq_none (by rw [hnext]), last_of_next_eq_none hnext]
        simp
      · rw [readAll_of_next hnext, last_of_next_eq_some hnext, List.take_succ_cons, List.getLast?_cons]
        cases (s'.readAll.1.take n).getLast? <;> rfl

end Source

namespace Token

variable {t : Token} {text : String}

/-! ### Tokens in encoded text -/

theorem extract_middle (before bytes after : ByteArray) :
    (before ++ (bytes ++ after)).extract before.size (before.size + bytes.size) = bytes := by
  have hnone : before.extract before.size (before.size + bytes.size) = ByteArray.empty :=
    ByteArray.extract_eq_empty_iff.mpr (Nat.min_le_right _ _)
  rw [ByteArray.extract_append, hnone, ByteArray.empty_append, Nat.sub_self, Nat.add_sub_cancel_left]
  exact ByteArray.extract_append_eq_left rfl

/-- In the encoding of its text a token has its own bytes from its start to its stop, and both are
places between two characters. -/
theorem encoded_of_context (h : t.context = text.toList) :
    String.Pos.Raw.IsValid text ⟨t.start⟩ ∧ String.Pos.Raw.IsValid text ⟨t.stop⟩ ∧
      text.toUTF8.extract t.start t.stop = t.text.toUTF8 := by
  let before := String.ofList t.before.reverse
  let after := String.ofList t.after
  have htext : text = before ++ (t.text ++ after) := by
    rw [← String.ofList_toList (s := text), ← h]
    simp only [context, Token.text, before, after, String.ofList_append]
  have hstart : t.start = before.utf8ByteSize := by
    rw [← byteLength_eq_utf8ByteSize, byteLength_reverse, start]
  have hstop : t.stop = (before ++ t.text).utf8ByteSize := by
    rw [String.utf8ByteSize_append, ← hstart, stop, Token.text, ← byteLength_eq_utf8ByteSize]
  refine ⟨?_, ?_, ?_⟩
  · exact String.Pos.Raw.isValid_iff_exists_append.mpr ⟨before, t.text ++ after, htext, by rw [hstart]; rfl⟩
  · refine String.Pos.Raw.isValid_iff_exists_append.mpr ⟨before ++ t.text, after, ?_, by rw [hstop]; rfl⟩
    rw [htext, String.append_assoc]
  · have hbytes : text.toUTF8 = before.toUTF8 ++ (t.text.toUTF8 ++ after.toUTF8) := by
      rw [htext, String.toUTF8, String.toByteArray_append, String.toByteArray_append]
      rfl
    have hend : t.stop = before.toUTF8.size + t.text.toUTF8.size := by
      rw [hstop, String.utf8ByteSize_append]
      rfl
    rw [hbytes, hstart, hend]
    exact extract_middle _ _ _

/-- A character that is no blank stands in a longest row. -/
theorem exists_isRun_of_word {l r : List Char} {c : Char} (hc : isBlank c = false) :
    ∃ t : Token, t.IsRun ∧ t.context = l ++ c :: r ∧ t.start ≤ byteLength l ∧ byteLength l < t.stop := by
  let isWord : Char → Bool := fun d => !isBlank d
  let t : Token :=
    { before := l.reverse.dropWhile isWord
      chars := (l.reverse.takeWhile isWord).reverse ++ c :: r.takeWhile isWord
      after := r.dropWhile isWord }
  have hsplit : (l.reverse.dropWhile isWord).reverse ++ (l.reverse.takeWhile isWord).reverse = l := by
    rw [← List.reverse_append, List.takeWhile_append_dropWhile, List.reverse_reverse]
  have hlength : byteLength (l.reverse.dropWhile isWord) + byteLength (l.reverse.takeWhile isWord) =
      byteLength l := by
    rw [← byteLength_reverse, ← byteLength_reverse (l.reverse.takeWhile isWord), ← byteLength_append,
      hsplit]
  refine ⟨t, ⟨?_, ?_, ?_, ?_⟩, ?_, ?_, ?_⟩
  · simp [t]
  · intro d hd
    have hword : ∀ cs : List Char, d ∈ cs.takeWhile isWord → isBlank d = false := by
      intro cs hmem
      simpa [isWord] using List.mem_takeWhile_imp hmem
    simp only [t, List.mem_append, List.mem_reverse, List.mem_cons] at hd
    rcases hd with hbefore | rfl | hafter
    · exact hword _ hbefore
    · exact hc
    · exact hword _ hafter
  · exact Source.head?_dropWhile_word _
  · exact Source.head?_dropWhile_word _
  · have hrest : r.takeWhile isWord ++ r.dropWhile isWord = r := List.takeWhile_append_dropWhile
    simp only [context, t, List.append_assoc, List.cons_append, hrest]
    rw [← List.append_assoc, hsplit]
  · change byteLength (l.reverse.dropWhile isWord) ≤ byteLength l
    omega
  · have hpos : 0 < byteLength (c :: r.takeWhile isWord) := byteLength_pos (by simp)
    have hstop : t.stop = byteLength (l.reverse.dropWhile isWord) +
        (byteLength (l.reverse.takeWhile isWord) + byteLength (c :: r.takeWhile isWord)) := by
      simp only [t, stop, start, byteLength_append, byteLength_reverse]
    omega

theorem liesAhead_ofChars {t : Token} {name : String} {text : List Char} :
    t.LiesAhead (Source.ofChars name text) ↔ t.context = text := by
  constructor
  · rintro ⟨gap, hrest, hbefore⟩
    rw [context, hbefore]
    simpa [Source.ofChars] using hrest.symm
  · intro h
    exact ⟨t.before.reverse, h.symm, by simp [Source.ofChars]⟩

end Token

/-- Reading a text splits it at its blanks.  The calls for the next token yield the longest rows of other
characters in the text, all of them and in order, and then nothing any more; the token read last is the
last one yielded.  In the encoded text the tokens take rows of bytes that begin and end between two
characters and come one behind the other, and a character outside of them is a blank. -/
theorem Source.readAll_splits (name text : String) :
    let source := ofChars name text.toList
    let tokens := source.readAll.1
    (∀ n, (source.asked n).next.1 = tokens[n]?) ∧
    (∀ n, (source.asked n).last = (tokens.take n).getLast?) ∧
    (∀ t, t ∈ tokens ↔ t.IsRun ∧ t.context = text.toList) ∧
    (tokens.Pairwise fun t t' => t.stop < t'.start) ∧
    (∀ t ∈ tokens, t.start < t.stop ∧ String.Pos.Raw.IsValid text ⟨t.start⟩ ∧
      String.Pos.Raw.IsValid text ⟨t.stop⟩ ∧ text.toUTF8.extract t.start t.stop = t.text.toUTF8) ∧
    ∀ l c r, text.toList = l ++ c :: r →
      isBlank c = true ∨ ∃ t ∈ tokens, t.start ≤ byteLength l ∧ byteLength l < t.stop := by
  intro source tokens
  have hmem : ∀ t, t ∈ tokens ↔ t.IsRun ∧ t.context = text.toList := by
    intro t
    rw [mem_readAll_iff (atBorder_ofChars name text.toList), Token.liesAhead_ofChars]
  refine ⟨fun n => next_asked n source, fun n => ?_, hmem, pairwise_readAll source, ?_, ?_⟩
  · rw [last_asked]
    exact Option.or_none
  · intro t ht
    obtain ⟨hrun, hcontext⟩ := (hmem t).mp ht
    have hpos := byteLength_pos hrun.nonempty
    exact ⟨by simp only [Token.stop]; omega, Token.encoded_of_context hcontext⟩
  · intro l c r htext
    cases hc : isBlank c with
    | true => exact Or.inl rfl
    | false =>
        obtain ⟨t, hrun, hcontext, hstart, hstop⟩ := Token.exists_isRun_of_word (l := l) (r := r) hc
        exact Or.inr ⟨t, (hmem t).mpr ⟨hrun, hcontext.trans htext.symm⟩, hstart, hstop⟩

end Forth

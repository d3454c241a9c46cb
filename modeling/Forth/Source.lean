/-
Source text and its tokens.  A source is read from left to right; a token is a longest row of
characters other than the five blanks.  Each token remembers the text on both sides of it, so that
its place in the source can be told from the token alone.
-/
import Forth.Numeral

namespace Forth

/-- The characters that separate tokens: space, tab, line feed, form feed and carriage return.
A vertical tab and the blanks outside ASCII belong to a token. -/
def isBlank (c : Char) : Bool :=
  c == ' ' || c == '\t' || c == '\n' || c == '\x0c' || c == '\r'

/-- The number of bytes that a text takes in UTF-8. -/
def byteLength (cs : List Char) : Nat :=
  cs.foldr (fun c n => c.utf8Size + n) 0

@[simp] theorem byteLength_nil : byteLength [] = 0 := rfl

@[simp] theorem byteLength_cons (c : Char) (cs : List Char) :
    byteLength (c :: cs) = c.utf8Size + byteLength cs := rfl

/-- A token in its source. -/
structure Token where
  /-- The text before the token, last character first. -/
  before : List Char
  /-- The characters of the token. -/
  chars : List Char
  /-- The text behind the token. -/
  after : List Char
deriving DecidableEq, Repr

/-- The token as a word. -/
def Token.text (t : Token) : String :=
  String.ofList t.chars

/-- The byte offset of the token's first character. -/
def Token.start (t : Token) : Nat :=
  byteLength t.before

/-- The byte offset behind the token's last character. -/
def Token.stop (t : Token) : Nat :=
  t.start + byteLength t.chars

/-- A line of a text: how many lines are above it, and the byte offset at which it starts. -/
structure LineStart where
  line : Nat
  offset : Nat
deriving DecidableEq, Repr

/-- Goes through a text from left to right and finds its last line.  `found` is the line that was found
so far, and `offset` the byte offset of the character that comes next. -/
def scanLines (found : LineStart) (offset : Nat) : List Char → LineStart
  | [] => found
  | c :: cs =>
      -- a line end takes one byte
      scanLines (if c = '\n' then ⟨found.line + 1, offset + 1⟩ else found) (offset + c.utf8Size) cs

/-- The text behind its first `count` bytes. -/
def dropBytes : Nat → List Char → List Char
  | 0, cs => cs
  | _ + 1, [] => []
  | count + 1, c :: cs => dropBytes (count + 1 - c.utf8Size) cs

/-- The line on which the token stands. -/
def Token.lineStart (t : Token) : LineStart :=
  scanLines ⟨0, 0⟩ 0 t.before.reverse

/-- The number of lines that end before the token. -/
def Token.line (t : Token) : Nat :=
  t.lineStart.line

/-- The text between the start of the token's line and the token. -/
def Token.margin (t : Token) : List Char :=
  dropBytes t.lineStart.offset t.before.reverse

/-- The number of characters before the token on its line. -/
def Token.column (t : Token) : Nat :=
  t.margin.length

/-- The line on which the token stands, without its end. -/
def Token.wholeLine (t : Token) : List Char :=
  t.margin ++ (t.chars ++ t.after).takeWhile fun c => c != '\n' && c != '\r'

/-- The place of a token, as it is told to the user.  Line and column count from zero. -/
structure Location where
  token : String
  line : Nat
  column : Nat
  file : String
  wholeLine : String
deriving DecidableEq, Repr

/-- The place of a token in the source of the given name. -/
def Token.location (file : String) (t : Token) : Location where
  token := t.text
  line := t.line
  column := t.column
  file := file
  wholeLine := String.ofList t.wholeLine

/-- Three lines: the place, counted from one; the source line; and a caret under the first character
of the token. -/
def Location.render (l : Location) : String :=
  l.file ++ ":" ++ Numeral.ofNat (l.line + 1) ++ ":" ++ Numeral.ofNat (l.column + 1) ++ "\n" ++
    l.wholeLine ++ "\n" ++
    String.ofList (List.replicate l.column '-') ++ "^\n"

/-- A named text that is being read.  Reading stands between `before` and `rest`, at the byte offset
`byteLength before`. -/
structure Source where
  name : String
  /-- The text that has been read, last character first. -/
  before : List Char
  /-- The text still to be read. -/
  rest : List Char
  /-- The token read last. -/
  last : Option Token
deriving DecidableEq, Repr

/-- A source of which nothing has been read. -/
def Source.ofChars (name : String) (text : List Char) : Source where
  name := name
  before := []
  rest := text
  last := none

/-- The source behind the blanks that come next. -/
def Source.skipBlanks (s : Source) : Source :=
  { s with
    before := (s.rest.takeWhile isBlank).reverse ++ s.before
    rest := s.rest.dropWhile isBlank }

/-- The token that begins where reading stands. -/
def Source.front (s : Source) : Token where
  before := s.before
  chars := s.rest.takeWhile fun c => !isBlank c
  after := s.rest.dropWhile fun c => !isBlank c

/-- The source behind a token that has been read from it. -/
def Source.passed (s : Source) (t : Token) : Source :=
  { s with before := t.chars.reverse ++ t.before, rest := t.after, last := some t }

/-- Reads one token.  At the end of the text there is none; the blanks before the end are passed all
the same. -/
def Source.next (s : Source) : Option Token × Source :=
  if s.skipBlanks.rest.isEmpty then (none, s.skipBlanks)
  else (some s.skipBlanks.front, s.skipBlanks.passed s.skipBlanks.front)

/-- The place of the token read last. -/
def Source.lastLocation (s : Source) : Option Location :=
  s.last.map (Token.location s.name)

/-- Reads at most `count` tokens and gives them in order, with the source behind them. -/
def Source.readUpTo : Nat → Source → List Token × Source
  | 0, s => ([], s)
  | count + 1, s =>
      match s.next with
      | (none, s') => ([], s')
      | (some token, s') =>
          let (tokens, s'') := readUpTo count s'
          (token :: tokens, s'')

/-- Reads all tokens.  Each takes at least one character, so the length of the text bounds their
number. -/
def Source.readAll (s : Source) : List Token × Source :=
  s.readUpTo (s.rest.length + 1)

/-- Reads up to `count` tokens, until one of them is the given word. -/
def Source.skipUpTo (word : String) : Nat → Source → Source
  | 0, s => s
  | count + 1, s =>
      match s.next with
      | (none, s') => s'
      | (some token, s') => if token.text = word then s' else skipUpTo word count s'

/-- Reads tokens through the next one that is the given word, or to the end if there is none. -/
def Source.skipPast (word : String) (s : Source) : Source :=
  s.skipUpTo word (s.rest.length + 1)

namespace Source

/-- The whole text of a source, wherever reading stands. -/
def text (s : Source) : List Char :=
  s.before.reverse ++ s.rest

theorem text_skipBlanks (s : Source) : s.skipBlanks.text = s.text := by
  simp [text, skipBlanks]

/-- The parts of the token in front make up the whole text. -/
theorem text_front (s : Source) :
    s.front.before.reverse ++ s.front.chars ++ s.front.after = s.text := by
  simp [front, text]

theorem text_passed_front (s : Source) : (s.passed s.front).text = s.text := by
  rw [← text_front s]
  simp [passed, text]

/-- Reading loses nothing of the text. -/
theorem text_next (s : Source) : s.next.2.text = s.text := by
  unfold next
  split
  · exact text_skipBlanks s
  · rw [text_passed_front, text_skipBlanks]

/-- What is left behind the blanks does not begin with one. -/
theorem head?_skipBlanks {s : Source} {c : Char} {cs : List Char}
    (h : s.skipBlanks.rest = c :: cs) : isBlank c = false := by
  have hhead := List.head?_dropWhile_not isBlank s.rest
  change s.rest.dropWhile isBlank = c :: cs at h
  simpa [h] using hhead

/-- Reading a token takes at least one character of what is left. -/
theorem length_rest_lt_of_next {s s' : Source} {t : Token} (h : s.next = (some t, s')) :
    s'.rest.length < s.rest.length := by
  have hskip : s.skipBlanks.rest.length ≤ s.rest.length :=
    (List.dropWhile_sublist isBlank).length_le
  unfold next at h
  cases hrest : s.skipBlanks.rest with
  | nil => simp [hrest] at h
  | cons c cs =>
      have hblank := head?_skipBlanks hrest
      have hword : (cs.dropWhile fun c => !isBlank c).length ≤ cs.length :=
        (List.dropWhile_sublist _).length_le
      simp only [hrest, List.isEmpty_cons, Bool.false_eq_true, ↓reduceIte, Prod.mk.injEq] at h
      rw [← h.2]
      simp only [passed, front, hrest, hblank, List.dropWhile_cons, Bool.not_false, ↓reduceIte]
      simp only [hrest, List.length_cons] at hskip
      omega

/-- A source with nothing left has no token. -/
theorem next_of_rest_nil {s : Source} (h : s.rest = []) : s.next.1 = none := by
  have hskip : s.skipBlanks.rest = [] := by
    simp [skipBlanks, h]
  simp [next, hskip]

/-- The end of the source stays the end. -/
theorem next_eq_none_of_next {s s' : Source} (h : s.next = (none, s')) : s'.next.1 = none := by
  unfold next at h
  split at h
  · rename_i hempty
    cases h
    exact next_of_rest_nil (List.isEmpty_iff.mp hempty)
  · cases h

/-- Any bound above the length of the text reads the same tokens. -/
theorem readUpTo_eq_readAll {s : Source} {count : Nat} (h : s.rest.length < count) :
    s.readUpTo count = s.readAll := by
  suffices hall : ∀ n k (s : Source), s.rest.length < n → s.rest.length < k →
      s.readUpTo n = s.readUpTo k from
    hall _ _ s h (Nat.lt_succ_self _)
  intro n
  induction n with
  | zero =>
      intro k s hn _
      omega
  | succ n ih =>
      intro k s hn hk
      obtain ⟨k, rfl⟩ : ∃ j, k = j + 1 := ⟨k - 1, by omega⟩
      unfold readUpTo
      rcases hnext : s.next with ⟨_ | t, s'⟩
      · rfl
      · have hlt := length_rest_lt_of_next hnext
        simp only [ih k s' (by omega) (by omega)]

/-- Any bound above the length of the text skips the same tokens. -/
theorem skipUpTo_eq_skipPast {word : String} {s : Source} {count : Nat}
    (h : s.rest.length < count) : s.skipUpTo word count = s.skipPast word := by
  suffices hall : ∀ n k (s : Source), s.rest.length < n → s.rest.length < k →
      s.skipUpTo word n = s.skipUpTo word k from
    hall _ _ s h (Nat.lt_succ_self _)
  intro n
  induction n with
  | zero =>
      intro k s hn _
      omega
  | succ n ih =>
      intro k s hn hk
      obtain ⟨k, rfl⟩ : ∃ j, k = j + 1 := ⟨k - 1, by omega⟩
      unfold skipUpTo
      rcases hnext : s.next with ⟨_ | t, s'⟩
      · rfl
      · have hlt := length_rest_lt_of_next hnext
        simp only [ih k s' (by omega) (by omega)]

end Source

example : ((Source.ofChars "t" " a\tbc\n".toList).readAll.1.map Token.chars) = [['a'], ['b', 'c']] := by
  rfl

end Forth

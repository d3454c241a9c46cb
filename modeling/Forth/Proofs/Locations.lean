/-
Where a token is said to stand.  Its line is counted by the line ends before it and its column by the
characters from the start of that line; the line that is shown with it ends before the next line end or
carriage return.  However lines end, the three fit together: the caret stands under the first character of
the token, and a token that is read later stands behind.
-/
import Mathlib.Data.List.Basic
import Mathlib.Data.Prod.Lex
import Forth.Proofs.Tokens

namespace Forth

/-! ### Cutting a text at a token -/

/-- A character that does not end the line that is shown. -/
def isShown (c : Char) : Bool :=
  c != '\n' && c != '\r'

theorem isShown_of_not_isBlank {c : Char} (hc : isBlank c = false) : isShown c = true := by
  have hne : ∀ d : Char, isBlank d = true → (c != d) = true := by
    intro d hd
    rw [bne_iff_ne]
    rintro rfl
    rw [hc] at hd
    cases hd
  simp [isShown, hne '\n' rfl, hne '\r' rfl]

namespace Token

variable {t t' : Token} {text : List Char}

/-- What is shown of the token's line from the token on. -/
def visible (t : Token) : List Char :=
  (t.chars ++ t.after).takeWhile isShown

/-- What is not shown any more of the token's line, and all that follows. -/
def below (t : Token) : List Char :=
  (t.chars ++ t.after).dropWhile isShown

theorem visible_append_below (t : Token) : t.visible ++ t.below = t.chars ++ t.after :=
  List.takeWhile_append_dropWhile

/-- The line of a token is shown at least up to its end: a token has no line end in it. -/
theorem visible_eq (ht : t.IsRun) : t.visible = t.chars ++ t.after.takeWhile isShown :=
  List.takeWhile_append_of_pos fun c hc => isShown_of_not_isBlank (ht.unbroken c hc)

/-- The pieces into which a token divides its text: the lines above, what stands before it on its own line,
what is shown of that line from the token on, and what is below. -/
structure Divides (t : Token) (text above margin visible below : List Char) : Prop where
  text_eq : text = above ++ margin ++ (visible ++ below)
  start_eq : t.start = byteLength (above ++ margin)
  above_ends : ∀ c ∈ above.getLast?, c = '\n'
  margin_within : '\n' ∉ margin
  visible_begins : t.chars <+: visible
  visible_within : '\n' ∉ visible ∧ '\r' ∉ visible
  below_begins : ∀ c ∈ below.head?, c = '\n' ∨ c = '\r'

theorem divides (ht : t.IsRun) (hcontext : t.context = text) :
    t.Divides text t.above t.margin t.visible t.below where
  text_eq := by rw [above_append_margin, visible_append_below, ← hcontext, context]
  start_eq := by rw [above_append_margin, byteLength_reverse, start]
  above_ends := by
    intro c hc
    rw [above, List.getLast?_reverse, Option.mem_def] at hc
    have hstop := List.head?_dropWhile_not (· != '\n') t.before
    rw [hc] at hstop
    simpa using hstop
  margin_within := by
    intro hmem
    rw [margin_eq, List.mem_reverse] at hmem
    have hpassed := List.mem_takeWhile_imp hmem
    simp at hpassed
  visible_begins := ⟨_, (visible_eq ht).symm⟩
  visible_within := by
    have hshown : ∀ c ∈ t.visible, isShown c = true := fun c hc => List.mem_takeWhile_imp hc
    exact ⟨fun hmem => absurd (hshown _ hmem) (by decide), fun hmem => absurd (hshown _ hmem) (by decide)⟩
  below_begins := by
    intro c hc
    have hstop := List.head?_dropWhile_not isShown (t.chars ++ t.after)
    rw [below, Option.mem_def] at hc
    rw [hc] at hstop
    simpa [isShown, Decidable.or_iff_not_imp_left] using hstop

end Token

/-! ### Line, column and caret -/

/-- The first line of a rendered place: where it is, counted from one. -/
def Location.heading (l : Location) : String :=
  l.file ++ ":" ++ Numeral.ofNat (l.line + 1) ++ ":" ++ Numeral.ofNat (l.column + 1)

/-- The place as it is told of a token that divides its text in this way.  Line, column and shown line are
those of the division; no line end is shown; behind the column the line goes on with the token; and the
caret of the rendered place stands under the first character of the token. -/
structure Location.Tells (l : Location) (name : String) (t : Token) (above margin visible : List Char) :
    Prop where
  file : l.file = name
  token : l.token = t.text
  line : l.line = (above ++ margin).count '\n'
  column : l.column = margin.length
  wholeLine : l.wholeLine.toList = margin ++ visible
  within : '\n' ∉ l.wholeLine.toList
  goesOn : t.chars <+: l.wholeLine.toList.drop l.column
  caret : ∃ caret,
    l.render.toList = l.heading.toList ++ '\n' :: l.wholeLine.toList ++ '\n' :: caret ++ ['\n'] ∧
    caret = List.replicate l.column '-' ++ ['^'] ∧
    l.wholeLine.toList[caret.idxOf '^']? = t.chars.head?

/-- Below the line on which the token stands, a row of dashes leads to the caret. -/
theorem Location.render_eq (l : Location) :
    l.render.toList = l.heading.toList ++ '\n' :: l.wholeLine.toList ++
      '\n' :: (List.replicate l.column '-' ++ ['^']) ++ ['\n'] := by
  simp [render, heading]

theorem idxOf_caret (n : Nat) : (List.replicate n '-' ++ ['^']).idxOf '^' = n := by
  have hdash : '^' ∉ List.replicate n '-' := by simp [List.mem_replicate]
  rw [List.idxOf_append_of_notMem hdash, List.length_replicate, List.idxOf_cons_self, Nat.add_zero]

namespace Token

variable {t t' : Token} {text above visible below : List Char}

theorem tells_location (name : String) (ht : t.IsRun) :
    (t.location name).Tells name t t.above t.margin t.visible := by
  have hdivides := divides ht rfl
  have hcolumn : (t.location name).column = t.margin.length := rfl
  have hwhole : (t.location name).wholeLine.toList = t.margin ++ t.visible := String.toList_ofList
  have hbehind : (t.location name).wholeLine.toList.drop (t.location name).column = t.visible := by
    rw [hwhole, hcolumn, List.drop_left]
  constructor
  · rfl
  · rfl
  · rw [above_append_margin, List.count_reverse]
    exact t.line_eq
  · exact hcolumn
  · exact hwhole
  · rw [hwhole, List.mem_append]
    exact not_or.mpr ⟨hdivides.margin_within, hdivides.visible_within.1⟩
  · rw [hbehind]
    exact hdivides.visible_begins
  · refine ⟨_, (t.location name).render_eq, rfl, ?_⟩
    rw [idxOf_caret, ← List.head?_drop, hbehind, visible_eq ht, List.head?_append_of_ne_nil _ ht.nonempty]

/-! ### Order -/

/-- The place of a token among those of its text: the line first, and then the column. -/
def place (t : Token) : Nat ×ₗ Nat :=
  toLex (t.line, t.column)

/-- What stands before a later token of one text begins with what stands before the earlier one and with
its characters. -/
theorem exists_between (hcontext : t.context = t'.context) (h : t.stop < t'.start) :
    ∃ gap, t'.before = (t.chars ++ gap).reverse ++ t.before := by
  simp only [context, ← List.append_assoc] at hcontext
  rw [List.append_assoc t'.before.reverse] at hcontext
  rcases List.append_eq_append_iff.mp hcontext with ⟨gap, hbefore, _⟩ | ⟨inside, hbefore, _⟩
  · exact ⟨gap, by rw [← List.reverse_inj, hbefore]; simp⟩
  · have hlength := congrArg byteLength hbefore
    simp only [byteLength_append, byteLength_reverse] at hlength
    simp only [stop, start] at h
    omega

/-- A later token stands on a later line, or further right on the same one. -/
theorem place_lt_place (ht : t.IsRun) (hcontext : t.context = t'.context) (h : t.stop < t'.start) :
    t.place < t'.place := by
  obtain ⟨gap, hbefore⟩ := exists_between hcontext h
  have hline : t'.line = (t.chars ++ gap).count '\n' + t.line := by
    rw [line_eq, hbefore, List.count_append, List.count_reverse, line_eq]
  rw [place, place, Prod.Lex.toLex_lt_toLex]
  by_cases hends : '\n' ∈ t.chars ++ gap
  · left
    have hpos := List.count_pos_iff.mpr hends
    dsimp only
    omega
  · right
    have hmargin : t'.margin = t.margin ++ (t.chars ++ gap) := by
      rw [margin_eq, hbefore, List.takeWhile_append_of_pos, List.reverse_append, List.reverse_reverse,
        margin_eq]
      intro c hc
      rw [bne_iff_ne]
      rintro rfl
      exact hends (List.mem_reverse.mp hc)
    have hpos := List.length_pos_iff.mpr ht.nonempty
    rw [List.count_eq_zero.mpr hends, Nat.zero_add] at hline
    refine ⟨hline.symm, ?_⟩
    simp only [column, hmargin, List.length_append]
    omega

end Token

/-- The place that is told of a token is where it stands.  The text is cut behind the last line end before
the token, before the token, and before the next line end or carriage return behind its start; line, column
and the line that is shown are those of this division.  Tokens that are read later have later places. -/
theorem Source.location_of_token (name text : String) :
    let tokens := (ofChars name text.toList).readAll.1
    (∀ t ∈ tokens, ∃ above margin visible below, t.Divides text.toList above margin visible below ∧
      (t.location name).Tells name t above margin visible) ∧
    tokens.Pairwise fun t t' => t.place < t'.place := by
  intro tokens
  have hmem : ∀ t ∈ tokens, t.IsRun ∧ t.context = text.toList := by
    intro t ht
    rwa [mem_readAll_iff (atBorder_ofChars name text.toList), Token.liesAhead_ofChars] at ht
  constructor
  · intro t ht
    obtain ⟨hrun, hcontext⟩ := hmem t ht
    exact ⟨_, _, _, _, Token.divides hrun hcontext, Token.tells_location name hrun⟩
  · refine (pairwise_readAll (ofChars name text.toList)).imp_of_mem ?_
    intro t t' ht ht' hbehind
    obtain ⟨hrun, hcontext⟩ := hmem t ht
    exact Token.place_lt_place hrun (hcontext.trans (hmem t' ht').2.symm) hbehind

example : (Source.ofChars "t" "é 1\r\n\tπ*2 x\ry\n".toList).readAll.1.map
    (fun t => (t.line, t.column, String.ofList t.wholeLine)) =
      [(0, 0, "é 1"), (0, 2, "é 1"), (1, 1, "\tπ*2 x"), (1, 5, "\tπ*2 x"), (1, 7, "\tπ*2 x\ry")] := by
  decide +kernel

end Forth

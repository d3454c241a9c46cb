/-
The dialogue agrees with a script.  Where no line of a text reads on behind its end, entering its lines
one by one leads to the machine that loading the whole text leads to, and prints the same with a prompt
before what each line prints.
-/
import Forth.Proofs.Rewording
import Forth.Repl

namespace Forth

open Machine Run

/-! ### The words of a text -/

namespace Source

variable {s s' : Source} {words more : List String} {name : String} {c : Char} {cs : List Char}

/-- What is offered depends on the text behind the blanks alone. -/
theorem Offers.of_skipBlanks (h : s.Offers words) (hrest : s'.skipBlanks.rest = s.skipBlanks.rest) :
    s'.Offers words := by
  induction words generalizing s s' with
  | nil =>
      have hblank : s.skipBlanks.rest = [] := skipBlanks_of_next_eq_none h
      exact congrArg Prod.fst (next_of_blank (hrest.trans hblank))
  | cons word words ih =>
      obtain ⟨t, s₁, hnext, htext, hs₁⟩ := h
      have hword := skipBlanks_of_next_eq_some hnext
      rw [next_of_word hword] at hnext
      cases hnext
      refine ⟨_, _, next_of_word (hrest ▸ hword), ?_, ih hs₁ ?_⟩
      · simpa only [Token.text, front, hrest] using htext
      · simp only [skipBlanks, passed, front] at hrest ⊢
        rw [hrest]

/-- Behind a blank, a text offers its own words. -/
theorem Offers.append (h : s.Offers words) (hc : isBlank c = true) (hmore : (ofChars name cs).Offers more) :
    (s.extended (c :: cs)).Offers (words ++ more) := by
  induction words generalizing s with
  | nil =>
      have hblank : s.rest.dropWhile isBlank = [] := skipBlanks_of_next_eq_none h
      apply hmore.of_skipBlanks
      simp [skipBlanks, extended, ofChars, List.dropWhile_append, hblank, hc]
  | cons word words ih =>
      obtain ⟨t, s₁, hnext, htext, hs₁⟩ := h
      exact ⟨_, _, next_extended hc hnext, htext, ih hs₁⟩

/-- The words of two texts with a blank between them are those of the one and of the other. -/
theorem words_append (name : String) (hc : isBlank c = true) (text rest : List Char) :
    (ofChars name (text ++ c :: rest)).readAll.1.map Token.text =
      (ofChars name text).readAll.1.map Token.text ++ (ofChars name rest).readAll.1.map Token.text :=
  ((offers_of_readAll (s := ofChars name text) rfl).append hc (offers_of_readAll rfl)).words_eq

/-- The words of texts with a space between any two of them. -/
theorem words_intercalate (name : String) (texts : List String) :
    (ofChars name (" ".intercalate texts).toList).readAll.1.map Token.text =
      texts.flatMap fun text => (ofChars name text.toList).readAll.1.map Token.text := by
  induction texts with
  | nil => rfl
  | cons text texts ih =>
      cases texts with
      | nil => simp
      | cons text' texts =>
          have hchars : (" ".intercalate (text :: text' :: texts)).toList =
              text.toList ++ ' ' :: (" ".intercalate (text' :: texts)).toList := by
            simp [String.intercalate_cons_cons]
          rw [hchars, words_append name rfl, ih]
          rfl

/-- The words of a text do not depend on the name of the source. -/
theorem words_name (name name' : String) (text : List Char) :
    (ofChars name text).readAll.1.map Token.text = (ofChars name' text).readAll.1.map Token.text := by
  have hoffers : (ofChars name text).Offers ((ofChars name' text).readAll.1.map Token.text) :=
    (offers_of_readAll (s := ofChars name' text) rfl).of_skipBlanks rfl
  exact hoffers.words_eq

/-- A carriage return at the end of a line is not seen. -/
theorem words_dropReturn (name : String) (part rest : List Char) :
    (ofChars name (part.reverse ++ '\n' :: rest)).readAll.1.map Token.text =
      (ofChars name ((Repl.dropReturn part).reverse ++ '\n' :: rest)).readAll.1.map Token.text := by
  unfold Repl.dropReturn
  split
  · rename_i cs
    have hreturn : ('\r' :: cs).reverse ++ '\n' :: rest = cs.reverse ++ '\r' :: ([] ++ '\n' :: rest) := by
      simp
    rw [hreturn, words_append name rfl, words_append name rfl, words_append name rfl]
    rfl
  · rfl

end Source

/-! ### A line and the text behind it -/

namespace Machine

variable {m m' : Machine} {s source source' : Source}

/-- A source with the same words succeeds to the same machine. -/
theorem reaches_evalSource_of_words
    (hwords : source.readAll.1.map Token.text = source'.readAll.1.map Token.text)
    (h : Reaches (fun fuel => evalSource fuel source) m (.ok () m')) :
    Reaches (fun fuel => evalSource fuel source') m (.ok () m') := by
  obtain ⟨fuel, hfuel⟩ := h
  obtain ⟨r', hr', hsame⟩ := evalSource_relocated hwords hfuel
  cases hsame
  exact ⟨fuel, hr'⟩

/-- Where reading a source ends with more lines behind it, it ends without them. -/
theorem reaches_build_of_extended (tail : List Char) {fuel : Nat} {r' : Outcome Unit}
    (hwithin : m.ReadsWithin s)
    (hr : build fuel { m with source := some (s.extended ('\n' :: tail)) } = some r') :
    ∃ r, Reaches build { m with source := some s } r := by
  induction fuel generalizing m s with
  | zero => cases hr
  | succ fuel ih =>
      rcases hnext : s.next with ⟨_ | token, s'⟩
      · exact ⟨_, 1, Reads.build_of_next_eq_none 0 (by rw [hnext])⟩
      · have hanswers := answers_dispatch_extended tail hwithin hnext fuel
        have hbuild : (dispatch fuel token.text >>= fun _ => build fuel)
            { m with source := some (s'.extended ('\n' :: tail)) } = some r' :=
          (Reads.build_succ fuel (Source.next_extended rfl hnext)).symm.trans hr
        rcases hword : dispatch fuel token.text { m with source := some s' } with _ | ⟨_, m₁⟩ | ⟨e, m₁⟩
        · rw [hword] at hanswers
          rw [Run.bind_apply, show dispatch fuel token.text _ = none from hanswers] at hbuild
          cases hbuild
        · rw [hword] at hanswers
          obtain ⟨_, hword', s₁, _, hs₁, ⟨_, _, rfl⟩, rfl⟩ := hanswers
          have hm₁ : m₁ = { m₁ with source := some s₁ } := by rw [← hs₁]
          rw [hm₁] at hword
          rw [Run.bind_of_ok hword'] at hbuild
          obtain ⟨r, hrest⟩ := ih (hwithin.behind hnext ⟨fuel, hword⟩) hbuild
          exact ⟨r, (reaches_build_of_dispatch hnext ⟨fuel, hword⟩).mpr hrest⟩
        · exact ⟨_, fuel + 1, (Reads.build_succ fuel hnext).trans (Run.bind_of_error hword)⟩

/-- A text that succeeds is a first line that succeeds and a rest that succeeds behind it, if the first
line does not read on. -/
theorem reaches_evalSource_split {name : String} {line rest : List Char}
    (hwithin : m.ReadsWithin (Source.ofChars name line))
    (h : Reaches (fun fuel => evalSource fuel (Source.ofChars name (line ++ '\n' :: rest))) m (.ok () m')) :
    ∃ m₁, Reaches (fun fuel => evalSource fuel (Source.ofChars name line)) m (.ok () m₁) ∧
      Reaches (fun fuel => evalSource fuel (Source.ofChars name rest)) m₁ (.ok () m') := by
  obtain ⟨r₀, ⟨fuel, hfuel⟩, hclosed⟩ := reaches_evalSource_iff.mp h
  obtain ⟨r, n, hn⟩ := reaches_build_of_extended rest hwithin hfuel
  rcases build_extended rest hwithin hn with
    ⟨m₂, s, rfl, hend, hname, _, hiff⟩ | ⟨e, m₂, s, _, hfails⟩
  · refine ⟨{ m₂ with source := m.source }, reaches_evalSource_iff.mpr ⟨_, ⟨n, hn⟩, rfl⟩, ?_⟩
    have hrest : Reaches (fun fuel => evalSource fuel (s.extended ('\n' :: rest)))
        { m₂ with source := m.source } (.ok () m') :=
      reaches_evalSource_iff.mpr ⟨r₀, (hiff r₀).mp ⟨fuel, hfuel⟩, hclosed⟩
    obtain ⟨r₁, hr₁, hlowered⟩ := (reaches_evalSource_cut hend).mp hrest
    rw [hname] at hr₁
    cases r₁ with
    | ok _ m₃ =>
        cases hlowered
        exact hr₁
    | error e m₃ => cases hlowered
  · cases Reads.build_steady.reaches_unique ⟨fuel, hfuel⟩ hfails
    cases hclosed

end Machine

/-! ### Printing -/

/-- A machine beside one that has printed other things before. -/
def Pairing.printing (base base' : List Emission) : Pairing where
  related m m' := ∃ pieces, m.output = pieces ++ base ∧ m' = { m with output := pieces ++ base' }
  excused _ := False
  admits _ := True
  allows _ _ := True

theorem Pairing.onStreams_printing (base base' : List Emission) : OnStreams (printing base base') where
  admits_all _ := trivial
  same := by
    rintro m _ ⟨pieces, _, rfl⟩
    rfl
  moves := by
    rintro m _ m₁ ⟨pieces, hout, rfl⟩ hsource houtput
    exact ⟨pieces, houtput.trans hout, by rw [← hsource]⟩
  withOutput := by
    rintro m _ e ⟨pieces, hout, rfl⟩
    exact ⟨e :: pieces, congrArg (e :: ·) hout, rfl⟩
  nextToken := by
    rintro m _ ⟨pieces, hout, rfl⟩ _
    exact readsAlike_of_source rfl ⟨pieces, hout, rfl⟩ fun _ _ => ⟨pieces, hout, rfl⟩
  comment := by
    rintro m _ ⟨pieces, hout, rfl⟩ _
    exact ⟨pieces, hout, rfl⟩

theorem Pairing.onText_printing (base base' : List Emission) : OnText (printing base base') where
  toOnWords := (onStreams_printing base base').onWords
  allows_all _ _ := trivial

namespace Machine

variable {m m' : Machine} {s s' : Source}

/-- What was printed before an evaluation stays, and nothing depends on it. -/
theorem reaches_evalSource_with_output {source : Source}
    (h : Reaches (fun fuel => evalSource fuel source) m (.ok () m')) (output : List Emission) :
    ∃ pieces, m'.output = pieces ++ m.output ∧ Reaches (fun fuel => evalSource fuel source)
      { m with output := output } (.ok () { m' with output := pieces ++ output }) := by
  obtain ⟨r₀, hbuild, hclosed⟩ := reaches_evalSource_iff.mp h
  cases r₀ with
  | error e m₁ => cases hclosed
  | ok _ m₁ =>
      cases hclosed
      have hanswers : ∀ fuel, (Pairing.printing m.output output).Answers
          (build fuel { m with source := some source })
          (build fuel { m with source := some source, output := output }) :=
        fun fuel => (Pairing.onText_printing m.output output).answers_build fuel ⟨[], rfl, rfl⟩
      obtain ⟨_, hbuild', pieces, hout, rfl⟩ := Pairing.reaches_ok hanswers hbuild
      exact ⟨pieces, hout, reaches_evalSource_iff.mpr ⟨_, hbuild', rfl⟩⟩

/-- A word that executes no primitive but the given one reads within the source. -/
theorem ReadsWithin.word (p? : Option Primitive) {s₁ : Source} {token : Token}
    (hnext : s.next = (some token, s')) (hfind : m.dictionary.find? token.text = p?.map Op.primitive)
    (hp : ∀ p ∈ p?, ∀ s, ¬ p.AsksBeyond s)
    (hword : Reaches (fun fuel => dispatch fuel token.text) { m with source := some s' } (.ok () m'))
    (hs₁ : m'.source = some s₁) (hrest : m'.ReadsWithin s₁) : m.ReadsWithin s := by
  have hm' : m' = { m' with source := some s₁ } := by rw [← hs₁]
  rw [hm'] at hword
  refine .of_next hnext ?_ hword hrest
  rintro p m₁ s₂ ⟨op, hop, _, hexecutes⟩ _
  cases p? with
  | none => cases hfind.symm.trans hop
  | some p' =>
      cases hfind.symm.trans hop
      cases hexecutes
      exact hp p rfl s₂

/-- None of the lines, evaluated one after the other, asks for a token behind its end. -/
def SelfContainedLines : Machine → List String → Prop
  | _, [] => True
  | m, line :: lines => m.SelfContained line ∧
      ∀ m₁, Reaches (fun fuel => eval fuel line) m (.ok () m₁) → m₁.SelfContainedLines lines

end Machine

/-- What one channel got of pieces, old and new. -/
theorem printedOn_append (channel : Channel) (new old : List Emission) :
    printedOn channel (new ++ old) = printedOn channel old ++ printedOn channel new := by
  simp [printedOn, String.join_append]

/-! ### The dialogue line by line -/

namespace Repl

/-- A line of a dialogue: the mode in which it was asked for, and what evaluating it printed, newest
piece first. -/
structure Round where
  mode : Mode
  printed : List Emission

/-- The lines are evaluated without an error, each on the machine that the one before has left. -/
inductive Rounds : List String → Machine → Machine → List Round → Prop where
  | nil (m : Machine) : Rounds [] m m []
  | cons {line : String} {lines : List String} {m m₁ m' : Machine} {pieces : List Emission}
      {rounds : List Round} :
      Reaches (fun fuel => eval fuel line) m (.ok () m₁) → m₁.output = pieces ++ m.output →
        Rounds lines m₁ m' rounds → Rounds (line :: lines) m m' (⟨m.mode, pieces⟩ :: rounds)

/-- What the lines print, newest piece first. -/
def plain (rounds : List Round) : List Emission :=
  rounds.reverse.flatMap Round.printed

/-- What the dialogue prints: a prompt before what each line prints, a last prompt and the farewell. -/
def prompted (rounds : List Round) (last : Mode) : List Emission :=
  ⟨.out, farewell⟩ :: ⟨.out, prompt last⟩ ::
    rounds.reverse.flatMap fun round => round.printed ++ [⟨.out, prompt round.mode⟩]

variable {lines : List String} {m m' : Machine} {rounds : List Round}

theorem Rounds.output (h : Rounds lines m m' rounds) : m'.output = plain rounds ++ m.output := by
  induction h with
  | nil m => rfl
  | cons _ hout _ ih => simp [ih, hout, plain]

theorem Rounds.first {line : String} (h : Rounds (line :: lines) m m' rounds) :
    ∃ m₁ pieces rest, rounds = ⟨m.mode, pieces⟩ :: rest ∧
      Reaches (fun fuel => eval fuel line) m (.ok () m₁) ∧ m₁.output = pieces ++ m.output ∧
      Rounds lines m₁ m' rest := by
  cases h with
  | cons hline hout hrest => exact ⟨_, _, _, rfl, hline, hout, hrest⟩

theorem Rounds.eq_nil (h : Rounds [] m m' rounds) : rounds = [] ∧ m' = m := by
  cases h
  exact ⟨rfl, rfl⟩

/-- Nothing is told of errors but what the lines themselves tell. -/
theorem printedOn_err_prompted (rounds : List Round) (last : Mode) :
    printedOn .err (prompted rounds last) = printedOn .err (plain rounds) := by
  have hlast : printedOn .err (prompted rounds last) = printedOn .err
      (rounds.reverse.flatMap fun round => round.printed ++ [⟨.out, prompt round.mode⟩]) := by
    simp [prompted, printedOn]
  rw [hlast, plain]
  induction rounds.reverse with
  | nil => rfl
  | cons round rounds ih =>
      simp only [List.flatMap_cons, printedOn_append, ih]
      simp [printedOn]

/-- Asked for one by one, the lines are evaluated as they are one after the other. -/
theorem Rounds.converse (h : Rounds lines m m' rounds) (output : List Emission) :
    ∃ least, ∀ fuel, least ≤ fuel → Repl.converse fuel lines { m with output := output } =
      some { m' with output := prompted rounds m'.mode ++ output } := by
  induction h generalizing output with
  | nil m => exact ⟨0, fun _ _ => rfl⟩
  | @cons line lines m m₁ m' pieces rounds hline hout _ ih =>
      obtain ⟨pieces', hout', n, hn⟩ := reaches_evalSource_with_output hline (⟨.out, prompt m.mode⟩ :: output)
      obtain rfl : pieces = pieces' := List.append_cancel_right (hout.symm.trans hout')
      obtain ⟨k, hk⟩ := ih (pieces ++ ⟨.out, prompt m.mode⟩ :: output)
      -- steps enough for this line and for those behind it
      refine ⟨max n k, fun fuel hfuel => ?_⟩
      have hanswer : answer fuel line (ask { m with output := output }) =
          some { m₁ with output := pieces ++ ⟨.out, prompt m.mode⟩ :: output } := by
        have heval : eval fuel line { m with output := ⟨.out, prompt m.mode⟩ :: output } = _ :=
          eval_steady line (Nat.le_trans (Nat.le_max_left n k) hfuel) _ _ hn
        change answer fuel line { m with output := ⟨.out, prompt m.mode⟩ :: output } = _
        rw [answer, heval]
      have hprompted : prompted (⟨m.mode, pieces⟩ :: rounds) m'.mode ++ output =
          prompted rounds m'.mode ++ (pieces ++ ⟨.out, prompt m.mode⟩ :: output) := by
        simp [prompted]
      rw [Repl.converse, hanswer, hprompted]
      exact hk fuel (Nat.le_trans (Nat.le_max_right n k) hfuel)

theorem eval_ofList (fuel : Nat) (text : List Char) :
    eval fuel (String.ofList text) = evalSource fuel (Source.ofChars bufferName text) := by
  rw [eval, String.toList_ofList]

/-- The lines of a text that succeeds succeed one after the other, by induction on the text that has not
been divided into lines. -/
theorem rounds_of_evalSource (part rest : List Char)
    (h : Reaches (fun fuel => evalSource fuel (Source.ofChars bufferName (part.reverse ++ rest))) m (.ok () m'))
    (hself : m.SelfContainedLines (linesFrom part rest)) :
    ∃ rounds, Rounds (linesFrom part rest) m m' rounds := by
  fun_induction linesFrom part rest generalizing m with
  | case1 =>
      have hempty : Reaches (fun fuel => evalSource fuel (Source.ofChars bufferName [])) m (.ok () m) :=
        reaches_evalSource_iff.mpr ⟨_, ⟨1, Reads.build_of_next_eq_none 0 rfl⟩, rfl⟩
      cases (evalSource_steady _).reaches_unique h hempty
      exact ⟨[], .nil m'⟩
  | case2 part =>
      rw [List.append_nil] at h
      simp only [← eval_ofList] at h
      obtain ⟨pieces, hout, _⟩ := reaches_evalSource_with_output h []
      exact ⟨_, .cons h hout (.nil m')⟩
  | case3 part rest ih =>
      obtain ⟨hline, hlines⟩ := hself
      rw [SelfContained, String.toList_ofList] at hline
      -- the line is evaluated without its carriage return, the text with it
      have hunreturned := reaches_evalSource_of_words (Source.words_dropReturn bufferName part rest) h
      obtain ⟨m₁, hfirst, hbehind⟩ := reaches_evalSource_split hline hunreturned
      simp only [← eval_ofList] at hfirst
      obtain ⟨pieces, hout, _⟩ := reaches_evalSource_with_output hfirst []
      obtain ⟨rounds, hrounds⟩ := ih hbehind (hlines m₁ hfirst)
      exact ⟨_, .cons hfirst hout hrounds⟩
  | case4 part c rest _ ih =>
      apply ih _ hself
      simpa using h

end Repl

/-- The dialogue agrees with the script.  If loading a file succeeds, and no line of its text reads on
behind its end, then entering the lines in a dialogue meets no error and ends with the same machine.  What
is printed is what the script prints, with the prompt before each line and at the end, and the farewell. -/
theorem converse_of_load {m m' : Machine} {path text : String} {content : FileContent}
    (htext : content.text = .ok text)
    (hload : Reaches (fun fuel => load fuel path content) m (.ok () m'))
    (hself : m.SelfContainedLines (Repl.lines text)) :
    ∃ rounds, Repl.Rounds (Repl.lines text) m m' rounds ∧ m'.output = Repl.plain rounds ++ m.output ∧
      printedOn .err (Repl.prompted rounds m'.mode ++ m.output) = m'.printed .err ∧
      ∃ least, ∀ fuel, least ≤ fuel → Repl.converse fuel (Repl.lines text) m =
        some { m' with output := Repl.prompted rounds m'.mode ++ m.output } := by
  simp only [load, htext] at hload
  have hbuffer : Reaches (fun fuel => evalSource fuel (Source.ofChars bufferName text.toList)) m (.ok () m') :=
    reaches_evalSource_of_words (Source.words_name path bufferName text.toList) hload
  obtain ⟨rounds, hrounds⟩ := Repl.rounds_of_evalSource [] text.toList hbuffer hself
  refine ⟨rounds, hrounds, hrounds.output, ?_, hrounds.converse m.output⟩
  rw [Machine.printed, hrounds.output, printedOn_append, printedOn_append, Repl.printedOn_err_prompted]

theorem FileContent.text_toUTF8 (text : String) : FileContent.text (.ok text.toUTF8) = .ok text := by
  unfold FileContent.text
  simp [String.fromUTF8?, text.isValidUTF8, String.fromUTF8]

/-- A definition that is left open at the end of a line. -/
def Repl.openDefinition : String := ": seven 7\r\n; 7 .\n"

/-- The machine at the end of that line. -/
def Repl.openMachine : Machine :=
  { (Machine.new 8).begun "seven" with
    heap := ((Heap.ofCapacity 8).push (.op (.primitive .lit))).push (.int 7) }

theorem Repl.eval_openMachine :
    Reaches (fun fuel => eval fuel ": seven 7") (Machine.new 8) (.ok () openMachine) := by
  have hrun : (eval 20 ": seven 7").passes (Machine.new 8) (fun m => decide (m = openMachine)) = true := by
    decide +kernel
  obtain ⟨_, _, hrun, htest⟩ := of_passes hrun
  obtain rfl := of_decide_eq_true htest
  exact ⟨20, hrun⟩

theorem Repl.selfContained_openDefinition :
    (Machine.new 8).SelfContainedLines [": seven 7", "; 7 ."] := by
  have hfirst : (Machine.new 8).SelfContained ": seven 7" :=
    .colon rfl rfl rfl rfl (.word none rfl rfl nofun ⟨0, rfl⟩ rfl (.of_next_eq_none rfl))
  have hsemicolon : ∀ p ∈ some Primitive.semicolon, ∀ s, ¬ p.AsksBeyond s := by
    rintro _ ⟨⟩ s hs
    exact hs
  have hdisplay : ∀ p ∈ some Primitive.display, ∀ s, ¬ p.AsksBeyond s := by
    rintro _ ⟨⟩ s hs
    exact hs
  have hsecond : openMachine.SelfContained "; 7 ." :=
    ReadsWithin.word (some .semicolon) rfl rfl hsemicolon ⟨0, rfl⟩ rfl <|
      .word none rfl rfl nofun ⟨0, rfl⟩ rfl <|
        .word (some .display) rfl rfl hdisplay ⟨0, rfl⟩ rfl (.of_next_eq_none rfl)
  refine ⟨hfirst, fun m₁ hm₁ => ?_⟩
  have hend := (eval_steady ": seven 7").reaches_unique hm₁ eval_openMachine
  obtain ⟨_, rfl⟩ := EStateM.Result.ok.inj hend
  exact ⟨hsecond, fun _ _ => trivial⟩

/-- The second line is asked for in the middle of the definition. -/
theorem converse_of_load_of_open_definition :
    ∃ m', Reaches (fun fuel => load fuel "seven.fs" (.ok Repl.openDefinition.toUTF8)) (Machine.new 8)
        (.ok () m') ∧
      (Machine.new 8).SelfContainedLines (Repl.lines Repl.openDefinition) ∧ m'.transcript = "7\n" ∧
      ∃ fuel m, Repl.converse fuel (Repl.lines Repl.openDefinition) (Machine.new 8) = some m ∧
        m = { m' with output := m.output } ∧ m.transcript = "> compile> 7\n> bye\n" := by
  have hlines : Repl.lines Repl.openDefinition = [": seven 7", "; 7 ."] := by decide +kernel
  have hself : (Machine.new 8).SelfContainedLines (Repl.lines Repl.openDefinition) :=
    hlines ▸ Repl.selfContained_openDefinition
  have hscript : (evalSource 20 (.ofChars "seven.fs" Repl.openDefinition.toList)).passes (Machine.new 8)
      (fun m => decide (m.mode = .interpret ∧ m.output = [⟨.out, "7\n"⟩])) = true := by
    decide +kernel
  obtain ⟨_, m', hscript, htest⟩ := of_passes hscript
  obtain ⟨hmode, hout⟩ := of_decide_eq_true htest
  have htext := FileContent.text_toUTF8 Repl.openDefinition
  have hload : Reaches (fun fuel => load fuel "seven.fs" (.ok Repl.openDefinition.toUTF8)) (Machine.new 8)
      (.ok () m') := by
    simp only [load, htext]
    exact ⟨20, hscript⟩
  obtain ⟨rounds, hrounds, _, _, fuel, hfuel⟩ :=
    @converse_of_load (Machine.new 8) m' "seven.fs" Repl.openDefinition (.ok Repl.openDefinition.toUTF8)
      htext hload hself
  rw [hlines] at hrounds
  obtain ⟨m₁, pieces, _, rfl, hfirst, hpieces, hrest⟩ := hrounds.first
  have hend := (eval_steady ": seven 7").reaches_unique hfirst Repl.eval_openMachine
  obtain ⟨_, rfl⟩ := EStateM.Result.ok.inj hend
  obtain ⟨m₂, pieces', _, rfl, _, hpieces', hnil⟩ := hrest.first
  obtain ⟨rfl, rfl⟩ := hnil.eq_nil
  have hsilent : pieces = [] := (List.append_eq_nil_iff.mp hpieces.symm).1
  have hseven : pieces' = [⟨.out, "7\n"⟩] := by
    rw [hout] at hpieces'
    exact (List.append_nil pieces').symm.trans hpieces'.symm
  refine ⟨m', hload, hself, ?_, fuel, _, hfuel fuel (Nat.le_refl _), rfl, ?_⟩
  · rw [transcript, hout]
    rfl
  · rw [hsilent, hseven, hmode]
    rfl

end Forth

/-
Evaluation composes over concatenation.  Where no word of the first text reads on behind its end, the
two texts on lines of their own are evaluated together as they are one after the other; mode, stacks and
a definition left open carry over.  Only the lines of the second text are further down.
-/
import Forth.Proofs.Pairing
import Forth.Proofs.SourceText

namespace Forth

open Machine Run

/-! ### Reading on behind the end -/

/-- The primitive asks for a token behind the last one of the source. -/
def Primitive.AsksBeyond (p : Primitive) (s : Source) : Prop :=
  match p with
  | .colon => s.next.1 = none
  | .comment => ∀ token ∈ s.readAll.1, token.text ≠ ")"
  | _ => False

namespace Machine

/-- Reading the source comes to execute a primitive, on the machine given last. -/
inductive BuildExecutes : Machine → Primitive → Machine → Prop where
  | here {m m₁ m' : Machine} {token : Token} {p : Primitive} :
      nextToken m = .ok (some token) m₁ → DispatchExecutes m₁ token.text p m' → BuildExecutes m p m'
  | later {m m₁ m₂ m' : Machine} {token : Token} {p : Primitive} :
      nextToken m = .ok (some token) m₁ →
        Reaches (fun fuel => dispatch fuel token.text) m₁ (.ok () m₂) →
          BuildExecutes m₂ p m' → BuildExecutes m p m'

/-- No word that comes to be executed in the source asks for a token behind its end. -/
def ReadsWithin (m : Machine) (source : Source) : Prop :=
  ∀ p m' s, BuildExecutes { m with source := some source } p m' → m'.source = some s → ¬ p.AsksBeyond s

/-- No word asks for a token behind the end of the text while it is evaluated. -/
def SelfContained (m : Machine) (text : String) : Prop :=
  m.ReadsWithin (Source.ofChars bufferName text.toList)

end Machine

/-! ### Machines that read different sources -/

namespace Pairing

variable {S : Source → Source → Prop} {allows : Primitive → Source → Prop}

/-- Machines that are the same but for the sources they read. -/
def onSources (S : Source → Source → Prop) (allows : Primitive → Source → Prop) : Pairing where
  related m m' := ∃ s s', m.source = some s ∧ S s s' ∧ m' = { m with source := some s' }
  excused _ := False
  admits _ := True
  allows p m := ∀ s, m.source = some s → allows p s

/-- Only the words that read on see the source. -/
theorem onStreams_onSources
    (hnext : ∀ s s', S s s' → allows .colon s →
      s'.next.1.map Token.text = s.next.1.map Token.text ∧ S s.next.2 s'.next.2)
    (hcomment : ∀ s s', S s s' → allows .comment s → S (s.skipPast ")") (s'.skipPast ")")) :
    OnStreams (onSources S allows) where
  admits_all _ := trivial
  same := by
    rintro m _ ⟨s, s', _, _, rfl⟩
    rfl
  moves := by
    rintro m _ m₁ ⟨s, s', hs, hS, rfl⟩ hsource houtput
    exact ⟨s, s', hsource.trans hs, hS, by rw [← houtput]⟩
  withOutput := by
    rintro m _ _ ⟨s, s', hs, hS, rfl⟩
    exact ⟨s, s', hs, hS, rfl⟩
  nextToken := by
    rintro m _ ⟨s, s', hs, hS, rfl⟩ hallows
    obtain ⟨htext, hrest⟩ := hnext s s' hS (hallows s hs)
    have hread : nextToken m = .ok s.next.1 { m with source := some s.next.2 } := by
      simp only [Machine.nextToken, hs]
    have hread' : nextToken { m with source := some s' } =
        .ok s'.next.1 { m with source := some s'.next.2 } := rfl
    unfold ReadsAlike
    rw [hread, hread']
    cases htoken : s.next.1 with
    | none =>
        rw [htoken, Option.map_none, Option.map_eq_none_iff] at htext
        rw [htext]
        exact Or.inl ⟨_, _, rfl, rfl, _, _, rfl, hrest, rfl⟩
    | some token =>
        rw [htoken, Option.map_some, Option.map_eq_some_iff] at htext
        obtain ⟨token', htoken', htext⟩ := htext
        rw [htoken']
        exact Or.inr ⟨token, token', _, _, rfl, rfl, htext, _, _, rfl, hrest, rfl⟩
  comment := by
    rintro m _ ⟨s, s', hs, hS, rfl⟩ hallows
    exact ⟨_, _, by rw [hs, Option.map_some], hcomment s s' hS (hallows s hs), rfl⟩

/-- A machine beside one whose source has more lines at its end.  The name and the text of the first
source stay what they are. -/
def extending (name : String) (text tail : List Char) : Pairing :=
  onSources (fun s s' => s.name = name ∧ s.text = text ∧ s' = s.extended ('\n' :: tail))
    fun p s => ¬ p.AsksBeyond s

theorem onWords_extending (name : String) (text tail : List Char) :
    OnWords (extending name text tail) := by
  refine (onStreams_onSources ?_ ?_).onWords
  · rintro s _ ⟨hname, htext, rfl⟩ hwithin
    rcases hnext : s.next with ⟨_ | token, s₁⟩
    · exact absurd (congrArg Prod.fst hnext) hwithin
    · have hname₁ := s.name_next
      have htext₁ := s.text_next
      rw [hnext] at hname₁ htext₁
      rw [Source.next_extended rfl hnext]
      exact ⟨rfl, hname₁.trans hname, htext₁.trans htext, rfl⟩
  · rintro s _ ⟨hname, htext, rfl⟩ hwithin
    have hclosed : ∃ token ∈ s.readAll.1, token.text = ")" := by
      simpa [Primitive.AsksBeyond] using hwithin
    refine ⟨?_, ?_, Source.skipPast_extended rfl hclosed⟩
    · exact Source.skipPast_induction (motive := fun s => s.name = name)
        (fun s h => s.name_next.trans h) hname
    · exact Source.skipPast_induction (motive := fun s => s.text = text)
        (fun s h => s.text_next.trans h) htext

/-- A machine beside one that has read more lines before. -/
def shifting (front : List Char) : Pairing :=
  onSources (fun s s' => s' = s.shifted front) fun _ _ => True

theorem onText_shifting (front : List Char) : OnText (shifting front) where
  toOnWords := by
    refine (onStreams_onSources ?_ ?_).onWords
    · rintro s _ rfl _
      rw [Source.next_shifted, Option.map_map]
      exact ⟨rfl, rfl⟩
    · rintro s _ rfl _
      exact Source.skipPast_shifted s front
  allows_all _ _ _ _ := trivial

end Pairing

/-! ### Evaluating a source -/

/-- The outcome with the place of the last failure so many lines further down. -/
def Outcome.lowered (lines : Nat) : Outcome Unit → Outcome Unit
  | .ok _ m => .ok () m
  | .error e m => .error e
      { m with
        lastError := m.lastError.map fun failure =>
          { failure with location := failure.location.map (Location.lowered lines) } }

namespace Machine

variable {m m' : Machine} {s s' s₁ : Source} {token : Token} {r : Outcome Unit}

/-- Behind a word that was executed, reading goes on from where the word has left the machine. -/
theorem reaches_build_of_dispatch (hnext : s.next = (some token, s'))
    (hword : Reaches (fun fuel => dispatch fuel token.text) { m with source := some s' } (.ok () m')) :
    Reaches build { m with source := some s } r ↔ Reaches build m' r := by
  constructor
  · intro hr
    obtain ⟨fuel, hfuel⟩ := Reaches.succ rfl hr
    have hbind : Reaches (fun fuel => dispatch fuel token.text >>= fun _ => build fuel)
        { m with source := some s' } r := ⟨fuel, (Reads.build_succ fuel hnext).symm.trans hfuel⟩
    rcases Reaches.of_bind_family hbind with ⟨_, m₁, hfirst, hrest⟩ | ⟨e, m₁, hfirst, _⟩
    · cases (Reads.dispatch_steady token.text).reaches_unique hfirst hword
      exact hrest
    · cases (Reads.dispatch_steady token.text).reaches_unique hfirst hword
  · intro hr
    apply Reaches.of_succ
    obtain ⟨fuel, hfuel⟩ := Reaches.bind_ok (f := fun fuel _ => build fuel)
      (Reads.dispatch_steady token.text) Reads.build_steady hword hr
    exact ⟨fuel, (Reads.build_succ fuel hnext).trans hfuel⟩

/-- What is executed behind a word of the source is executed in the source. -/
theorem ReadsWithin.behind (hnext : s.next = (some token, s')) (h : m.ReadsWithin s)
    (hword : Reaches (fun fuel => dispatch fuel token.text) { m with source := some s' }
      (.ok () { m' with source := some s₁ })) : m'.ReadsWithin s₁ := by
  intro p m₂ s₂ hexecutes
  refine h p m₂ s₂ (.later ?_ hword hexecutes)
  simp only [nextToken, hnext]

theorem ReadsWithin.of_next_eq_none (h : s.next.1 = none) : m.ReadsWithin s := by
  intro p m' s' hexecutes
  cases hexecutes with
  | here hnext _ =>
      simp only [nextToken, h] at hnext
      cases hnext
  | later hnext _ _ =>
      simp only [nextToken, h] at hnext
      cases hnext

/-- The words of a source read within it if the first one does, and the others where it has led. -/
theorem ReadsWithin.of_next (hnext : s.next = (some token, s'))
    (hword : ∀ p m₁ s₁, DispatchExecutes { m with source := some s' } token.text p m₁ →
      m₁.source = some s₁ → ¬ p.AsksBeyond s₁)
    (hm' : Reaches (fun fuel => dispatch fuel token.text) { m with source := some s' }
      (.ok () { m' with source := some s₁ }))
    (hrest : m'.ReadsWithin s₁) : m.ReadsWithin s := by
  have hread : nextToken { m with source := some s } = .ok (some token) { m with source := some s' } := by
    simp only [nextToken, hnext]
  intro p m₂ s₂ hexecutes
  cases hexecutes with
  | here hnext' hfirst =>
      cases hread.symm.trans hnext'
      exact hword p m₂ s₂ hfirst
  | later hnext' hreaches hlater =>
      cases hread.symm.trans hnext'
      cases (Reads.dispatch_steady token.text).reaches_unique hreaches hm'
      exact hrest p m₂ s₂ hlater

/-- A colon with its name reads within the source. -/
theorem ReadsWithin.colon {name : Token} (hmode : m.mode = .interpret)
    (hnext : s.next = (some token, s'))
    (hcolon : m.dictionary.find? token.text = some (.primitive .colon))
    (hname : s'.next = (some name, s₁)) (hrest : (m.begun name.text).ReadsWithin s₁) :
    m.ReadsWithin s := by
  refine .of_next hnext ?_ ⟨0, Reads.dispatch_colon 0 hmode hcolon hname⟩ hrest
  rintro p m₁ s₂ ⟨op, hfind, _, hexecutes⟩ hs₂ hbeyond
  cases hcolon.symm.trans hfind
  cases hexecutes
  cases hs₂
  rw [Primitive.AsksBeyond, hname] at hbeyond
  cases hbeyond

/-! ### The first text -/

/-- A word of the source is executed alike with more lines behind the source. -/
theorem answers_dispatch_extended (tail : List Char) (hwithin : m.ReadsWithin s)
    (hnext : s.next = (some token, s')) (fuel : Nat) :
    (Pairing.extending s.name s.text tail).Answers
      (dispatch fuel token.text { m with source := some s' })
      (dispatch fuel token.text { m with source := some (s'.extended ('\n' :: tail)) }) := by
  have hname : s'.name = s.name := by simpa only [hnext] using s.name_next
  have htext : s'.text = s.text := by simpa only [hnext] using s.text_next
  refine (Pairing.onWords_extending _ _ _).answers_dispatch fuel token.text
    ⟨s', _, rfl, ⟨hname, htext, rfl⟩, rfl⟩ ?_
  intro p m' hexecutes s₁ hs₁
  refine hwithin p m' s₁ (.here ?_ hexecutes) hs₁
  simp only [nextToken, hnext]

/-- Reading a source with more lines behind it: either reading comes to the cut, and goes on there; or
it fails before, and fails alike. -/
theorem build_extended (tail : List Char) {fuel : Nat} (hwithin : m.ReadsWithin s)
    (hr : build fuel { m with source := some s } = some r) :
    (∃ (m₁ : Machine) (s₁ : Source), r = .ok () { m₁ with source := some s₁.next.2 } ∧
      s₁.next.1 = none ∧ s₁.name = s.name ∧ s₁.text = s.text ∧
      ∀ r', Reaches build { m with source := some (s.extended ('\n' :: tail)) } r' ↔
        Reaches build { m₁ with source := some (s₁.extended ('\n' :: tail)) } r') ∨
    ∃ e, ∃ (m₁ : Machine) (s₁ : Source), r = .error e { m₁ with source := some s₁ } ∧
      Reaches build { m with source := some (s.extended ('\n' :: tail)) }
        (.error e { m₁ with source := some (s₁.extended ('\n' :: tail)) }) := by
  induction fuel generalizing m s with
  | zero => cases hr
  | succ fuel ih =>
      rcases hnext : s.next with ⟨_ | token, s'⟩
      · have hend : s.next.1 = none := by rw [hnext]
        rw [Reads.build_of_next_eq_none fuel hend] at hr
        exact Or.inl ⟨m, s, (Option.some.inj hr).symm, hend, rfl, rfl, fun _ => Iff.rfl⟩
      · have hanswers := answers_dispatch_extended tail hwithin hnext
        have hnext' : (s.extended ('\n' :: tail)).next = _ := Source.next_extended rfl hnext
        rw [Reads.build_succ fuel hnext] at hr
        rcases Run.of_bind_eq_some hr with ⟨_, m', hword, hrest⟩ | ⟨e, m', hword, rfl⟩
        · obtain ⟨_, hword', s₁, _, hs₁, ⟨hname₁, htext₁, rfl⟩, rfl⟩ :=
            Pairing.reaches_ok hanswers ⟨fuel, hword⟩
          have hm' : m' = { m' with source := some s₁ } := by rw [← hs₁]
          rw [hm'] at hword hrest
          have hreaches : ∀ r', Reaches build { m with source := some (s.extended ('\n' :: tail)) } r' ↔
              Reaches build { m' with source := some (s₁.extended ('\n' :: tail)) } r' :=
            fun r' => reaches_build_of_dispatch hnext' hword'
          rcases ih (hwithin.behind hnext ⟨fuel, hword⟩) hrest with
            ⟨m₁, s₂, hr₁, hend, hname₂, htext₂, hiff⟩ | ⟨e, m₁, s₂, hr₁, hfails⟩
          · refine Or.inl ⟨m₁, s₂, hr₁, hend, hname₂.trans hname₁, htext₂.trans htext₁, fun r' => ?_⟩
            exact (hreaches r').trans (hiff r')
          · exact Or.inr ⟨e, m₁, s₂, hr₁, (hreaches _).mpr hfails⟩
        · rcases Pairing.reaches_error hanswers ⟨fuel, hword⟩ with
            hexcused | ⟨_, hword', s₁, _, hs₁, ⟨_, _, rfl⟩, rfl⟩
          · exact hexcused.elim
          · refine Or.inr ⟨e, m', s₁, by rw [← hs₁], ?_⟩
            apply Reaches.of_succ
            obtain ⟨n, hn⟩ := Reaches.bind_error (f := fun fuel _ => build fuel) hword'
            exact ⟨n, (Reads.build_succ n hnext').trans hn⟩

/-! ### The second text -/

/-- What is read behind more lines ends alike, with a failure placed lower. -/
theorem closed_of_shifting {o o' : Option (Outcome Unit)} {front : List Char}
    (h : (Pairing.shifting ('\n' :: front)).Answers o o') (previous : Option Source) :
    o'.map (Outcome.closed previous) =
      (o.map (Outcome.closed previous)).map (Outcome.lowered (1 + front.count '\n')) := by
  rcases o with _ | ⟨_, m₁⟩ | ⟨e, m₁⟩
  · rw [show o' = none from h]
    rfl
  · obtain ⟨_, rfl, s₁, _, _, rfl, rfl⟩ := h
    rfl
  · rcases h with hexcused | ⟨_, rfl, s₁, _, hs₁, rfl, rfl⟩
    · exact hexcused.elim
    · simp only [Option.map_some, Outcome.closed, Outcome.lowered, hs₁, Option.bind_some,
        Source.lastLocation_shifted]

/-- From the cut on, the source is read as the second text alone. -/
theorem evalSource_cut (fuel : Nat) (m : Machine) (b : List Char) (hend : s.next.1 = none) :
    evalSource fuel (s.extended ('\n' :: b)) m =
      (evalSource fuel (Source.ofChars s.name b) m).map
        (Outcome.lowered (1 + s.text.count '\n')) := by
  obtain ⟨htoken, hbehind⟩ := Source.next_cut (b := b) hend
  rw [evalSource_eq, evalSource_eq]
  cases fuel with
  | zero => rfl
  | succ fuel =>
      rcases hnext : (Source.ofChars s.name b).next with ⟨_ | token, s'⟩
      · rw [hnext] at htoken
        rw [Reads.build_of_next_eq_none fuel htoken, Reads.build_of_next_eq_none fuel (by rw [hnext])]
        rfl
      · rw [hnext] at htoken hbehind
        have hnext' : (s.extended ('\n' :: b)).next =
            (some (token.shifted ('\n' :: s.text.reverse)), s'.shifted ('\n' :: s.text.reverse)) :=
          Prod.ext htoken (hbehind nofun)
        have hP := Pairing.onText_shifting ('\n' :: s.text.reverse)
        rw [Reads.build_succ fuel hnext, Reads.build_succ fuel hnext', ← List.count_reverse]
        refine closed_of_shifting (Pairing.answers_bind ?_ fun _ m₁ m₁' _ h₁ => ?_) m.source
        · exact hP.answers_dispatch fuel token.text ⟨s', _, rfl, rfl, rfl⟩ fun p m₁ _ =>
            hP.allows_all p m₁
        · exact hP.answers_build fuel h₁

theorem reaches_evalSource_cut {b : List Char} (hend : s.next.1 = none) :
    Reaches (fun fuel => evalSource fuel (s.extended ('\n' :: b))) m r ↔
      ∃ r₁, Reaches (fun fuel => evalSource fuel (Source.ofChars s.name b)) m r₁ ∧
        r = r₁.lowered (1 + s.text.count '\n') := by
  constructor
  · rintro ⟨fuel, hfuel⟩
    have hcut := (evalSource_cut fuel m b hend).symm.trans hfuel
    obtain ⟨r₁, hr₁, hlowered⟩ := Option.map_eq_some_iff.mp hcut
    exact ⟨r₁, ⟨fuel, hr₁⟩, hlowered.symm⟩
  · rintro ⟨r₁, ⟨fuel, hfuel⟩, hlowered⟩
    refine ⟨fuel, (evalSource_cut fuel m b hend).trans ?_⟩
    exact Option.map_eq_some_iff.mpr ⟨r₁, hfuel, hlowered.symm⟩

end Machine

/-- Evaluation composes over concatenation.  If the first text succeeds, evaluating both texts, each on
lines of its own, is evaluating the second one where the first has ended; a failure there is placed
lower by the lines of the first text.  If the first text fails, both fail with it, at the same place. -/
theorem eval_append_newline {m : Machine} {a : String} (h : m.SelfContained a) (b : String) :
    (∀ m₁, Reaches (fun fuel => eval fuel a) m (.ok () m₁) → ∀ r,
      Reaches (fun fuel => eval fuel (a ++ "\n" ++ b)) m r ↔
        ∃ r₁, Reaches (fun fuel => eval fuel b) m₁ r₁ ∧
          r = r₁.lowered (1 + a.toList.count '\n')) ∧
    ∀ e m₁, Reaches (fun fuel => eval fuel a) m (.error e m₁) →
      Reaches (fun fuel => eval fuel (a ++ "\n" ++ b)) m (.error e m₁) := by
  have hboth : Source.ofChars bufferName (a ++ "\n" ++ b).toList =
      (Source.ofChars bufferName a.toList).extended ('\n' :: b.toList) := by
    simp [Source.ofChars, Source.extended]
  unfold eval
  rw [hboth]
  constructor
  · intro m₁ hfirst r
    obtain ⟨r₀, ⟨fuel, hfuel⟩, hclosed⟩ := reaches_evalSource_iff.mp hfirst
    rcases build_extended b.toList h hfuel with
      ⟨m₂, s, rfl, hend, hname, htext, hiff⟩ | ⟨e, m₂, s, rfl, _⟩
    · cases hclosed
      have hcut : Reaches (fun fuel => evalSource fuel
            ((Source.ofChars bufferName a.toList).extended ('\n' :: b.toList))) m r ↔
          Reaches (fun fuel => evalSource fuel (s.extended ('\n' :: b.toList)))
            { m₂ with source := m.source } r := by
        rw [reaches_evalSource_iff, reaches_evalSource_iff]
        simp only [hiff]
      have hsecond := reaches_evalSource_cut (m := { m₂ with source := m.source }) (b := b.toList)
        (r := r) hend
      rw [hname, htext] at hsecond
      exact hcut.trans hsecond
    · cases hclosed
  · intro e m₁ hfirst
    obtain ⟨r₀, ⟨fuel, hfuel⟩, hclosed⟩ := reaches_evalSource_iff.mp hfirst
    rcases build_extended b.toList h hfuel with ⟨m₂, s, rfl, _⟩ | ⟨e, m₂, s, rfl, hfails⟩
    · cases hclosed
    · cases hclosed
      refine reaches_evalSource_iff.mpr ⟨_, hfails, ?_⟩
      simp only [Outcome.closed, Option.bind_some, Source.lastLocation_extended]

/-- A definition left open by the first text, and a word of the second that is not known: it is placed
on the second line. -/
theorem eval_append_newline_of_open_definition :
    (Machine.new 8).SelfContained ": square" ∧
      ∃ m₁ m₂, Reaches (fun fuel => eval fuel ": square") (Machine.new 8) (.ok () m₁) ∧
        m₁.mode = .compile ∧
        Reaches (fun fuel => eval fuel "dup * ; 3 square x") m₁ (.error (.undefinedWord "x") m₂) ∧
        (m₂.lastError.bind Failure.location).map Location.line = some 0 ∧
        Reaches (fun fuel => eval fuel (": square" ++ "\n" ++ "dup * ; 3 square x")) (Machine.new 8)
          (Outcome.lowered 1 (.error (.undefinedWord "x") m₂)) := by
  have hself : (Machine.new 8).SelfContained ": square" :=
    .colon rfl rfl rfl rfl (.of_next_eq_none rfl)
  have hrun : (eval 20 ": square").passes (Machine.new 8) (fun m₁ =>
      (eval 20 "dup * ; 3 square x").fails m₁ fun e m₂ =>
        decide (m₁.mode = .compile ∧ e = .undefinedWord "x" ∧
          (m₂.lastError.bind Failure.location).map Location.line = some 0)) = true := by
    decide +kernel
  obtain ⟨_, m₁, hfirst, htest⟩ := of_passes hrun
  obtain ⟨e, m₂, hsecond, htest⟩ := of_fails htest
  obtain ⟨hmode, rfl, hline⟩ := of_decide_eq_true htest
  refine ⟨hself, m₁, m₂, ⟨20, hfirst⟩, hmode, ⟨20, hsecond⟩, hline, ?_⟩
  exact ((eval_append_newline hself _).1 m₁ ⟨20, hfirst⟩ _).mpr ⟨_, ⟨20, hsecond⟩, rfl⟩

end Forth

/-
The record of the last failure.  Where an evaluation fails, its source has been read up to some token, and
the record has the error with the place of that token; a success leaves the record as it is.  A file that
cannot be read is no failure of an evaluation, so it is never recorded.
-/
import Forth.Proofs.Failing
import Forth.Proofs.Rewording
import Forth.Proofs.SessionInvariant

namespace Forth

open Machine Run

theorem Action.Succeeds.nextToken : nextToken.Succeeds := by
  intro m
  unfold Machine.nextToken
  split <;> exact ⟨_, _, rfl⟩

/-! ### Causes -/

/-- A cause that lies outside the machine. -/
def Error.isExternal : Error → Bool
  | .unreadableFile _ _ => true
  | _ => false

/-- If the action fails, then by what happens in the machine. -/
def Action.FailsInternally {α : Type} (x : Action α) : Prop :=
  ∀ m e m', x m = .error e m' → e.isExternal = false

/-- If the computation fails, then by what happens in the machine. -/
def Run.FailsInternally {α : Type} (x : Run α) : Prop :=
  ∀ m e m', x m = some (.error e m') → e.isExternal = false

namespace Action.FailsInternally

variable {α β : Type} {x : Action α} {f : α → Action β}

theorem bind (hx : x.FailsInternally) (hf : ∀ a, (f a).FailsInternally) :
    (x >>= f).FailsInternally := by
  intro m e m' h
  rcases Action.bind_cases h with hfirst | ⟨a, m₁, _, hrest⟩
  · exact hx m e m' hfirst
  · exact hf a m₁ e m' hrest

theorem of_succeeds (h : x.Succeeds) : x.FailsInternally := by
  intro m e m' hx
  obtain ⟨_, _, hok⟩ := h m
  cases hok.symm.trans hx

theorem throw {e : Error} (he : e.isExternal = false) : (throw e : Action α).FailsInternally := by
  intro m e' m' h
  cases h
  exact he

theorem demand {r : Except Error α} (h : ∀ e, r = .error e → e.isExternal = false) :
    (demand r).FailsInternally := by
  cases r with
  | ok a => exact of_succeeds (.pure a)
  | error e => exact throw (h e rfl)

theorem push (c : Cell) : (push c).FailsInternally :=
  of_succeeds (.push c)

theorem pop : pop.FailsInternally := by
  intro m e m' h
  unfold Machine.pop at h
  split at h <;> cases h
  rfl

theorem top : top.FailsInternally := by
  intro m e m' h
  unfold Machine.top at h
  split at h <;> cases h
  rfl

theorem popReturn : popReturn.FailsInternally := by
  intro m e m' h
  unfold Machine.popReturn at h
  split at h <;> cases h
  rfl

theorem peekReturn (distance : Nat) : (peekReturn distance).FailsInternally := by
  intro m e m' h
  unfold Machine.peekReturn at h
  split at h <;> cases h
  rfl

theorem pushReturn (c : Cell) : (pushReturn c).FailsInternally := by
  intro m e m' h
  unfold Machine.pushReturn at h
  split at h <;> cases h
  rfl

theorem fetch (address : Nat) : (fetch address).FailsInternally := by
  intro m e m' h
  unfold Machine.fetch at h
  split at h <;> cases h
  rfl

theorem store (address : Nat) (c : Cell) : (store address c).FailsInternally := by
  intro m e m' h
  unfold Machine.store at h
  split at h <;> cases h
  rfl

theorem append (c : Cell) : (append c).FailsInternally := by
  intro m e m' h
  unfold Machine.append at h
  split at h <;> cases h
  rfl

theorem jumpBy (offset : Int64) : (jumpBy offset).FailsInternally := by
  intro m e m' h
  unfold Machine.jumpBy at h
  dsimp only at h
  split at h <;> cases h
  rfl

theorem toInt (c : Cell) : (Machine.demand c.toInt).FailsInternally := by
  refine demand fun e h => ?_
  cases c <;> cases h <;> rfl

theorem toFlag (c : Cell) : (Machine.demand c.toFlag).FailsInternally := by
  refine demand fun e h => ?_
  cases c <;> cases h <;> rfl

theorem toOp (c : Cell) : (Machine.demand c.toOp).FailsInternally := by
  refine demand fun e h => ?_
  cases c <;> cases h <;> rfl

theorem toAddress (c : Cell) : (Machine.demand c.toAddress).FailsInternally := by
  refine demand fun e h => ?_
  unfold Cell.toAddress at h
  cases c with
  | int n =>
      simp only [Cell.toInt] at h
      split at h <;> cases h
      rfl
  | flag b => cases h; rfl
  | op o => cases h; rfl

theorem sameKindEq (a b : Cell) : (Machine.demand (a.sameKindEq b)).FailsInternally := by
  refine demand fun e h => ?_
  cases a <;> cases b <;> cases h <;> rfl

theorem popInt : popInt.FailsInternally := pop.bind toInt

theorem popFlag : popFlag.FailsInternally := pop.bind toFlag

theorem popAddress : popAddress.FailsInternally := pop.bind toAddress

theorem fetchHere : fetchHere.FailsInternally := fun m => fetch m.ip m

theorem onInts (g : Int64 → Int64 → Int64) : (Primitive.onInts g).FailsInternally :=
  popInt.bind fun _ => popInt.bind fun _ => push _

theorem onFlags (g : Bool → Bool → Bool) : (Primitive.onFlags g).FailsInternally :=
  popFlag.bind fun _ => popFlag.bind fun _ => push _

theorem divide : Primitive.divide.FailsInternally := by
  refine popInt.bind fun b => popInt.bind fun a => ?_
  by_cases hb : b = 0
  · simp only [hb, ↓reduceIte]
    exact (throw rfl).bind fun _ => push _
  · simp only [hb, ↓reduceIte]
    exact (of_succeeds (.pure _)).bind fun _ => push _

theorem pushInline : Primitive.pushInline.FailsInternally :=
  fetchHere.bind fun _ => (of_succeeds .advance).bind fun _ => push _

theorem jumpInline : Primitive.jumpInline.FailsInternally :=
  fetchHere.bind fun _ => (toInt _).bind fun _ => jumpBy _

theorem nextName : nextName.FailsInternally := by
  refine bind (of_succeeds .nextToken) fun token => ?_
  cases token with
  | none => exact throw rfl
  | some token => exact of_succeeds (.pure _)

theorem execute (p : Primitive) : p.execute.FailsInternally := by
  cases p with
  | add => exact onInts _
  | sub => exact onInts _
  | mul => exact onInts _
  | div => exact divide
  | logicalAnd => exact onFlags _
  | logicalOr => exact onFlags _
  | logicalNot => exact popFlag.bind fun _ => push _
  | equal => exact pop.bind fun _ => pop.bind fun _ => (sameKindEq _ _).bind fun _ => push _
  | less => exact popInt.bind fun _ => popInt.bind fun _ => push _
  | pushTrue => exact push _
  | pushFalse => exact push _
  | drop => exact pop.bind fun _ => of_succeeds (.pure _)
  | dup => exact top.bind fun _ => push _
  | swap => exact pop.bind fun _ => pop.bind fun _ => (push _).bind fun _ => push _
  | lit => exact pushInline
  | tick => exact pushInline
  | toReturn => exact pop.bind fun _ => pushReturn _
  | fromReturn => exact popReturn.bind fun _ => push _
  | loopIndex => exact (peekReturn _).bind fun _ => push _
  | loopLimit => exact (peekReturn _).bind fun _ => push _
  | comma => exact pop.bind fun _ => append _
  | store => exact popAddress.bind fun _ => pop.bind fun _ => store _ _
  | fetch => exact popAddress.bind fun _ => (fetch _).bind fun _ => push _
  | display => exact pop.bind fun c => of_succeeds fun m => ⟨(), _, rfl⟩
  | jump => exact jumpInline
  | jumpIfFalse =>
      refine popFlag.bind fun b => ?_
      cases b with
      | true => exact of_succeeds .advance
      | false => exact jumpInline
  | colon => exact nextName.bind fun name => of_succeeds fun m => ⟨(), _, rfl⟩
  | semicolon => exact (append _).bind fun _ => of_succeeds (.setMode _)
  | immediate => exact of_succeeds .markLastWord
  | clear | here | displayStack | words | comment => exact of_succeeds fun m => ⟨(), _, rfl⟩

theorem saveIp : saveIp.FailsInternally := fun m => pushReturn _ m

theorem restoreIp : restoreIp.FailsInternally :=
  popReturn.bind fun c => (toAddress c).bind fun _ => of_succeeds fun _ => ⟨(), _, rfl⟩

theorem fetchOp : fetchOp.FailsInternally :=
  fetchHere.bind fun c => (toOp c).bind fun _ =>
    (of_succeeds .advance).bind fun _ => of_succeeds (.pure _)

theorem step (nested : Nat) : (step nested).FailsInternally := by
  refine fetchOp.bind fun op => ?_
  cases op with
  | primitive p => exact (execute p).bind fun _ => of_succeeds (.pure _)
  | body address =>
      exact saveIp.bind fun _ => of_succeeds fun _ => ⟨_, _, rfl⟩
  | exit =>
      cases nested with
      | zero => exact of_succeeds (.pure _)
      | succ outer => exact restoreIp.bind fun _ => of_succeeds (.pure _)

theorem number (word : String) : (number word).FailsInternally := by
  unfold Machine.number
  split
  · exact of_succeeds (.pure _)
  · exact throw rfl

end Action.FailsInternally

namespace Run.FailsInternally

variable {α β : Type} {x : Run α} {f : α → Run β}

theorem lift {x : Action α} (h : x.FailsInternally) : Run.FailsInternally (liftM x : Run α) :=
  fun m e m' hx => h m e m' (Option.some.inj hx)

theorem pure (a : α) : Run.FailsInternally (pure a : Run α) := by
  intro m e m' h
  cases h

theorem bind (hx : x.FailsInternally) (hf : ∀ a, (f a).FailsInternally) :
    Run.FailsInternally (x >>= f) := by
  intro m e m' h
  rcases Run.of_bind_eq_some h with ⟨a, m₁, _, hrest⟩ | ⟨e₁, m₁, hfirst, hsame⟩
  · exact hf a m₁ e m' hrest
  · cases hsame
    exact hx m e m' hfirst

theorem thread (fuel nested : Nat) : (thread fuel nested).FailsInternally := by
  induction fuel generalizing nested with
  | zero =>
      intro m e m' h
      cases h
  | succ fuel ih =>
      refine bind (lift (.step nested)) fun turn => ?_
      cases turn with
      | finished => exact pure _
      | more nested' => exact ih nested'

theorem call (fuel : Nat) (op : Op) : (call fuel op).FailsInternally := by
  cases op with
  | primitive p => exact lift (.execute p)
  | body address =>
      have hset : (liftM (setIp address) : Run Unit).FailsInternally :=
        lift (.of_succeeds fun m => ⟨(), _, rfl⟩)
      exact bind (lift .saveIp) fun _ =>
        bind (bind hset fun _ => thread fuel 0) fun _ => lift .restoreIp
  | exit => exact pure _

theorem dispatch (fuel : Nat) (word : String) : (dispatch fuel word).FailsInternally := by
  intro m e m' h
  have hnumber : (liftM (number word) : Run Int64).FailsInternally := lift (.number word)
  have happend : ∀ c, (liftM (append c) : Run Unit).FailsInternally := fun c => lift (.append c)
  rcases dispatch_cases fuel word m with ⟨op, _, _, hcall⟩ | ⟨op, _, _, _, hcompile⟩ |
    ⟨_, _, hpush⟩ | ⟨_, _, hcells⟩
  · exact call fuel op m e m' (hcall.symm.trans h)
  · exact happend _ m e m' (hcompile.symm.trans h)
  · have hboth := bind hnumber fun n => lift (.push (.int n))
    exact hboth m e m' (hpush.symm.trans h)
  · have hall := bind hnumber fun n => bind (happend (.op (.primitive .lit))) fun _ => happend (.int n)
    exact hall m e m' (hcells.symm.trans h)

theorem build (fuel : Nat) : (build fuel).FailsInternally := by
  induction fuel with
  | zero =>
      intro m e m' h
      cases h
  | succ fuel ih =>
      refine bind (lift (.of_succeeds .nextToken)) fun token => ?_
      cases token with
      | none => exact pure _
      | some token => exact bind (dispatch fuel token.text) fun _ => ih

end Run.FailsInternally

/-! ### Places -/

namespace Machine

variable {m m' m₁ : Machine} {source : Source} {fuel k : Nat} {e : Error}

/-- Reading the source comes to an error when the token at the position `k` has been read, and the ones
behind it have not. -/
def FailsAt (m : Machine) (source : Source) (k : Nat) (e : Error) : Prop :=
  ∃ m₁ s, Reaches build { m with source := some source } (.error e m₁) ∧ m₁.source = some s ∧
    s.readAll.1 = source.readAll.1.drop (k + 1)

/-- An error comes only behind a token: a source without one is read without an error. -/
theorem exists_readTo_of_build_error
    (h : build fuel { m with source := some source } = some (.error e m₁)) :
    ∃ s k, m₁.source = some s ∧ s.name = source.name ∧ s.ReadTo source.readAll.1 k := by
  have hfirst : source.next.1 ≠ none := by
    intro hend
    cases fuel with
    | zero => cases h
    | succ fuel =>
        rw [Reads.build_of_next_eq_none fuel hend] at h
        cases h
  -- the run beside itself
  have hanswers :
      (Pairing.rewording source.name source.name source.readAll.1 source.readAll.1).Answers
        (build fuel { m with source := some source }) (build fuel { m with source := some source }) :=
    answers_build_of_words rfl hfirst
  rw [h] at hanswers
  rcases hanswers with hexcused | ⟨_, _, s, _, hs, ⟨hname, _, k, hread, _⟩, _⟩
  · exact hexcused.elim
  · exact ⟨s, k, hs, hname, hread⟩

/-- A failed evaluation is recorded with the place of the token that was read last. -/
theorem exists_failsAt_of_evalSource_error (h : evalSource fuel source m = some (.error e m')) :
    ∃ k t, source.readAll.1[k]? = some t ∧ m.FailsAt source k e ∧
      m'.lastError = some ⟨e, some (t.location source.name)⟩ := by
  rw [evalSource_eq] at h
  obtain ⟨r₀, hbuild, hclosed⟩ := Option.map_eq_some_iff.mp h
  cases r₀ with
  | ok _ m₁ => cases hclosed
  | error e₁ m₁ =>
      obtain ⟨s, k, hs, hname, hread⟩ := exists_readTo_of_build_error hbuild
      obtain ⟨t, ht, hlast⟩ := hread.last
      cases hclosed
      refine ⟨k, t, ht, ⟨m₁, s, ⟨fuel, hbuild⟩, hs, hread.rest⟩, ?_⟩
      simp only [hs, Option.bind_some, Source.lastLocation, hlast, Option.map_some, hname]

theorem describe_of_lastError {l : Location} (h : m.lastError = some ⟨e, some l⟩) :
    m.describe e = "error: " ++ e.message ++ "\n" ++ l.render := by
  simp only [describe, h, ↓reduceIte]

/-! ### The record -/

/-- What executing does to the record of the last failure. -/
theorem keepsRecord_elementary : Elementary fun m m' => m'.lastError = m.lastError where
  refl _ := rfl
  trans h h' := h'.trans h
  data _ _ := rfl
  pushReturn _ _ _ := rfl
  popReturn _ := rfl
  store _ _ _ := rfl
  append _ _ _ := rfl
  ip _ _ := rfl
  markImmediate _ _ := rfl
  beginDefinition _ _ := rfl
  mode _ _ := rfl
  source _ _ _ _ := rfl
  output _ _ := rfl

theorem lastError_of_evalSource_ok (h : evalSource fuel source m = some (.ok () m')) :
    m'.lastError = m.lastError := by
  rw [evalSource_eq] at h
  obtain ⟨r₀, hbuild, hclosed⟩ := Option.map_eq_some_iff.mp h
  cases r₀ with
  | ok _ m₁ =>
      cases hclosed
      exact keepsRecord_elementary.keeps_build fuel _ _ hbuild
  | error e m₁ => cases hclosed

/-- The last failure, if there was one, has a place and a cause in the machine. -/
def Recorded (m : Machine) : Prop :=
  ∀ failure, m.lastError = some failure →
    (∃ l, failure.location = some l) ∧ failure.error.isExternal = false

theorem Recorded.of_eq (h : m.Recorded) (hsame : m'.lastError = m.lastError) : m'.Recorded :=
  fun failure hfailure => h failure (hsame.symm.trans hfailure)

theorem recorded_evalSource (fuel : Nat) (source : Source) :
    Run.Keeps (fun m m' => m.Recorded → m'.Recorded) (evalSource fuel source) := by
  intro m r hr hm
  cases r with
  | ok _ m' => exact hm.of_eq (lastError_of_evalSource_ok hr)
  | error e m' =>
      obtain ⟨k, t, _, ⟨m₁, s, ⟨fuel', hbuild⟩, _⟩, hlast⟩ := exists_failsAt_of_evalSource_error hr
      intro failure hfailure
      cases hlast.symm.trans hfailure
      exact ⟨⟨_, rfl⟩, Run.FailsInternally.build fuel' _ e m₁ hbuild⟩

theorem recorded_commanded : Commanded fun m m' => m.Recorded → m'.Recorded where
  toElementary := keepsRecord_elementary.imp (fun hsame hm => hm.of_eq hsame) fun h h' hm => h' (h hm)
  define _ _ _ hm := hm.of_eq rfl
  evaluation := recorded_evalSource

theorem Fresh.recorded (h : m.Fresh) : m.Recorded := by
  have hnew : ∀ capacity, (Machine.new capacity).Recorded := by
    intro capacity failure hfailure
    cases hfailure
  rcases h with ⟨capacity, rfl⟩ | ⟨fuel, capacity, hboot⟩
  · exact hnew capacity
  · exact recorded_evalSource fuel _ _ _ (boot_eq_some_iff.mp hboot).2 (hnew capacity)

end Machine

theorem Session.recorded {m₀ m : Machine} (h : Session m₀ m) (hfresh : m₀.Fresh) : m.Recorded := by
  induction h with
  | start => exact hfresh.recorded
  | perform fuel c _ hperform ih =>
      refine recorded_commanded.keeps_perform fuel c (fun limit _ m hm => ?_) _ _ hperform ih
      exact hm.of_eq rfl

/-- Every failed evaluation is located.  In whatever state a session is, an evaluation that fails records
its error with the place of the token that was read last, of which there always is one, and the error is
then described by both; an evaluation that succeeds leaves the record as it is.  A record therefore always
has a place, and its error is never that of a file that cannot be read. -/
theorem failed_evaluation_is_located {m₀ m : Machine} (hfresh : m₀.Fresh) (hsession : Session m₀ m) :
    (∀ (name text : String) (e : Error) (m' : Machine),
      Reaches (fun fuel => evalSource fuel (Source.ofChars name text.toList)) m (.error e m') →
        ∃ k t, (Source.ofChars name text.toList).readAll.1[k]? = some t ∧
          m.FailsAt (Source.ofChars name text.toList) k e ∧
          m'.lastError = some ⟨e, some (t.location name)⟩ ∧
          m'.describe e = "error: " ++ e.message ++ "\n" ++ (t.location name).render) ∧
    (∀ (name text : String) (m' : Machine),
      Reaches (fun fuel => evalSource fuel (Source.ofChars name text.toList)) m (.ok () m') →
        m'.lastError = m.lastError) ∧
    ∀ failure, m.lastError = some failure →
      (∃ l, failure.location = some l) ∧ ∀ path reason, failure.error ≠ .unreadableFile path reason := by
  refine ⟨?_, ?_, ?_⟩
  · rintro name text e m' ⟨fuel, hfuel⟩
    obtain ⟨k, t, ht, hfails, hlast⟩ := exists_failsAt_of_evalSource_error hfuel
    exact ⟨k, t, ht, hfails, hlast, describe_of_lastError hlast⟩
  · rintro name text m' ⟨fuel, hfuel⟩
    exact lastError_of_evalSource_ok hfuel
  · intro failure hfailure
    obtain ⟨hlocated, hinternal⟩ := hsession.recorded hfresh failure hfailure
    refine ⟨hlocated, ?_⟩
    rintro path reason herror
    rw [herror] at hinternal
    cases hinternal

/-- A session whose only command has failed. -/
theorem failed_evaluation_is_located_behind_failure :
    ∃ r, (Command.eval "1\ndrop drop").perform 20 (Machine.new 8) = some r ∧
      (Outcome.machine r).lastError =
        some ⟨.stackUnderflow, some ⟨"drop", 1, 5, "<buffer>", "drop drop"⟩⟩ ∧
      (∀ (name text : String) (e : Error) (m' : Machine),
        Reaches (fun fuel => evalSource fuel (Source.ofChars name text.toList)) (Outcome.machine r)
            (.error e m') →
          ∃ k t, (Source.ofChars name text.toList).readAll.1[k]? = some t ∧
            (Outcome.machine r).FailsAt (Source.ofChars name text.toList) k e ∧
            m'.lastError = some ⟨e, some (t.location name)⟩ ∧
            m'.describe e = "error: " ++ e.message ++ "\n" ++ (t.location name).render) ∧
      (∀ (name text : String) (m' : Machine),
        Reaches (fun fuel => evalSource fuel (Source.ofChars name text.toList)) (Outcome.machine r)
            (.ok () m') →
          m'.lastError = (Outcome.machine r).lastError) ∧
      ∀ failure, (Outcome.machine r).lastError = some failure →
        (∃ l, failure.location = some l) ∧
          ∀ path reason, failure.error ≠ .unreadableFile path reason := by
  have hanswer : ((Command.eval "1\ndrop drop").perform 20 (Machine.new 8)).map
      (fun r => (Outcome.machine r).lastError) =
        some (some ⟨.stackUnderflow, some ⟨"drop", 1, 5, "<buffer>", "drop drop"⟩⟩) := by
    decide +kernel
  obtain ⟨r, hr, hlast⟩ := Option.map_eq_some_iff.mp hanswer
  exact ⟨r, hr, hlast, failed_evaluation_is_located (Or.inl ⟨8, rfl⟩) (.perform 20 _ .start hr)⟩

end Forth

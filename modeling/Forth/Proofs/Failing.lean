/-
What a failing primitive leaves behind.  A primitive checks everything before it changes anything but
the data stack, so a failure finds at most two cells gone from there.  Only the beginning of a definition
reads on, and it fails where nothing but blanks is left of the source.
-/
import Mathlib.Data.List.TakeWhile
import Forth.Proofs.Answers
import Forth.Proofs.SourceText

namespace Forth

open Machine

namespace Stack

/-- The stack without so many of its topmost cells. -/
def dropTop (s : Stack) (n : Nat) : Stack :=
  ofList (s.cells.drop n)

@[simp] theorem dropTop_zero (s : Stack) : s.dropTop 0 = s := by
  simp [dropTop]

theorem dropTop_dropTop (s : Stack) (k n : Nat) : (s.dropTop k).dropTop n = s.dropTop (k + n) := by
  simp [dropTop]

theorem pop_eq_dropTop (s : Stack) : s.pop = s.dropTop 1 := by
  ext1
  simp [dropTop]

end Stack

/-- The machine without so many of the topmost cells of its data stack. -/
def Machine.lacking (m : Machine) (n : Nat) : Machine :=
  { m with data := m.data.dropTop n }

namespace Machine

theorem lacking_zero (m : Machine) : m.lacking 0 = m := by
  simp [lacking]

theorem lacking_lacking (m : Machine) (k n : Nat) : (m.lacking k).lacking n = m.lacking (k + n) := by
  simp [lacking, Stack.dropTop_dropTop]

end Machine

namespace Action

variable {α β : Type} {k n : Nat} {x : Action α} {f : α → Action β}

/-- A failure of the action takes at most so many cells from the data stack, and changes nothing else. -/
def FailsWithin (n : Nat) (x : Action α) : Prop :=
  ∀ m e m', x m = .error e m' → ∃ k ≤ n, m' = m.lacking k

/-- The action takes exactly so many cells from the data stack, and changes nothing else. -/
structure Takes (n : Nat) (x : Action α) : Prop where
  ok : ∀ m a m', x m = .ok a m' → m' = m.lacking n
  fails : x.FailsWithin n

def Succeeds (x : Action α) : Prop :=
  ∀ m, ∃ a m', x m = .ok a m'

theorem bind_cases {m m' : Machine} {e : Error} (h : (x >>= f) m = .error e m') :
    x m = .error e m' ∨ ∃ a m₁, x m = .ok a m₁ ∧ f a m₁ = .error e m' := by
  cases hx : x m with
  | error e₁ m₁ =>
      cases (bind_of_error hx).symm.trans h
      exact Or.inl rfl
  | ok a m₁ => exact Or.inr ⟨a, m₁, rfl, (bind_of_ok hx).symm.trans h⟩

theorem FailsWithin.mono (h : x.FailsWithin k) (hle : k ≤ n) : x.FailsWithin n := by
  intro m e m' hx
  obtain ⟨j, hj, hm'⟩ := h m e m' hx
  exact ⟨j, Nat.le_trans hj hle, hm'⟩

theorem Succeeds.failsWithin (h : x.Succeeds) : x.FailsWithin 0 := by
  intro m e m' hx
  obtain ⟨a, m₁, hok⟩ := h m
  cases hok.symm.trans hx

theorem Succeeds.bind (hx : x.Succeeds) (hf : ∀ a, (f a).Succeeds) : (x >>= f).Succeeds := by
  intro m
  obtain ⟨a, m₁, hfirst⟩ := hx m
  obtain ⟨b, m₂, hrest⟩ := hf a m₁
  exact ⟨b, m₂, (bind_of_ok hfirst).trans hrest⟩

/-- What can only succeed may follow any action. -/
theorem FailsWithin.followed (hx : x.FailsWithin n) (hf : ∀ a, (f a).Succeeds) :
    (x >>= f).FailsWithin n := by
  intro m e m' h
  rcases bind_cases h with hfirst | ⟨a, m₁, _, hrest⟩
  · exact hx m e m' hfirst
  · obtain ⟨_, _, hok⟩ := hf a m₁
    cases hok.symm.trans hrest

namespace Takes

/-- The cells that are gone add up. -/
theorem failsWithin_bind (hx : x.Takes k) (hf : ∀ a, (f a).FailsWithin n) :
    (x >>= f).FailsWithin (k + n) := by
  intro m e m' h
  rcases bind_cases h with hfirst | ⟨a, m₁, hfirst, hrest⟩
  · obtain ⟨j, hj, hm'⟩ := hx.fails m e m' hfirst
    exact ⟨j, Nat.le_add_right_of_le hj, hm'⟩
  · obtain ⟨j, hj, rfl⟩ := hf a m₁ e m' hrest
    rw [hx.ok m a m₁ hfirst, lacking_lacking]
    exact ⟨k + j, Nat.add_le_add_left hj k, rfl⟩

theorem bind (hx : x.Takes k) (hf : ∀ a, (f a).Takes n) : (x >>= f).Takes (k + n) where
  ok := by
    intro m b m' h
    cases hfirst : x m with
    | error e m₁ => cases (bind_of_error hfirst).symm.trans h
    | ok a m₁ =>
        have hrest : f a m₁ = .ok b m' := (bind_of_ok hfirst).symm.trans h
        rw [(hf a).ok m₁ b m' hrest, hx.ok m a m₁ hfirst, lacking_lacking]
  fails := hx.failsWithin_bind fun a => (hf a).fails

/-- An action that changes nothing. -/
theorem of_reads (h : ∀ m, (∃ a, x m = .ok a m) ∨ ∃ e, x m = .error e m) : x.Takes 0 where
  ok := by
    intro m a m' hx
    rw [lacking_zero]
    rcases h m with ⟨b, hb⟩ | ⟨e, he⟩
    · cases hb.symm.trans hx
      rfl
    · cases he.symm.trans hx
  fails := by
    intro m e m' hx
    rcases h m with ⟨b, hb⟩ | ⟨e', he⟩
    · cases hb.symm.trans hx
    · cases he.symm.trans hx
      exact ⟨0, Nat.le_refl 0, m.lacking_zero.symm⟩

theorem demand (r : Except Error α) : (demand r).Takes 0 := by
  apply of_reads
  intro m
  cases r with
  | ok a => exact Or.inl ⟨a, rfl⟩
  | error e => exact Or.inr ⟨e, rfl⟩

theorem top : top.Takes 0 := by
  apply of_reads
  intro m
  unfold Machine.top
  cases m.data.top? with
  | some c => exact Or.inl ⟨c, rfl⟩
  | none => exact Or.inr ⟨_, rfl⟩

theorem peekReturn (distance : Nat) : (peekReturn distance).Takes 0 := by
  apply of_reads
  intro m
  unfold Machine.peekReturn
  cases m.returns.peek? distance with
  | some c => exact Or.inl ⟨c, rfl⟩
  | none => exact Or.inr ⟨_, rfl⟩

theorem fetch_cases (m : Machine) (address : Nat) :
    (∃ c, fetch address m = .ok c m) ∨ ∃ e, fetch address m = .error e m := by
  unfold fetch
  cases m.heap.get? address with
  | some c => exact Or.inl ⟨c, rfl⟩
  | none => exact Or.inr ⟨_, rfl⟩

theorem fetch (address : Nat) : (fetch address).Takes 0 :=
  of_reads fun m => fetch_cases m address

theorem fetchHere : fetchHere.Takes 0 :=
  of_reads fun m => fetch_cases m m.ip

theorem pop : pop.Takes 1 where
  ok := by
    intro m c m' h
    unfold Machine.pop at h
    cases htop : m.data.top? with
    | none =>
        rw [htop] at h
        cases h
    | some d =>
        rw [htop] at h
        cases h
        rw [lacking, ← Stack.pop_eq_dropTop]
  fails := by
    intro m e m' h
    unfold Machine.pop at h
    cases htop : m.data.top? with
    | some d =>
        rw [htop] at h
        cases h
    | none =>
        rw [htop] at h
        cases h
        exact ⟨0, Nat.zero_le 1, m.lacking_zero.symm⟩

theorem popInt : popInt.Takes 1 := pop.bind fun _ => demand _

theorem popFlag : popFlag.Takes 1 := pop.bind fun _ => demand _

theorem popAddress : popAddress.Takes 1 := pop.bind fun _ => demand _

end Takes

namespace Succeeds

theorem pure (a : α) : (pure a : Action α).Succeeds := fun m => ⟨a, m, rfl⟩

theorem push (c : Cell) : (push c).Succeeds := fun _ => ⟨(), _, rfl⟩

theorem advance : advance.Succeeds := fun _ => ⟨(), _, rfl⟩

theorem setMode (mode : Mode) : (setMode mode).Succeeds := fun _ => ⟨(), _, rfl⟩

theorem markLastWord : markLastWord.Succeeds := by
  intro m
  unfold Machine.markLastWord
  split <;> exact ⟨(), _, rfl⟩

end Succeeds

namespace FailsWithin

/-- An action that changes something only if it succeeds. -/
theorem of_checks (h : ∀ m, (∃ a m', x m = .ok a m') ∨ ∃ e, x m = .error e m) : x.FailsWithin 0 := by
  intro m e m' hx
  rcases h m with ⟨a, m₁, hok⟩ | ⟨e₁, herror⟩
  · cases hok.symm.trans hx
  · cases herror.symm.trans hx
    exact ⟨0, Nat.le_refl 0, m.lacking_zero.symm⟩

theorem throw (e : Error) : (throw e : Action α).FailsWithin 0 :=
  of_checks fun _ => Or.inr ⟨e, rfl⟩

theorem append (c : Cell) : (append c).FailsWithin 0 := by
  apply of_checks
  intro m
  unfold Machine.append
  split
  · exact Or.inl ⟨(), _, rfl⟩
  · exact Or.inr ⟨_, rfl⟩

theorem store (address : Nat) (c : Cell) : (store address c).FailsWithin 0 := by
  apply of_checks
  intro m
  unfold Machine.store
  split
  · exact Or.inl ⟨(), _, rfl⟩
  · exact Or.inr ⟨_, rfl⟩

theorem pushReturn (c : Cell) : (pushReturn c).FailsWithin 0 := by
  apply of_checks
  intro m
  unfold Machine.pushReturn
  split
  · exact Or.inl ⟨(), _, rfl⟩
  · exact Or.inr ⟨_, rfl⟩

theorem popReturn : popReturn.FailsWithin 0 := by
  apply of_checks
  intro m
  unfold Machine.popReturn
  cases m.returns.top? with
  | some c => exact Or.inl ⟨c, _, rfl⟩
  | none => exact Or.inr ⟨_, rfl⟩

theorem jumpBy (offset : Int64) : (jumpBy offset).FailsWithin 0 := by
  apply of_checks
  intro m
  unfold Machine.jumpBy
  dsimp only
  split
  · exact Or.inl ⟨(), _, rfl⟩
  · exact Or.inr ⟨_, rfl⟩

theorem pushInline : Primitive.pushInline.FailsWithin 0 :=
  Takes.fetchHere.fails.followed fun _ => Succeeds.advance.bind fun _ => .push _

theorem jumpInline : Primitive.jumpInline.FailsWithin 0 :=
  Takes.fetchHere.failsWithin_bind fun _ => (Takes.demand _).failsWithin_bind fun _ => jumpBy _

theorem onInts (g : Int64 → Int64 → Int64) : (Primitive.onInts g).FailsWithin 2 :=
  Takes.popInt.failsWithin_bind fun _ => Takes.popInt.fails.followed fun _ => .push _

theorem onFlags (g : Bool → Bool → Bool) : (Primitive.onFlags g).FailsWithin 2 :=
  Takes.popFlag.failsWithin_bind fun _ => Takes.popFlag.fails.followed fun _ => .push _

theorem divide : Primitive.divide.FailsWithin 2 := by
  refine Takes.popInt.failsWithin_bind (n := 1) fun b => ?_
  refine Takes.popInt.failsWithin_bind (n := 0) fun a => ?_
  by_cases hb : b = 0
  · simp only [hb, ↓reduceIte]
    exact (throw _).followed fun _ => .push _
  · simp only [hb, ↓reduceIte]
    exact (Succeeds.pure _).failsWithin.followed fun _ => .push _

/-- All primitives but the one that reads on. -/
theorem execute {p : Primitive} (hp : p ≠ .colon) : p.execute.FailsWithin 2 := by
  cases p with
  | add => exact onInts _
  | sub => exact onInts _
  | mul => exact onInts _
  | div => exact divide
  | logicalAnd => exact onFlags _
  | logicalOr => exact onFlags _
  | logicalNot => exact (Takes.popFlag.fails.followed fun _ => .push _).mono (by decide)
  | equal =>
      exact Takes.pop.failsWithin_bind fun _ => Takes.pop.failsWithin_bind fun _ =>
        (Takes.demand _).fails.followed fun _ => .push _
  | less =>
      exact Takes.popInt.failsWithin_bind fun _ => Takes.popInt.fails.followed fun _ => .push _
  | pushTrue => exact (Succeeds.push _).failsWithin.mono (by decide)
  | pushFalse => exact (Succeeds.push _).failsWithin.mono (by decide)
  | drop => exact (Takes.pop.fails.followed fun _ => .pure _).mono (by decide)
  | dup => exact (Takes.top.fails.followed fun _ => .push _).mono (by decide)
  | swap =>
      exact Takes.pop.failsWithin_bind fun _ => Takes.pop.fails.followed fun _ =>
        (Succeeds.push _).bind fun _ => .push _
  | toReturn =>
      exact (Takes.pop.failsWithin_bind fun _ => pushReturn _).mono (by decide)
  | fromReturn => exact (popReturn.followed fun _ => .push _).mono (by decide)
  | loopIndex => exact ((Takes.peekReturn _).fails.followed fun _ => .push _).mono (by decide)
  | loopLimit => exact ((Takes.peekReturn _).fails.followed fun _ => .push _).mono (by decide)
  | comma => exact (Takes.pop.failsWithin_bind fun _ => append _).mono (by decide)
  | store =>
      exact Takes.popAddress.failsWithin_bind fun _ => Takes.pop.failsWithin_bind fun _ => store _ _
  | fetch =>
      exact (Takes.popAddress.failsWithin_bind fun _ =>
        (Takes.fetch _).fails.followed fun _ => .push _).mono (by decide)
  | lit => exact pushInline.mono (by decide)
  | tick => exact pushInline.mono (by decide)
  | jump => exact jumpInline.mono (by decide)
  | jumpIfFalse =>
      refine (Takes.popFlag.failsWithin_bind (n := 0) fun b => ?_).mono (by decide)
      cases b with
      | true => exact Succeeds.advance.failsWithin
      | false => exact jumpInline
  | display =>
      have hprint : ∀ c, Succeeds fun m => print (m.render c ++ "\n") m := fun c m => ⟨(), _, rfl⟩
      exact (Takes.pop.fails.followed hprint).mono (by decide)
  | semicolon => exact ((append _).followed fun _ => .setMode _).mono (by decide)
  | immediate => exact Succeeds.markLastWord.failsWithin.mono (by decide)
  | clear | here | displayStack | words | comment =>
      refine Succeeds.failsWithin (fun m => ?_) |>.mono (by decide)
      exact ⟨(), _, rfl⟩
  | colon => exact absurd rfl hp

end FailsWithin

end Action

/-- The source with everything that is left of it passed. -/
def Source.atEnd (s : Source) : Source :=
  { s with before := s.rest.reverse ++ s.before, rest := [] }

/-- A source without another token has only blanks left, and reading passes them. -/
theorem Source.atEnd_of_next_eq_none {s : Source} (h : s.next.1 = none) :
    (∀ c ∈ s.rest, isBlank c = true) ∧ s.next.2 = s.atEnd := by
  have hrest : s.rest.dropWhile isBlank = [] := skipBlanks_of_next_eq_none h
  have hblank : s.rest.takeWhile isBlank = s.rest := takeWhile_eq_of_dropWhile_eq_nil hrest
  refine ⟨List.dropWhile_eq_nil_iff.mp hrest, ?_⟩
  rw [next_of_blank (skipBlanks_of_next_eq_none h)]
  simp only [skipBlanks, atEnd, hblank, hrest]

/-- Only at the end of its source does a machine find no name. -/
theorem Machine.nextName_error_cases {m m' : Machine} {e : Error} (h : nextName m = .error e m') :
    m' = m ∨ ∃ s, m.source = some s ∧ (∀ c ∈ s.rest, isBlank c = true) ∧
      m' = { m with source := some s.atEnd } := by
  simp only [nextName, bind, EStateM.bind, nextToken] at h
  cases hsource : m.source with
  | none =>
      rw [hsource] at h
      cases h
      exact Or.inl rfl
  | some s =>
      rw [hsource] at h
      cases hnext : s.next.1 with
      | some token =>
          simp only [hnext] at h
          cases h
      | none =>
          obtain ⟨hblank, hend⟩ := s.atEnd_of_next_eq_none hnext
          simp only [hnext, hend] at h
          cases h
          exact Or.inr ⟨s, rfl, hblank, rfl⟩

/-- A primitive that fails has taken at most two cells from the data stack, and at most passed the blanks
at the end of the source.  Everything else of the machine is as it was. -/
theorem Primitive.execute_error_leaves {p : Primitive} {m m' : Machine} {e : Error}
    (h : p.execute m = .error e m') :
    ∃ k ≤ 2, ∃ source,
      (source = m.source ∨
        ∃ s, m.source = some s ∧ (∀ c ∈ s.rest, isBlank c = true) ∧ source = some s.atEnd) ∧
      m' = { m with data := m.data.dropTop k, source := source } := by
  by_cases hp : p = .colon
  · subst hp
    rcases Action.bind_cases h with hname | ⟨name, m₁, _, hbegin⟩
    · rcases nextName_error_cases hname with rfl | ⟨s, hs, hblank, rfl⟩
      · exact ⟨0, by decide, m'.source, Or.inl rfl, by simp⟩
      · exact ⟨0, by decide, some s.atEnd, Or.inr ⟨s, hs, hblank, rfl⟩, by simp⟩
    · cases hbegin
  · obtain ⟨k, hk, rfl⟩ := Action.FailsWithin.execute hp m e m' h
    exact ⟨k, hk, m.source, Or.inl rfl, rfl⟩

/-- A machine that is about to store a flag behind the end of its heap. -/
def Machine.storingOutside : Machine :=
  { Machine.new 4 with data := Stack.ofList [.int 4, .flag true, .int 7] }

/-- A store that fails has taken address and value. -/
theorem Primitive.execute_error_leaves_of_storingOutside :
    ∃ m', Primitive.execute .store storingOutside = .error .invalidAddress m' ∧
      m'.data = Stack.ofList [.int 7] ∧
      ∃ k ≤ 2, ∃ source,
        (source = storingOutside.source ∨
          ∃ s, storingOutside.source = some s ∧ (∀ c ∈ s.rest, isBlank c = true) ∧
            source = some s.atEnd) ∧
        m' = { storingOutside with data := storingOutside.data.dropTop k, source := source } := by
  have hstore : Primitive.execute .store storingOutside =
      .error .invalidAddress { storingOutside with data := Stack.ofList [.int 7] } := rfl
  exact ⟨_, hstore, rfl, execute_error_leaves hstore⟩

end Forth

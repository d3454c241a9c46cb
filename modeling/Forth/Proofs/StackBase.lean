/-
What lies under a stack is not seen.  Code works at the top of the stacks, so cells that are put under
the data stack and under the return stack are still there when the code has ended, and nothing else is
different, unless the code asked for a cell of a stack that has none.  Only the words that empty the
data stack or show all of it can tell.
-/
import Forth.Proofs.Insulation
import Forth.Proofs.SourceText

namespace Forth

open Machine Run

/-! ### Stacks on top of others -/

namespace Stack

/-- The stack on top of another one. -/
def atop (s base : Stack) : Stack :=
  ofList (s.cells ++ base.cells)

variable {s base : Stack} {c : Cell} {n : Nat}

@[simp] theorem cells_atop (s base : Stack) : (s.atop base).cells = s.cells ++ base.cells := rfl

theorem depth_atop (s base : Stack) : (s.atop base).depth = s.depth + base.depth := by
  rw [depth_eq, depth_eq, depth_eq, cells_atop, List.length_append]

theorem push_atop (s base : Stack) (c : Cell) : (s.atop base).push c = (s.push c).atop base := by
  ext1
  simp

theorem top?_atop (h : s.top? = some c) : (s.atop base).top? = some c := by
  rw [top?, cells_atop, List.head?_append, show s.cells.head? = some c from h, Option.some_or]

theorem pop_atop (h : s.top? = some c) : (s.atop base).pop = s.pop.atop base := by
  have hcells : s.cells ≠ [] := by
    intro hnil
    rw [top?, hnil] at h
    cases h
  ext1
  rw [cells_pop, cells_atop, cells_atop, cells_pop, List.tail_append_of_ne_nil hcells]

theorem peek?_atop (h : s.peek? n = some c) : (s.atop base).peek? n = some c := by
  have hlt : n < s.cells.length := (List.getElem?_eq_some_iff.mp h).1
  rw [peek?, cells_atop, List.getElem?_append_left hlt]
  exact h

end Stack

/-- The machine with its stacks on top of others, and a limit of the return stack that is as far away as
before. -/
def Machine.atop (m : Machine) (data returns : Stack) : Machine :=
  { m with
    data := m.data.atop data
    returns := m.returns.atop returns
    returnLimit := m.returnLimit + returns.depth }

def Outcome.atop {α : Type} (data returns : Stack) : Outcome α → Outcome α
  | .ok a m => .ok a (m.atop data returns)
  | .error e m => .error e (m.atop data returns)

/-! ### Words that see no base -/

/-- The cell is none of the primitives that see the whole data stack. -/
def Cell.Shallow (c : Cell) : Prop :=
  ∀ p : Primitive, c = .op (.primitive p) → p.seesWholeStack = false

theorem Cell.shallow_of_ne {c : Cell} (hclear : c ≠ .op (.primitive .clear))
    (hshow : c ≠ .op (.primitive .displayStack)) : c.Shallow := by
  rintro p rfl
  cases p with
  | clear => exact absurd rfl hclear
  | displayStack => exact absurd rfl hshow
  | _ => rfl

/-- The words of a source, as far as the dictionary knows them, stand for shallow cells. -/
def Source.Shallow (s : Source) (d : Dictionary) : Prop :=
  ∀ token ∈ s.readAll.1, ∀ op, d.find? token.text = some op → (Cell.op op).Shallow

namespace Source.Shallow

variable {s : Source} {d : Dictionary}

theorem next (h : s.Shallow d) : s.next.2.Shallow d := by
  rcases hnext : s.next with ⟨_ | token, s'⟩
  · intro token htoken
    rw [readAll_of_next_eq_none (next_eq_none_of_next hnext)] at htoken
    cases htoken
  · intro token' htoken'
    apply h
    rw [readAll_of_next hnext]
    exact List.mem_cons_of_mem token htoken'

theorem skipPast (h : s.Shallow d) (word : String) : (s.skipPast word).Shallow d :=
  skipPast_induction (motive := fun s => s.Shallow d) (fun _ hs => hs.next) h

theorem markImmediate (h : s.Shallow d) (name : String) : s.Shallow (d.markImmediate name) := by
  intro token htoken op hfind
  rw [Dictionary.find?, Dictionary.entries_markImmediate] at hfind
  exact h token htoken op hfind

/-- A word that is defined anew stands for a body. -/
theorem define (h : s.Shallow d) (name : String) (a : Nat) : s.Shallow (d.define name (.body a)) := by
  intro token htoken op hfind
  rw [Dictionary.find?_define] at hfind
  split at hfind
  · cases hfind
    intro p hp
    cases hp
  · exact h token htoken op hfind

end Source.Shallow

/-! ### The two machines side by side -/

namespace Pairing

variable {data returns : Stack} {reading : Prop}

/-- A machine beside the one with its stacks on top of others.  While a source is read to be evaluated,
its words are known to be shallow. -/
structure Raised (data returns : Stack) (reading : Prop) (m m' : Machine) : Prop where
  cells : m.HoldsOnly Cell.Shallow
  source : reading → ∀ s, m.source = some s → s.Shallow m.dictionary
  eq_atop : m' = m.atop data returns

/-- Asking for a cell of a stack that has none is excused: the other machine may have one there. -/
def raising (data returns : Stack) (reading : Prop) : Pairing where
  related := Raised data returns reading
  excused e := e = .stackUnderflow
  admits := Cell.Shallow
  allows _ _ := True

theorem onTop_raising : OnTop (raising data returns reading) where
  admits_int n := by
    intro p hp
    cases hp
  admits_flag b := by
    intro p hp
    cases hp
  render := by
    rintro m _ ⟨_, _, rfl⟩ c
    rfl
  withOutput := by
    rintro m _ e ⟨hcells, hsource, rfl⟩
    exact ⟨⟨hcells.data, hcells.returns, hcells.heap⟩, hsource, rfl⟩
  carries_push := by
    rintro c hc m _ ⟨hcells, hsource, rfl⟩
    have hdata : ∀ d ∈ (m.data.push c).cells, d.Shallow := List.forall_mem_cons.mpr ⟨hc, hcells.data⟩
    refine ⟨trivial, _, rfl, ⟨hdata, hcells.returns, hcells.heap⟩, hsource, ?_⟩
    simp only [Machine.atop, Stack.push_atop]
  carries_pop := by
    rintro m _ ⟨hcells, hsource, rfl⟩
    unfold pop
    cases htop : m.data.top? with
    | none => exact Or.inl rfl
    | some c =>
        have htop' : (m.atop data returns).data.top? = some c := Stack.top?_atop htop
        have hdata : ∀ d ∈ m.data.pop.cells, d.Shallow :=
          fun d hd => hcells.data d (List.mem_of_mem_tail hd)
        rw [htop']
        refine ⟨hcells.data c (List.mem_of_head? htop), _, rfl,
          ⟨hdata, hcells.returns, hcells.heap⟩, hsource, ?_⟩
        simp only [Machine.atop, Stack.pop_atop htop]
  carries_top := by
    rintro m _ ⟨hcells, hsource, rfl⟩
    unfold top
    cases htop : m.data.top? with
    | none => exact Or.inl rfl
    | some c =>
        have htop' : (m.atop data returns).data.top? = some c := Stack.top?_atop htop
        rw [htop']
        exact ⟨hcells.data c (List.mem_of_head? htop), _, rfl, hcells, hsource, rfl⟩

theorem onRest_raising : OnRest (raising data returns reading) where
  admits_exit := by
    intro p hp
    cases hp
  ip := by
    rintro m _ ⟨_, _, rfl⟩
    rfl
  withIp := by
    rintro m _ a ⟨hcells, hsource, rfl⟩
    exact ⟨⟨hcells.data, hcells.returns, hcells.heap⟩, hsource, rfl⟩
  here := by
    rintro m _ ⟨_, _, rfl⟩
    rfl
  get? := by
    rintro m _ a c ⟨hcells, _, rfl⟩ hcell
    exact ⟨hcells.heap c (Array.mem_of_getElem? hcell), hcell⟩
  outside := by
    rintro m _ a ⟨_, _, rfl⟩ hcell
    exact Or.inl hcell
  withSet := by
    rintro m _ a c ⟨hcells, hsource, rfl⟩ _ hc
    exact ⟨hcells.set a hc, hsource, rfl⟩
  withPush := by
    rintro m _ c ⟨hcells, hsource, rfl⟩ _ hc
    exact ⟨hcells.push hc, hsource, rfl⟩
  lastWord := by
    rintro m _ ⟨_, _, rfl⟩
    rfl
  withImmediate := by
    rintro m _ name ⟨hcells, hsource, rfl⟩ _
    exact ⟨⟨hcells.data, hcells.returns, hcells.heap⟩,
      fun hr s hs => (hsource hr s hs).markImmediate name, rfl⟩
  withDefinition := by
    rintro m _ name ⟨hcells, hsource, rfl⟩
    exact ⟨⟨hcells.data, hcells.returns, hcells.heap⟩,
      fun hr s hs => (hsource hr s hs).define name _, rfl⟩
  withMode := by
    rintro m _ mode ⟨hcells, hsource, rfl⟩
    exact ⟨⟨hcells.data, hcells.returns, hcells.heap⟩, hsource, rfl⟩
  words := by
    rintro m _ ⟨_, _, rfl⟩ _
    rfl
  nextToken := by
    rintro m _ ⟨hcells, hsource, rfl⟩ _
    refine readsAlike_of_source rfl ⟨hcells, hsource, rfl⟩ fun s hs => ?_
    refine ⟨⟨hcells.data, hcells.returns, hcells.heap⟩, fun hr s' hs' => ?_, rfl⟩
    cases hs'
    exact (hsource hr s hs).next
  comment := by
    rintro m _ ⟨hcells, hsource, rfl⟩ _
    refine ⟨⟨hcells.data, hcells.returns, hcells.heap⟩, fun hr s' hs' => ?_, rfl⟩
    obtain ⟨s, hs, rfl⟩ := Option.map_eq_some_iff.mp hs'
    exact (hsource hr s hs).skipPast ")"

theorem onReading_raising : OnReading (raising data returns reading) where
  toOnTop := onTop_raising
  toOnRest := onRest_raising
  carries_whole := by
    intro p hp hadmits
    rw [hadmits p rfl] at hp
    cases hp
  carries_pushReturn := by
    rintro c hc m _ ⟨hcells, hsource, rfl⟩
    unfold pushReturn
    have hdepth : (m.atop data returns).returns.depth = m.returns.depth + returns.depth :=
      Stack.depth_atop _ _
    by_cases hroom : m.returns.depth < m.returnLimit
    · have hroom' : (m.atop data returns).returns.depth < (m.atop data returns).returnLimit := by
        rw [hdepth]
        exact Nat.add_lt_add_right hroom _
      have hreturns : ∀ d ∈ (m.returns.push c).cells, d.Shallow :=
        List.forall_mem_cons.mpr ⟨hc, hcells.returns⟩
      rw [if_pos hroom, if_pos hroom']
      refine ⟨trivial, _, rfl, ⟨hcells.data, hreturns, hcells.heap⟩, hsource, ?_⟩
      simp only [Machine.atop, Stack.push_atop]
    · have hroom' : ¬ (m.atop data returns).returns.depth < (m.atop data returns).returnLimit := by
        rw [hdepth]
        exact fun h => hroom (Nat.lt_of_add_lt_add_right h)
      rw [if_neg hroom, if_neg hroom']
      exact Or.inr ⟨_, rfl, hcells, hsource, rfl⟩
  carries_popReturn := by
    rintro m _ ⟨hcells, hsource, rfl⟩
    unfold popReturn
    cases htop : m.returns.top? with
    | none => exact Or.inl rfl
    | some c =>
        have htop' : (m.atop data returns).returns.top? = some c := Stack.top?_atop htop
        have hreturns : ∀ d ∈ m.returns.pop.cells, d.Shallow :=
          fun d hd => hcells.returns d (List.mem_of_mem_tail hd)
        rw [htop']
        refine ⟨hcells.returns c (List.mem_of_head? htop), _, rfl,
          ⟨hcells.data, hreturns, hcells.heap⟩, hsource, ?_⟩
        simp only [Machine.atop, Stack.pop_atop htop]
  carries_peekReturn := by
    rintro distance m _ ⟨hcells, hsource, rfl⟩
    unfold peekReturn
    cases hpeek : m.returns.peek? distance with
    | none => exact Or.inl rfl
    | some c =>
        have hpeek' : (m.atop data returns).returns.peek? distance = some c := Stack.peek?_atop hpeek
        rw [hpeek']
        exact ⟨hcells.returns c (List.mem_of_getElem? hpeek), _, rfl, hcells, hsource, rfl⟩
  admits_lit := by
    intro p hp
    cases hp
    rfl
  mode := by
    rintro m _ ⟨_, _, rfl⟩
    rfl
  dictionary := by
    rintro m _ ⟨_, _, rfl⟩
    rfl

/-- The words that are read from a shallow source are admitted. -/
theorem Raised.admits_word {m m' m₁ : Machine} {token : Token} {op : Op} (h : Raised data returns True m m')
    (hnext : nextToken m = .ok (some token) m₁) (hfind : m₁.dictionary.find? token.text = some op) :
    (Cell.op op).Shallow := by
  unfold nextToken at hnext
  cases hs : m.source with
  | none =>
      rw [hs] at hnext
      cases hnext
  | some s =>
      simp only [hs] at hnext
      obtain ⟨htoken, rfl⟩ := EStateM.Result.ok.inj hnext
      have hread : token ∈ s.readAll.1 := by
        rw [Source.readAll_of_next (Prod.ext htoken rfl)]
        exact List.mem_cons_self
      exact h.source trivial s hs token hread op hfind

/-- An answer that is no excuse is reached on top of other stacks, too. -/
theorem reaches_atop {α : Type} {x : Nat → Run α} {m : Machine} {r : Outcome α}
    (h : ∀ fuel, (raising data returns reading).Answers (x fuel m) (x fuel (m.atop data returns)))
    (hr : Reaches x m r) (hcause : ∀ m', r ≠ .error .stackUnderflow m') :
    Reaches x (m.atop data returns) (r.atop data returns) := by
  cases r with
  | ok a m₁ =>
      obtain ⟨_, hr', _, _, rfl⟩ := reaches_ok h hr
      exact hr'
  | error e m₁ =>
      rcases reaches_error h hr with rfl | ⟨_, hr', _, _, rfl⟩
      · exact absurd rfl (hcause m₁)
      · exact hr'

end Pairing

theorem Outcome.closed_atop (previous : Option Source) (r : Outcome Unit) (data returns : Stack) :
    (r.atop data returns).closed previous = (r.closed previous).atop data returns := by
  cases r <;> rfl

/-- What lies under the stacks is not seen.  Where no cell is one of the two words that see the whole
data stack, a call of another operation, and the evaluation of a text that does not name these two,
ends on top of any other stacks as it ends without them, and leaves these stacks as they were, unless it
fails because a stack has too few cells. -/
theorem reaches_atop_base {m : Machine} (hclear : m.Lacks (.primitive .clear))
    (hshow : m.Lacks (.primitive .displayStack)) (data returns : Stack) :
    (∀ op r, op ≠ .primitive .clear → op ≠ .primitive .displayStack →
      Reaches (fun fuel => call fuel op) m r → (∀ m', r ≠ .error .stackUnderflow m') →
        Reaches (fun fuel => call fuel op) (m.atop data returns) (r.atop data returns)) ∧
    ∀ text r,
      (∀ token ∈ (Source.ofChars bufferName text.toList).readAll.1,
        m.dictionary.find? token.text ≠ some (.primitive .clear) ∧
          m.dictionary.find? token.text ≠ some (.primitive .displayStack)) →
      Reaches (fun fuel => eval fuel text) m r → (∀ m', r ≠ .error .stackUnderflow m') →
        Reaches (fun fuel => eval fuel text) (m.atop data returns) (r.atop data returns) := by
  have hcells : m.HoldsOnly Cell.Shallow := by
    refine ⟨fun c hc => ?_, fun c hc => ?_, fun c hc => ?_⟩
    · exact Cell.shallow_of_ne (hclear.holdsOnly.data c hc) (hshow.holdsOnly.data c hc)
    · exact Cell.shallow_of_ne (hclear.holdsOnly.returns c hc) (hshow.holdsOnly.returns c hc)
    · exact Cell.shallow_of_ne (hclear.holdsOnly.heap c hc) (hshow.holdsOnly.heap c hc)
  constructor
  · intro op r hop hop' hr hcause
    have hadmits : (Cell.op op).Shallow := Cell.shallow_of_ne (by simpa using hop) (by simpa using hop')
    have hrelated : Pairing.Raised data returns False m (m.atop data returns) :=
      ⟨hcells, False.elim, rfl⟩
    exact Pairing.reaches_atop (fun fuel => Pairing.onReading_raising.answers_call fuel hrelated hadmits
      fun _ _ _ => trivial) hr hcause
  · intro text r htokens hr hcause
    obtain ⟨r₀, hr₀, rfl⟩ := reaches_evalSource_iff.mp hr
    have hsource : (Source.ofChars bufferName text.toList).Shallow m.dictionary := by
      intro token htoken op hfind
      obtain ⟨hword, hword'⟩ := htokens token htoken
      exact Cell.shallow_of_ne (fun h => hword (by rw [hfind, Cell.op.inj h]))
        fun h => hword' (by rw [hfind, Cell.op.inj h])
    have hrelated : Pairing.Raised data returns True
        { m with source := some (Source.ofChars bufferName text.toList) }
        ({ m with source := some (Source.ofChars bufferName text.toList) }.atop data returns) := by
      refine ⟨⟨hcells.data, hcells.returns, hcells.heap⟩, fun _ s hs => ?_, rfl⟩
      cases hs
      exact hsource
    have hcause₀ : ∀ m', r₀ ≠ .error .stackUnderflow m' := by
      rintro m' rfl
      exact hcause _ rfl
    have hbuild := Pairing.reaches_atop (fun fuel => Pairing.onReading_raising.answers_build fuel
      (fun _ _ => trivial) (fun h => h.admits_word) hrelated) hr₀ hcause₀
    exact reaches_evalSource_iff.mpr ⟨_, hbuild, Outcome.closed_atop m.source r₀ data returns⟩

/-- A word is defined and called, by its name and then by its address, with cells under both stacks. -/
theorem reaches_atop_base_of_doubling :
    ∃ m m', Reaches (fun fuel => eval fuel ": a dup >r r> + ; 3 a") (Machine.new 8) (.ok () m) ∧
      Reaches (fun fuel => eval fuel ": a dup >r r> + ; 3 a")
        ((Machine.new 8).atop (.ofList [.flag true]) (.ofList [.int 7]))
        (.ok () (m.atop (.ofList [.flag true]) (.ofList [.int 7]))) ∧
      Reaches (fun fuel => call fuel (.body 0)) m (.ok () m') ∧
      Reaches (fun fuel => call fuel (.body 0)) (m.atop (.ofList [.flag true]) (.ofList [.int 7]))
        (.ok () (m'.atop (.ofList [.flag true]) (.ofList [.int 7]))) ∧
      m'.data = .ofList [.int 12] := by
  have hnew : (Machine.new 8).Lacks (.primitive .clear) ∧
      (Machine.new 8).Lacks (.primitive .displayStack) := by
    decide +kernel
  have htokens : ∀ token ∈ (Source.ofChars bufferName ": a dup >r r> + ; 3 a".toList).readAll.1,
      (Machine.new 8).dictionary.find? token.text ≠ some (.primitive .clear) ∧
        (Machine.new 8).dictionary.find? token.text ≠ some (.primitive .displayStack) := by
    decide +kernel
  have hrun : (eval 20 ": a dup >r r> + ; 3 a").passes (Machine.new 8) (fun m =>
      decide (m.Lacks (.primitive .clear) ∧ m.Lacks (.primitive .displayStack)) &&
        (call 20 (.body 0)).passes m fun m' => decide (m'.data = .ofList [.int 12])) = true := by
    decide +kernel
  obtain ⟨_, m, hm, htest⟩ := of_passes hrun
  obtain ⟨hlacks, hcall⟩ := Bool.and_eq_true_iff.mp htest
  obtain ⟨hclear, hshow⟩ := of_decide_eq_true hlacks
  obtain ⟨_, m', hm', hdata⟩ := of_passes hcall
  have heval := (reaches_atop_base hnew.1 hnew.2 (.ofList [.flag true]) (.ofList [.int 7])).2
    ": a dup >r r> + ; 3 a" (.ok () m) htokens ⟨20, hm⟩ (by simp)
  have hbody := (reaches_atop_base hclear hshow (.ofList [.flag true]) (.ofList [.int 7])).1
    (.body 0) (.ok () m') (by decide) (by decide) ⟨20, hm'⟩ (by simp)
  exact ⟨m, m', ⟨20, hm⟩, heval, ⟨20, hm'⟩, hbody, of_decide_eq_true hdata⟩

end Forth

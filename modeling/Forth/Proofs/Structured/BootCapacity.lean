/-
Booting on heaps of any capacity.  If there is no room for the library, reading it comes to the end of
the heap, in whichever definition that is; if there is, the machine is the same but for the zeros behind
the code.  A capacity that no heap has is refused.
-/
import Forth.Proofs.Structured.Booted
import Forth.Proofs.Structured.Overflow

namespace Forth

open Machine Run

/-! ### Too few cells -/

namespace Library

namespace Stage

variable {s s' : Stage} {ws : List String} {capacity : Nat}

theorem Step.runsOut (h : Step ws s s') (hhere : s.cells.length ≤ capacity)
    (hfull : capacity < s'.cells.length) : RunsOut ws (s.machine capacity) := by
  cases h with
  -- nothing is appended
  | comment | colon | immediate => exact absurd hhere (Nat.not_le_of_lt hfull)
  | semicolon hmode hfind himmediate =>
      exact RunsOut.semicolon hmode hfind himmediate (by simpa [ended, Nat.lt_succ_iff] using hfull)
  | compile hmode hcells =>
      simp only [appended, List.length_append] at hfull
      apply RunsOut.of_stopsAt
      exact stopsAt_word_of_overflow (m := s.machine capacity) hmode hcells
        (by simp only [Heap.room, capacity_machine, here_machine]; omega)

/-- What is scanned comes to the end of the heap, if there is no room for it. -/
theorem Scans.runsOut (h : Scans ws s s') (hhere : s.cells.length ≤ capacity)
    (hfull : capacity < s'.cells.length) : RunsOut ws (s.machine capacity) := by
  induction h with
  | nil s => exact absurd hhere (Nat.not_le_of_lt hfull)
  | @step s s₁ _ _ words hstep _ ih =>
      by_cases hroom : s₁.cells.length ≤ capacity
      · exact .behind (hstep.reads hroom) (ih hroom hfull)
      · exact (hstep.runsOut hhere (Nat.lt_of_not_le hroom)).append words

theorem HasControl.runsOut_definition (hs : s.HasControl) {name : String} {P : Program} (hname : name ≠ ";")
    (hP : P.Known (s.begun name).dictionary) (hhere : s.cells.length ≤ capacity)
    (hfull : capacity < s.cells.length + P.code.length + 1) (hcapacity : capacity < Cell.addressLimit) :
    RunsOut (":" :: (name :: P.tokens ++ [";"])) (s.machine capacity) := by
  have hcompiling := hs.compiling name hhere hcapacity
  have hknown : P.Known ((s.machine capacity).begun name).dictionary :=
    begun_machine s name capacity ▸ hP
  exact .definition hs.mode hs.colon hs.semicolon hs.isImmediate hname (P.compiles hcompiling hknown)
    (P.overfills hcompiling hknown) (by simpa using hhere) (by simpa using hfull)

end Stage

/-- The words of the library come to the end of a heap that is too small for them. -/
theorem runsOut_words {capacity : Nat} (hfull : capacity < 185) : RunsOut words (Machine.new capacity) := by
  have hcapacity : capacity < Cell.addressLimit := Nat.lt_trans hfull (by decide)
  rw [← List.take_append_drop 277 words]
  by_cases hscan : capacity < 167
  · have hfirst := scans_words.runsOut (Nat.zero_le capacity) (length_controlStage ▸ hscan)
    exact RunsOut.append hfirst _
  have hfirst := scans_words.reads (length_controlStage ▸ Nat.le_of_not_lt hscan)
  apply RunsOut.behind hfirst
  rw [scan_words.2]
  by_cases hminimum : capacity < 176
  · have hdefinition := hasControl_controlStage.runsOut_definition (by decide) known_minimum
      (length_controlStage ▸ Nat.le_of_not_lt hscan)
      (by simpa [length_minimum, length_controlStage] using hminimum) hcapacity
    exact hdefinition.append _
  · have hdefinition := hasControl_minimumStage.runsOut_definition (by decide) known_maximum
      (length_minimumStage ▸ Nat.le_of_not_lt hminimum)
      (by simpa [length_maximum, length_minimumStage] using hfull) hcapacity
    exact .behind (reads_minimum (Nat.le_of_not_lt hminimum) hcapacity) hdefinition

end Library

theorem Machine.boot_of_lt {capacity : Nat} (hfull : capacity < 185) :
    ∃ fuel m, boot fuel capacity = some (.error .heapOverflow m) := by
  obtain ⟨m, fuel, hfuel⟩ := (Library.runsOut_words hfull).evalSource_of_readAll
    (Source.ofChars Library.name Library.text) rfl
  have hfits : capacity ≤ Heap.maxCapacity := Nat.le_trans (Nat.le_of_lt hfull) (by decide)
  exact ⟨fuel, m, boot_eq_some_iff.mpr ⟨hfits, hfuel⟩⟩

/-! ### Enough cells -/

namespace Machine

theorem get?_booted_of_lt {capacity a : Nat} (hroom : 185 ≤ capacity) (ha : a < 185) :
    (booted capacity).heap.get? a = Library.cells[a]? := by
  have hsome := List.getElem?_eq_getElem (Library.length_cells.symm ▸ ha)
  rw [hsome]
  simpa using (holds_booted hroom a _ hsome).2

theorem get?_booted_of_le {capacity a : Nat} (ha : 185 ≤ a) (hcapacity : a < capacity) :
    (booted capacity).heap.get? a = some Cell.zero := by
  have hbehind : (booted capacity).heap.get? a = (Heap.ofCapacity capacity).get? a :=
    Heap.get?_fill_of_le _ (by simpa [Library.length_cells] using ha)
  rw [hbehind]
  simp [Heap.ofCapacity, Heap.get?, hcapacity]

/-- A machine with a heap of the given capacity has been booted as another one: the same words, the same
code and zeros behind it, and nothing under way. -/
structure BootedAs (m₀ m : Machine) (capacity : Nat) : Prop where
  dictionary_eq : m.dictionary = m₀.dictionary
  capacity_eq : m.heap.capacity = capacity
  here_eq : m.heap.here = m₀.heap.here
  code : ∀ a < m₀.heap.here, m.heap.get? a = m₀.heap.get? a
  zeros : ∀ a, m₀.heap.here ≤ a → a < capacity → m.heap.get? a = some Cell.zero
  ip : m.ip = 0
  data : m.data = .empty
  returns : m.returns = .empty
  mode : m.mode = .interpret
  source : m.source = none
  lastError : m.lastError = none

theorem bootedAs_booted {capacity capacity₀ : Nat} (hroom : 185 ≤ capacity) (hroom₀ : 185 ≤ capacity₀) :
    (booted capacity₀).BootedAs (booted capacity) capacity where
  dictionary_eq := rfl
  capacity_eq := capacity_booted capacity
  here_eq := (here_booted capacity).trans (here_booted capacity₀).symm
  code a ha := by
    rw [here_booted] at ha
    rw [get?_booted_of_lt hroom ha, get?_booted_of_lt hroom₀ ha]
  zeros a ha hcapacity := get?_booted_of_le (here_booted capacity₀ ▸ ha) hcapacity
  ip := rfl
  data := rfl
  returns := rfl
  mode := rfl
  source := rfl
  lastError := rfl

end Machine

/-- Booting depends on the capacity only through fitting.  Below the number of cells that the library
takes on a heap of the usual capacity, booting comes to the end of the heap.  From there on, as far as
there are heaps, it succeeds with the same dictionary and the same code, and nothing but zeros is added. -/
theorem boot_by_capacity :
    ∃ m₀, (∃ fuel, boot fuel defaultCapacity = some (.ok () m₀)) ∧ ∀ capacity,
      (capacity < m₀.heap.here → ∃ fuel m, boot fuel capacity = some (.error .heapOverflow m)) ∧
      (m₀.heap.here ≤ capacity → capacity ≤ Heap.maxCapacity →
        ∃ fuel m, boot fuel capacity = some (.ok () m) ∧ m₀.BootedAs m capacity) := by
  have hroom₀ : 185 ≤ defaultCapacity := by decide
  refine ⟨booted defaultCapacity, reaches_boot hroom₀ (by decide),
    fun capacity => ⟨fun hfull => ?_, fun hroom hfits => ?_⟩⟩
  · exact boot_of_lt (here_booted defaultCapacity ▸ hfull)
  · rw [here_booted] at hroom
    obtain ⟨fuel, hboot⟩ := reaches_boot hroom hfits
    exact ⟨fuel, _, hboot, bootedAs_booted hroom hroom₀⟩

/-- On 184 cells the last definition does not fit; on 185 cells nothing is left behind it. -/
theorem boot_by_capacity_at_edge :
    ∃ m₀, (∃ fuel, boot fuel defaultCapacity = some (.ok () m₀)) ∧ m₀.heap.here = 185 ∧
      (∃ fuel m, boot fuel 184 = some (.error .heapOverflow m)) ∧
      ∃ fuel m, boot fuel 185 = some (.ok () m) ∧ m₀.BootedAs m 185 := by
  obtain ⟨m₀, ⟨fuel, hboot⟩, hcapacity⟩ := boot_by_capacity
  obtain ⟨fuel', hboot'⟩ := @reaches_boot defaultCapacity (by decide) (by decide)
  have hhere : m₀.heap.here = 185 := by
    rw [boot_unique hboot hboot', here_booted]
  refine ⟨m₀, ⟨fuel, hboot⟩, hhere, (hcapacity 184).1 ?_, (hcapacity 185).2 ?_ (by decide)⟩
  · rw [hhere]
    decide
  · rw [hhere]

/-- Without the bound booting need not succeed: there is no heap of as many cells as the largest word
says, though the library would fit. -/
theorem boot_refused_of_largest_capacity :
    ∃ m₀, (∃ fuel, boot fuel defaultCapacity = some (.ok () m₀)) ∧
      m₀.heap.here ≤ 18446744073709551615 ∧ ∀ fuel, boot fuel 18446744073709551615 = none := by
  refine ⟨booted defaultCapacity, reaches_boot (by decide) (by decide), ?_, ?_⟩
  · rw [here_booted]
    decide
  · exact boot_of_maxCapacity_lt (by decide)

end Forth

import Mathlib.Algebra.GroupWithZero.Nat
import Mathlib.Data.List.Basic
import Mathlib.Data.List.Pairwise

/-!
# `timestamped_ranges.sql`

The samples that count cycles or instructions, in the order of their id, turned into
adjacent ranges: each with what it counts, and what has been counted up to its start and up
to its end. The cumulative cycles serve as the clock of everything that follows.

What later queries use of it: a range spans its own counts (`range_adds`), it starts where
another one ends or at zero (`range_start`), and ranges do not overlap (`ranges_before`).
Samples that count no cycle make ranges of no width, which end where the one before ends.
-/

namespace ShouldIAsync.IntelProcTrace

/-- A row of `samples_view`. -/
structure Sample where
  id : Nat
  time : Nat
  insnCount : Nat
  cycCount : Nat

/-- `insn_count > 0 or cyc_count > 0` -/
def Sample.counted (s : Sample) : Bool := decide (0 < s.insnCount) || decide (0 < s.cycCount)

/-- A row of `timestamped_ranges`; `none` is what `lag` gives the first one. -/
structure Range where
  startSampleId : Option Nat
  startTime : Option Nat
  startCumInsns : Option Nat
  startCumCyc : Option Nat
  endSampleId : Nat
  endTime : Nat
  endCumInsns : Nat
  endCumCyc : Nat
  insnCount : Nat
  cycCount : Nat

/-- The ranges of samples that follow the range `prev`. -/
def rangesFrom (prev : Option Range) : List Sample → List Range
  | [] => []
  | s :: samples =>
    let range : Range :=
      { startSampleId := prev.map (·.endSampleId)
        startTime := prev.map (·.endTime)
        startCumInsns := prev.map (·.endCumInsns)
        startCumCyc := prev.map (·.endCumCyc)
        endSampleId := s.id
        endTime := s.time
        endCumInsns := (prev.map (·.endCumInsns)).getD 0 + s.insnCount
        endCumCyc := (prev.map (·.endCumCyc)).getD 0 + s.cycCount
        insnCount := s.insnCount
        cycCount := s.cycCount }
    range :: rangesFrom (some range) samples

/-- `timestamped_ranges`, of the rows of `samples_view` in the order of their id. -/
def timestampedRanges (samplesView : List Sample) : List Range :=
  rangesFrom none (samplesView.filter Sample.counted)

/-- The cumulative cycles before the range. -/
def Range.startCyc (r : Range) : Nat := r.startCumCyc.getD 0

/-- The instructions before the range. -/
def Range.startInsns (r : Range) : Nat := r.startCumInsns.getD 0

/-- One range is over when the other starts. -/
structure Range.Before (r r' : Range) : Prop where
  cyc : r.endCumCyc ≤ r'.startCyc
  insns : r.endCumInsns ≤ r'.startInsns

variable {prev : Option Range} {samples : List Sample} {r r' : Range}

/-- What is before the first of the ranges is before all of them. -/
theorem rangesFrom_after (h : r ∈ rangesFrom prev samples) :
    (prev.map (·.endCumCyc)).getD 0 ≤ r.startCyc ∧ (prev.map (·.endCumInsns)).getD 0 ≤
      r.startInsns := by
  induction samples generalizing prev with
  | nil => cases h
  | cons s samples ih =>
    rw [rangesFrom, List.mem_cons] at h
    rcases h with rfl | h
    · exact ⟨Nat.le_refl _, Nat.le_refl _⟩
    · obtain ⟨hcyc, hinsns⟩ := ih h
      exact ⟨Nat.le_trans (Nat.le_add_right _ _) hcyc, Nat.le_trans (Nat.le_add_right _ _) hinsns⟩

/-- Each range ends before the next one starts. -/
theorem rangesFrom_before (prev : Option Range) (samples : List Sample) :
    (rangesFrom prev samples).Pairwise Range.Before := by
  induction samples generalizing prev with
  | nil => exact List.Pairwise.nil
  | cons s samples ih =>
    rw [rangesFrom, List.pairwise_cons]
    refine ⟨fun r hr => ?_, ih _⟩
    obtain ⟨hcyc, hinsns⟩ := rangesFrom_after hr
    exact ⟨hcyc, hinsns⟩

/-- A range adds its cycles and instructions to those before it. -/
theorem rangesFrom_adds (h : r ∈ rangesFrom prev samples) :
    r.endCumCyc = r.startCyc + r.cycCount ∧ r.endCumInsns = r.startInsns + r.insnCount := by
  induction samples generalizing prev with
  | nil => cases h
  | cons s samples ih =>
    rw [rangesFrom, List.mem_cons] at h
    rcases h with rfl | h
    · exact ⟨Eq.refl _, Eq.refl _⟩
    · exact ih h

/-- It starts where another one ends, or where all begin. -/
theorem rangesFrom_start (h : r ∈ rangesFrom prev samples) :
    (r.startCyc = (prev.map (·.endCumCyc)).getD 0 ∧
      r.startInsns = (prev.map (·.endCumInsns)).getD 0) ∨
      ∃ r' ∈ rangesFrom prev samples, r'.endCumCyc = r.startCyc ∧
        r'.endCumInsns = r.startInsns := by
  induction samples generalizing prev with
  | nil => cases h
  | cons s samples ih =>
    rw [rangesFrom, List.mem_cons] at h
    rcases h with rfl | h
    · exact Or.inl ⟨Eq.refl _, Eq.refl _⟩
    · right
      rcases ih h with ⟨hcyc, hinsns⟩ | ⟨r', hr', hcyc, hinsns⟩
      · exact ⟨_, List.mem_cons_self, hcyc.symm, hinsns.symm⟩
      · exact ⟨r', List.mem_cons_of_mem _ hr', hcyc, hinsns⟩

/-- Its cycles are those of a sample. -/
theorem rangesFrom_cycCount (h : r ∈ rangesFrom prev samples) :
    ∃ s ∈ samples, s.cycCount = r.cycCount := by
  induction samples generalizing prev with
  | nil => cases h
  | cons s samples ih =>
    rw [rangesFrom, List.mem_cons] at h
    rcases h with rfl | h
    · exact ⟨s, List.mem_cons_self, Eq.refl _⟩
    · obtain ⟨s', hs', hcyc⟩ := ih h
      exact ⟨s', List.mem_cons_of_mem _ hs', hcyc⟩

/-! ## The table -/

variable {samplesView : List Sample}

/-- A range spans what it counts. -/
theorem range_adds (h : r ∈ timestampedRanges samplesView) :
    r.endCumCyc = r.startCyc + r.cycCount ∧ r.endCumInsns = r.startInsns + r.insnCount :=
  rangesFrom_adds h

/-- A range starts at zero, or where another one ends. -/
theorem range_start (h : r ∈ timestampedRanges samplesView) :
    (r.startCyc = 0 ∧ r.startInsns = 0) ∨
      ∃ r' ∈ timestampedRanges samplesView, r'.endCumCyc = r.startCyc ∧
        r'.endCumInsns = r.startInsns :=
  rangesFrom_start h

/-- Of two ranges with different ends the one that ends first is over before the other. -/
theorem ranges_before (h : r ∈ timestampedRanges samplesView)
    (h' : r' ∈ timestampedRanges samplesView) (hlt : r.endCumCyc < r'.endCumCyc) : r.Before r' := by
  have hpair := rangesFrom_before none (samplesView.filter Sample.counted)
  have hends : ∀ {a b : Range}, b ∈ timestampedRanges samplesView → a.Before b →
      a.endCumCyc ≤ b.endCumCyc := by
    intro a b hb hab
    have hadds := (range_adds hb).1
    have hcyc := hab.cyc
    omega
  have hne : r ≠ r' := by
    intro heq
    rw [heq] at hlt
    exact Nat.lt_irrefl _ hlt
  have hor : r.Before r' ∨ r'.Before r := by
    have hsymm : Std.Symm fun a b : Range => a.Before b ∨ b.Before a := ⟨fun a b hab => hab.symm⟩
    exact List.Pairwise.forall (R := fun a b => a.Before b ∨ b.Before a) (hpair.imp Or.inl) h h' hne
  rcases hor with hbefore | hafter
  · exact hbefore
  · have hle := hends h hafter
    omega

/-- If every sample that counts something counts a cycle, so does every range, -/
theorem range_cycCount_pos (hcyc : ∀ s ∈ samplesView, s.counted = true → 1 ≤ s.cycCount)
    (h : r ∈ timestampedRanges samplesView) : 1 ≤ r.cycCount := by
  obtain ⟨s, hs, heq⟩ := rangesFrom_cycCount h
  obtain ⟨hmem, hcounted⟩ := List.mem_filter.mp hs
  rw [← heq]
  exact hcyc s hmem hcounted

/-- and no two ranges end together. -/
theorem ranges_strict (hcyc : ∀ s ∈ samplesView, s.counted = true → 1 ≤ s.cycCount) :
    (timestampedRanges samplesView).Pairwise fun r r' => r.endCumCyc < r'.endCumCyc := by
  refine List.Pairwise.imp_of_mem ?_ (rangesFrom_before none _)
  intro r r' _ hr' hbefore
  have hadds := (range_adds hr').1
  have hone := range_cycCount_pos hcyc hr'
  have hstart := hbefore.cyc
  omega

end ShouldIAsync.IntelProcTrace

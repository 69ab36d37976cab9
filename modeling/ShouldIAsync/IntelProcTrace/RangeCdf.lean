import ShouldIAsync.IntelProcTrace.TimestampedRanges
import ShouldIAsync.Lib.RunningSum
import Mathlib.Algebra.Order.BigOperators.Group.List
import Mathlib.Algebra.Order.Field.Rat
import Mathlib.Data.Nat.Find
import Mathlib.Tactic.NormNum

/-!
# `samples_for_cdf` and `range_cdf` of `cdf_prep`

The longest samples are left out, as many as take a given part of all cycles. The running sum
for that goes up to the last of the samples that are equally long, so these stay or go together,
and a sample without cycles stays whatever the part is. What stays has cycles, since a part
below 1 of them goes, and that is what both distributions are normalised by.

Quotients are exact here.
-/

namespace ShouldIAsync.IntelProcTrace

open ShouldIAsync.Lib

/-- A row of `timestamped_ranges`, with its `branch_type_name`. -/
structure Branch extends Range where
  branchTypeName : Option String

/-- `branch_type_name <> 'trace begin'`, which does not hold of NULL -/
def Branch.counts (row : Branch) : Bool :=
  match row.branchTypeName with
  | some name => name != "trace begin"
  | none => false

/-- A row of `t1` of `samples_for_cdf` -/
structure CdfSample where
  insnCount : Nat
  cycCount : Nat
  deriving DecidableEq

/-- The samples that count. -/
def cdfSamples (rows : List Branch) : List CdfSample :=
  (rows.filter Branch.counts).map fun row => ⟨row.insnCount, row.cycCount⟩

/-- A row of `samples_for_cdf` -/
structure SampleForCdf extends CdfSample where
  cumCycles : Nat
  cumCyclesPerc : ℚ

/-- `t2` of `samples_for_cdf`. The window is in the order of `cyc_count DESC`. -/
def CdfSample.cumulated (t1 : List CdfSample) (s : CdfSample) : SampleForCdf :=
  let cumCycles := sumWhere (fun s' => s.cycCount ≤ s'.cycCount) CdfSample.cycCount t1
  { s with
    cumCycles := cumCycles
    cumCyclesPerc := (cumCycles : ℚ) / (t1.map CdfSample.cycCount).sum }

/-- `samples_for_cdf` -/
def samplesForCdf (cumulativeLongestTimeToDiscard : ℚ) (rows : List Branch) : List SampleForCdf :=
  let t1 := cdfSamples rows
  (t1.map (CdfSample.cumulated t1)).filter fun s => cumulativeLongestTimeToDiscard < s.cumCyclesPerc

/-- A row of `t1` of `range_cdf` -/
structure CycGroup where
  cycCount : Nat
  c : Nat
  weightedC : Nat
  cInsns5 : Nat
  cInsns25 : Nat
  cInsns125 : Nat

/-- The group of a `cyc_count`. -/
def cycGroup (samples : List SampleForCdf) (cycCount : Nat) : CycGroup :=
  let group := samples.filter fun s => s.cycCount = cycCount
  { cycCount := cycCount
    c := group.length
    weightedC := group.length * cycCount
    cInsns5 := (group.filter fun s => s.insnCount ≤ 1).length
    cInsns25 := (group.filter fun s => s.insnCount ≤ 20).length
    cInsns125 := (group.filter fun s => s.insnCount ≤ 100).length }

/-- `t1` of `range_cdf` -/
def cycGroups (samples : List SampleForCdf) : List CycGroup :=
  (samples.map fun s => s.cycCount).dedup.map (cycGroup samples)

/-- A row of `t2` of `range_cdf` -/
structure CdfSum extends CycGroup where
  nonnormalizedCdf : Nat
  nonnormalizedWeightedCdf : Nat
  percInsns5 : ℚ
  percInsns25 : ℚ
  percInsns125 : ℚ

/-- A row of `cdf_sums` -/
def CycGroup.summed (t1 : List CycGroup) (g : CycGroup) : CdfSum :=
  { g with
    nonnormalizedCdf := sumWhere (fun g' => g'.cycCount ≤ g.cycCount) CycGroup.c t1
    nonnormalizedWeightedCdf := sumWhere (fun g' => g'.cycCount ≤ g.cycCount) CycGroup.weightedC t1
    percInsns5 := (g.cInsns5 : ℚ) / g.c
    percInsns25 := (g.cInsns25 : ℚ) / g.c
    percInsns125 := (g.cInsns125 : ℚ) / g.c }

/-- `t2` of `range_cdf` -/
def cdfSums (samples : List SampleForCdf) : List CdfSum :=
  (cycGroups samples).map (CycGroup.summed (cycGroups samples))

/-- `select max(nonnormalized_cdf) from t2`; without rows it is NULL, and nothing is divided by it.
-/
def maxCdf (samples : List SampleForCdf) : Nat :=
  ((cdfSums samples).map CdfSum.nonnormalizedCdf).max?.getD 0

/-- `select max(nonnormalized_weighted_cdf) from t2` -/
def maxWeightedCdf (samples : List SampleForCdf) : Nat :=
  ((cdfSums samples).map CdfSum.nonnormalizedWeightedCdf).max?.getD 0

/-- A row of `range_cdf` -/
structure CdfRow where
  cycCount : Nat
  cdf : ℚ
  weightedCdf : ℚ
  percInsns5Stacked : ℚ
  percInsns25Stacked : ℚ
  percInsns125Stacked : ℚ
  percInsns125PlusStacked : ℚ

/-- `range_cdf` -/
def rangeCdf (samples : List SampleForCdf) : List CdfRow :=
  (cdfSums samples).map fun row =>
    { cycCount := row.cycCount
      cdf := (row.nonnormalizedCdf : ℚ) / maxCdf samples
      weightedCdf := (row.nonnormalizedWeightedCdf : ℚ) / maxWeightedCdf samples
      percInsns5Stacked := row.percInsns5
      percInsns25Stacked := row.percInsns25 - row.percInsns5
      percInsns125Stacked := row.percInsns125 - row.percInsns25
      percInsns125PlusStacked := 1 - row.percInsns125 }

/-! ## What the tables are to be -/

/-- The samples that count `c` cycles or more have at most the part `p` of all cycles. -/
def Discardable (p : ℚ) (samples : List CdfSample) (c : Nat) : Prop :=
  (sumWhere (fun s => c ≤ s.cycCount) CdfSample.cycCount samples : ℚ) ≤
    p * (samples.map CdfSample.cycCount).sum

/-- Of the longest samples as many are left out as may be. -/
def Trimmed (p : ℚ) (samples kept : List CdfSample) : Prop :=
  ∃ c, (∀ c', Discardable p samples c' ↔ c ≤ c') ∧ kept = samples.filter fun s => s.cycCount < c

/-- The rows are the distribution functions of the samples by their cycles, by number and by
weight. -/
structure IsCdf (samples : List SampleForCdf) (rows : List CdfRow) : Prop where
  exists_row : rows ≠ []
  distinct : (rows.map CdfRow.cycCount).Nodup
  counts : ∀ k, k ∈ rows.map CdfRow.cycCount ↔ k ∈ samples.map fun s => s.cycCount
  divisors : maxCdf samples ≠ 0 ∧ maxWeightedCdf samples ≠ 0 ∧ ∀ g ∈ cycGroups samples, g.c ≠ 0
  cdf : ∀ row ∈ rows, row.cdf * samples.length = (samples.filter fun s =>
    s.cycCount ≤ row.cycCount).length
  weightedCdf : ∀ row ∈ rows, row.weightedCdf * (samples.map fun s => s.cycCount).sum =
    sumWhere (fun s => s.cycCount ≤ row.cycCount) (fun s => s.cycCount) samples
  monotone : ∀ row ∈ rows, ∀ row' ∈ rows, row.cycCount ≤ row'.cycCount →
    row.cdf ≤ row'.cdf ∧ row.weightedCdf ≤ row'.weightedCdf
  bounds : ∀ row ∈ rows, (0 ≤ row.cdf ∧ row.cdf ≤ 1) ∧ 0 ≤ row.weightedCdf ∧ row.weightedCdf ≤ 1
  largest : ∀ row ∈ rows, (∀ row' ∈ rows, row'.cycCount ≤ row.cycCount) → row.cdf = 1 ∧
    row.weightedCdf = 1
  stacked_nonneg : ∀ row ∈ rows, 0 ≤ row.percInsns5Stacked ∧ 0 ≤ row.percInsns25Stacked ∧
    0 ≤ row.percInsns125Stacked ∧ 0 ≤ row.percInsns125PlusStacked
  stacked_sum : ∀ row ∈ rows, row.percInsns5Stacked + row.percInsns25Stacked +
    row.percInsns125Stacked +
    row.percInsns125PlusStacked = 1

/-! ## `samples_for_cdf` -/

section Discard

variable {p : ℚ} {rows : List Branch} {samples : List CdfSample}

/-- Where a sample may be discarded a longer one may be. -/
theorem Discardable.mono {c c' : Nat} (h : Discardable p samples c) (hle : c ≤ c') :
    Discardable p samples c' := by
  refine le_trans (Nat.cast_le.mpr ?_) h
  exact sumWhere_mono fun s _ hs => Nat.le_trans hle hs

/-- Above the longest sample there is nothing to leave out. -/
theorem exists_discardable (hp : 0 ≤ p) (samples : List CdfSample) :
    ∃ c, Discardable p samples c := by
  refine ⟨(samples.map CdfSample.cycCount).sum + 1, ?_⟩
  unfold Discardable
  rw [sumWhere_none, Nat.cast_zero]
  · exact mul_nonneg hp (Nat.cast_nonneg _)
  · intro s hs
    exact Nat.not_le_of_lt (Nat.lt_succ_of_le (List.le_sum_of_mem (List.mem_map_of_mem hs)))

/-- **A sample stays unless it is among those that may be left out.** -/
theorem lt_cumCyclesPerc_iff (hpos : 0 < ((cdfSamples rows).map CdfSample.cycCount).sum) :
    ∀ s ∈ cdfSamples rows, (p < (s.cumulated (cdfSamples rows)).cumCyclesPerc ↔
      ¬ Discardable p (cdfSamples rows) s.cycCount) := by
  intro s _
  unfold Discardable CdfSample.cumulated
  rw [lt_div_iff₀ (Nat.cast_pos.mpr hpos), not_le]

/-- The query trims as it says. -/
theorem trimmed_samplesForCdf (hp : 0 ≤ p)
    (hpos : 0 < ((cdfSamples rows).map CdfSample.cycCount).sum) :
    Trimmed p (cdfSamples rows) ((samplesForCdf p rows).map SampleForCdf.toCdfSample) := by
  classical
  obtain ⟨c, hc, hleast⟩ : ∃ c, Discardable p (cdfSamples rows) c ∧
      ∀ c', Discardable p (cdfSamples rows) c' → c ≤ c' :=
    ⟨Nat.find (exists_discardable hp _), Nat.find_spec (exists_discardable hp _),
      fun c' hc' => Nat.find_min' (exists_discardable hp _) hc'⟩
  have hiff : ∀ c', Discardable p (cdfSamples rows) c' ↔ c ≤ c' := fun c' => ⟨hleast c', hc.mono⟩
  refine ⟨c, hiff, ?_⟩
  unfold samplesForCdf
  rw [List.filter_map, List.map_map]
  calc _ = ((cdfSamples rows).filter _).map id := rfl
    _ = _ := by
      rw [List.map_id]
      refine List.filter_congr fun s hs => ?_
      show decide (p < (s.cumulated (cdfSamples rows)).cumCyclesPerc) = _
      rw [decide_eq_decide, lt_cumCyclesPerc_iff hpos s hs, hiff, not_le]

/-- What stays has cycles. -/
theorem sum_kept_pos {kept : List CdfSample} (hp1 : p < 1)
    (hpos : 0 < (samples.map CdfSample.cycCount).sum)
    (h : Trimmed p samples kept) : 0 < (kept.map CdfSample.cycCount).sum := by
  obtain ⟨c, hiff, rfl⟩ := h
  have hdiscard : Discardable p samples c := (hiff c).mpr (Nat.le_refl c)
  have hless : (sumWhere (fun s => c ≤ s.cycCount) CdfSample.cycCount samples : ℚ) <
      (samples.map CdfSample.cycCount).sum :=
    lt_of_le_of_lt hdiscard (mul_lt_of_lt_one_left (Nat.cast_pos.mpr hpos) hp1)
  have hsplit := sumWhere_add_not (fun s : CdfSample => c ≤ s.cycCount) CdfSample.cycCount samples
  have hkept : sumWhere (fun s : CdfSample => ¬ c ≤ s.cycCount) CdfSample.cycCount samples =
      ((samples.filter fun s => s.cycCount < c).map CdfSample.cycCount).sum :=
    sumWhere_congr fun s _ => Nat.not_le
  have hless' := Nat.cast_lt.mp hless
  omega

end Discard

/-! ## `range_cdf` -/

section Cdf

variable {samples : List SampleForCdf} {k : Nat}

/-- The samples of up to `k` cycles. -/
def countUpTo (samples : List SampleForCdf) (k : Nat) : Nat :=
  sumWhere (fun s => s.cycCount ≤ k) (fun _ => 1) samples

/-- Their cycles. -/
def cyclesUpTo (samples : List SampleForCdf) (k : Nat) : Nat :=
  sumWhere (fun s => s.cycCount ≤ k) (fun s => s.cycCount) samples

theorem c_cycGroup (samples : List SampleForCdf) (k : Nat) :
    (cycGroup samples k).c = sumWhere (fun s => s.cycCount = k) (fun _ => 1) samples :=
  (sumWhere_one _ _).symm

theorem weightedC_cycGroup (samples : List SampleForCdf) (k : Nat) :
    (cycGroup samples k).weightedC = sumWhere (fun s => s.cycCount = k)
      (fun s => s.cycCount) samples := by
  rw [sumWhere_key, sumWhere_one]
  rfl

/-- The running sums over the groups are those over the samples. -/
theorem nonnormalizedCdf_eq (samples : List SampleForCdf) (k : Nat) :
    ((cycGroup samples k).summed (cycGroups samples)).nonnormalizedCdf = countUpTo samples k := by
  show sumWhere (fun g' => g'.cycCount ≤ k) CycGroup.c (cycGroups samples) = _
  unfold cycGroups
  rw [sumWhere_map, sumWhere_congr_weight fun k' _ => c_cycGroup samples k']
  exact sum_groups (fun s : SampleForCdf => s.cycCount) (fun _ => 1) samples fun k' => k' ≤ k

/-- The running sum of the cycles. -/
theorem nonnormalizedWeightedCdf_eq (samples : List SampleForCdf) (k : Nat) :
    ((cycGroup samples k).summed (cycGroups samples)).nonnormalizedWeightedCdf =
      cyclesUpTo samples k := by
  show sumWhere (fun g' => g'.cycCount ≤ k) CycGroup.weightedC (cycGroups samples) = _
  unfold cycGroups
  rw [sumWhere_map, sumWhere_congr_weight fun k' _ => weightedC_cycGroup samples k']
  exact sum_groups (fun s : SampleForCdf => s.cycCount) (fun s =>
    s.cycCount) samples fun k' => k' ≤ k

/-- There is a row for each number of cycles that occurs. -/
theorem cdfSums_eq (samples : List SampleForCdf) :
    cdfSums samples = (samples.map fun s => s.cycCount).dedup.map fun k =>
      (cycGroup samples k).summed (cycGroups samples) := by
  unfold cdfSums
  conv_lhs =>
    arg 2
    unfold cycGroups
  exact List.map_map

theorem sum_one (samples : List SampleForCdf) : (samples.map fun _ => 1).sum = samples.length := by
  rw [List.map_const', List.sum_replicate_nat, Nat.mul_one]

/-- The normalisers are the totals. -/
theorem maxCdf_eq (samples : List SampleForCdf) : maxCdf samples = samples.length := by
  have hmap : (cdfSums samples).map CdfSum.nonnormalizedCdf =
      (samples.map fun s => s.cycCount).dedup.map (countUpTo samples) := by
    rw [cdfSums_eq, List.map_map]
    exact List.map_congr_left fun k _ => nonnormalizedCdf_eq samples k
  unfold maxCdf
  rw [hmap]
  exact (max_running (fun s : SampleForCdf => s.cycCount) (fun _ => 1) samples).trans
    (sum_one samples)

/-- The largest running sum is the sum of all cycles. -/
theorem maxWeightedCdf_eq (samples : List SampleForCdf) :
    maxWeightedCdf samples = (samples.map fun s => s.cycCount).sum := by
  have hmap : (cdfSums samples).map CdfSum.nonnormalizedWeightedCdf =
      (samples.map fun s => s.cycCount).dedup.map (cyclesUpTo samples) := by
    rw [cdfSums_eq, List.map_map]
    exact List.map_congr_left fun k _ => nonnormalizedWeightedCdf_eq samples k
  unfold maxWeightedCdf
  rw [hmap]
  exact max_running (fun s : SampleForCdf => s.cycCount) (fun s => s.cycCount) samples

/-- The row of a `cyc_count`: the parts of the samples, and of their cycles, up to it, and the parts
of its samples by instructions. -/
theorem mem_rangeCdf {row : CdfRow} : row ∈ rangeCdf samples ↔
    ∃ k ∈ samples.map (fun s => s.cycCount), row =
    { cycCount := k
      cdf := (countUpTo samples k : ℚ) / samples.length
      weightedCdf := (cyclesUpTo samples k : ℚ) / (samples.map fun s => s.cycCount).sum
      percInsns5Stacked := ((cycGroup samples k).cInsns5 : ℚ) / (cycGroup samples k).c
      percInsns25Stacked := ((cycGroup samples k).cInsns25 : ℚ) / (cycGroup samples k).c -
        ((cycGroup samples k).cInsns5 : ℚ) / (cycGroup samples k).c
      percInsns125Stacked := ((cycGroup samples k).cInsns125 : ℚ) / (cycGroup samples k).c -
        ((cycGroup samples k).cInsns25 : ℚ) / (cycGroup samples k).c
      percInsns125PlusStacked :=
          1 - ((cycGroup samples k).cInsns125 : ℚ) / (cycGroup samples k).c } := by
  unfold rangeCdf
  rw [cdfSums_eq, List.map_map, maxCdf_eq, maxWeightedCdf_eq, List.mem_map]
  simp only [List.mem_dedup]
  refine exists_congr fun k => and_congr_right fun _ => ?_
  dsimp only [Function.comp]
  rw [nonnormalizedCdf_eq, nonnormalizedWeightedCdf_eq, eq_comm]
  rfl

/-- There is a row for each number of cycles that occurs. -/
theorem map_cycCount_rangeCdf (samples : List SampleForCdf) :
    (rangeCdf samples).map CdfRow.cycCount = (samples.map fun s => s.cycCount).dedup := by
  unfold rangeCdf
  rw [cdfSums_eq, List.map_map, List.map_map]
  exact List.map_id _

/-- The parts by instructions are of one group, each within the next. -/
theorem cInsns_le (samples : List SampleForCdf) (k : Nat) :
    (cycGroup samples k).cInsns5 ≤ (cycGroup samples k).cInsns25 ∧
      (cycGroup samples k).cInsns25 ≤ (cycGroup samples k).cInsns125 ∧
      (cycGroup samples k).cInsns125 ≤ (cycGroup samples k).c := by
  refine ⟨?_, ?_, List.length_filter_le _ _⟩
  · exact length_filter_mono fun s _ hs => Nat.le_trans hs (by decide)
  · exact length_filter_mono fun s _ hs => Nat.le_trans hs (by decide)

theorem c_pos (hk : k ∈ samples.map fun s => s.cycCount) : 0 < (cycGroup samples k).c := by
  obtain ⟨s, hs, rfl⟩ := List.mem_map.mp hk
  exact List.length_pos_of_mem (List.mem_filter.mpr ⟨hs, decide_eq_true rfl⟩)

/-- Where there are cycles there are samples. -/
theorem ne_nil_of_cycles (hpos : 0 < (samples.map fun s => s.cycCount).sum) : samples ≠ [] := by
  rintro rfl
  exact absurd hpos (Nat.lt_irrefl 0)

theorem length_pos_of_cycles (hpos : 0 < (samples.map fun s => s.cycCount).sum) :
    (0 : ℚ) < samples.length :=
  Nat.cast_pos.mpr (List.length_pos_of_ne_nil (ne_nil_of_cycles hpos))

/-- A count is at most that of all samples. -/
theorem countUpTo_le (samples : List SampleForCdf) (k : Nat) :
    countUpTo samples k ≤ samples.length :=
  (sumWhere_le _ _ _).trans_eq (sum_one samples)

/-- Up to the most cycles are all of them. -/
theorem upTo_largest (hk : ∀ k' ∈ samples.map (fun s => s.cycCount), k' ≤ k) :
    countUpTo samples k = samples.length ∧
      cyclesUpTo samples k = (samples.map fun s => s.cycCount).sum := by
  have hle : ∀ s ∈ samples, s.cycCount ≤ k := fun s hs => hk _ (List.mem_map_of_mem hs)
  exact ⟨(sumWhere_all hle).trans (sum_one samples), sumWhere_all hle⟩

/-- Both distributions are between 0 and 1. -/
theorem rangeCdf_bounds (hpos : 0 < (samples.map fun s => s.cycCount).sum) {row : CdfRow}
    (hrow : row ∈ rangeCdf samples) : (0 ≤ row.cdf ∧ row.cdf ≤ 1) ∧ 0 ≤ row.weightedCdf ∧
      row.weightedCdf ≤ 1 := by
  obtain ⟨k, -, rfl⟩ := mem_rangeCdf.mp hrow
  have hlength := length_pos_of_cycles hpos
  have hcycles : (0 : ℚ) < (samples.map fun s => s.cycCount).sum := Nat.cast_pos.mpr hpos
  refine ⟨⟨div_nonneg (Nat.cast_nonneg _) hlength.le, ?_⟩,
    div_nonneg (Nat.cast_nonneg _) hcycles.le, ?_⟩
  · rw [div_le_one₀ hlength]
    exact Nat.cast_le.mpr (countUpTo_le samples k)
  · rw [div_le_one₀ hcycles]
    exact Nat.cast_le.mpr (sumWhere_le _ _ _)

/-- **Both functions are monotone.** -/
theorem rangeCdf_monotone {row row' : CdfRow} (hrow : row ∈ rangeCdf samples)
    (hrow' : row' ∈ rangeCdf samples) (hle : row.cycCount ≤ row'.cycCount) : row.cdf ≤ row'.cdf ∧
      row.weightedCdf ≤ row'.weightedCdf := by
  obtain ⟨k, -, rfl⟩ := mem_rangeCdf.mp hrow
  obtain ⟨k', -, rfl⟩ := mem_rangeCdf.mp hrow'
  have hcount : countUpTo samples k ≤ countUpTo samples k' :=
    sumWhere_mono fun s _ hs => hs.trans hle
  have hcycles : cyclesUpTo samples k ≤ cyclesUpTo samples k' :=
    sumWhere_mono fun s _ hs => hs.trans hle
  exact ⟨div_le_div_of_nonneg_right (Nat.cast_le.mpr hcount) (Nat.cast_nonneg _),
    div_le_div_of_nonneg_right (Nat.cast_le.mpr hcycles) (Nat.cast_nonneg _)⟩

/-- **Both reach one at the largest number of cycles.** -/
theorem rangeCdf_largest (hpos : 0 < (samples.map fun s => s.cycCount).sum) {row : CdfRow}
    (hrow : row ∈ rangeCdf samples)
    (hlargest : ∀ row' ∈ rangeCdf samples, row'.cycCount ≤ row.cycCount) :
    row.cdf = 1 ∧ row.weightedCdf = 1 := by
  obtain ⟨k, -, rfl⟩ := mem_rangeCdf.mp hrow
  obtain ⟨hcdf, hweighted⟩ := upTo_largest (k := k) fun k' hk' =>
    hlargest _ (mem_rangeCdf.mpr ⟨k', hk', rfl⟩)
  dsimp only
  rw [hcdf, hweighted]
  exact ⟨div_self (length_pos_of_cycles hpos).ne', div_self (Nat.cast_ne_zero.mpr hpos.ne')⟩

/-- The four parts of a row are parts of its samples. -/
theorem rangeCdf_stacked {row : CdfRow} (hrow : row ∈ rangeCdf samples) :
    (0 ≤ row.percInsns5Stacked ∧ 0 ≤ row.percInsns25Stacked ∧ 0 ≤ row.percInsns125Stacked ∧
      0 ≤ row.percInsns125PlusStacked) ∧
    row.percInsns5Stacked + row.percInsns25Stacked + row.percInsns125Stacked +
      row.percInsns125PlusStacked = 1 := by
  obtain ⟨k, hk, rfl⟩ := mem_rangeCdf.mp hrow
  obtain ⟨h5, h25, h125⟩ := cInsns_le samples k
  have hc : (0 : ℚ) < (cycGroup samples k).c := Nat.cast_pos.mpr (c_pos hk)
  refine ⟨⟨div_nonneg (Nat.cast_nonneg _) hc.le, ?_, ?_, ?_⟩, ?_⟩
  · exact sub_nonneg.mpr (div_le_div_of_nonneg_right (Nat.cast_le.mpr h5) hc.le)
  · exact sub_nonneg.mpr (div_le_div_of_nonneg_right (Nat.cast_le.mpr h25) hc.le)
  · rw [sub_nonneg, div_le_one₀ hc]
    exact Nat.cast_le.mpr h125
  · dsimp only
    rw [add_sub_cancel, add_sub_cancel, add_sub_cancel]

/-- **Of samples that have cycles `range_cdf` is the distribution by cycles.** -/
theorem isCdf_rangeCdf (hpos : 0 < (samples.map fun s => s.cycCount).sum) :
    IsCdf samples (rangeCdf samples) where
  exists_row := by
    intro hnil
    have hmap := map_cycCount_rangeCdf samples
    rw [hnil, List.map_nil, eq_comm, List.dedup_eq_nil, List.map_eq_nil_iff] at hmap
    exact ne_nil_of_cycles hpos hmap
  distinct := by
    rw [map_cycCount_rangeCdf]
    exact List.nodup_dedup _
  counts k := by rw [map_cycCount_rangeCdf, List.mem_dedup]
  divisors := by
    rw [maxCdf_eq, maxWeightedCdf_eq]
    refine ⟨(List.length_pos_of_ne_nil (ne_nil_of_cycles hpos)).ne', hpos.ne', ?_⟩
    intro g hg
    obtain ⟨k, hk, rfl⟩ := List.mem_map.mp hg
    exact (c_pos (List.mem_dedup.mp hk)).ne'
  cdf := by
    intro row hrow
    obtain ⟨k, -, rfl⟩ := mem_rangeCdf.mp hrow
    rw [div_mul_cancel₀ _ (length_pos_of_cycles hpos).ne']
    exact congrArg Nat.cast (sumWhere_one _ _)
  weightedCdf := by
    intro row hrow
    obtain ⟨k, -, rfl⟩ := mem_rangeCdf.mp hrow
    rw [div_mul_cancel₀ _ (Nat.cast_ne_zero.mpr hpos.ne')]
    rfl
  monotone := fun _ hrow _ hrow' hle => rangeCdf_monotone hrow hrow' hle
  bounds := fun _ hrow => rangeCdf_bounds hpos hrow
  largest := fun _ hrow hlargest => rangeCdf_largest hpos hrow hlargest
  stacked_nonneg := fun _ hrow => (rangeCdf_stacked hrow).1
  stacked_sum := fun _ hrow => (rangeCdf_stacked hrow).2

end Cdf

/-- **`samples_for_cdf` leaves out the longest samples, as many as are at most the given part of all
cycles, and `range_cdf` is the distribution of the others**: for all tables that have cycles and
all parts from 0 up to but not including 1. -/
theorem range_cdf (rows : List Branch) (p : ℚ) (hp : 0 ≤ p) (hp1 : p < 1)
    (hpos : 0 < ((cdfSamples rows).map CdfSample.cycCount).sum) :
    Trimmed p (cdfSamples rows) ((samplesForCdf p rows).map SampleForCdf.toCdfSample) ∧
      IsCdf (samplesForCdf p rows) (rangeCdf (samplesForCdf p rows)) := by
  have htrimmed := trimmed_samplesForCdf hp hpos
  refine ⟨htrimmed, isCdf_rangeCdf ?_⟩
  have hkept := sum_kept_pos hp1 hpos htrimmed
  rw [List.map_map] at hkept
  exact hkept

/-- Of four samples the longest has four fifths of the cycles, and one does not count. -/
def fourBranches : List Branch :=
  (timestampedRanges [⟨1, 100, 20, 8⟩, ⟨2, 110, 1, 1⟩, ⟨3, 120, 5, 1⟩, ⟨4, 130, 0, 90⟩]).map
    fun r => ⟨r, if r.endSampleId = 4 then some "trace begin" else some "call"⟩

theorem range_cdf_four : Trimmed (4 / 5) [⟨20, 8⟩, ⟨1, 1⟩, ⟨5, 1⟩]
      ((samplesForCdf (4 / 5) fourBranches).map SampleForCdf.toCdfSample) ∧
    IsCdf (samplesForCdf (4 / 5) fourBranches) (rangeCdf (samplesForCdf (4 / 5) fourBranches)) :=
  range_cdf fourBranches (4 / 5) (by norm_num) (by norm_num) (by decide)

end ShouldIAsync.IntelProcTrace

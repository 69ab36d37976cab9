import ShouldIAsync.IntelProcTrace.SlidingWindow
import Mathlib.Algebra.BigOperators.Intervals
import Mathlib.Algebra.Order.BigOperators.Group.Finset
import Mathlib.Algebra.Order.Ring.Rat
import Mathlib.Data.Int.ConditionallyCompleteOrder
import Mathlib.Data.Int.Interval
import Mathlib.Tactic.FieldSimp
import Mathlib.Tactic.Linarith

/-!
# `ipc_spans` as a compression of the sliding window

Every sample counts cycles here, so that the ends of the ranges are distinct. The rows of
`ipc_spans` then tile the cycles (`spans_disjoint`, `spans_cover`), and both edges of the
window stay in the same two ranges over the span of a row (`spans_ranges`): an edge that
leaves a range does so at the end of a row. Hence the bounds: whatever cycles of its sample
an instruction falls on, the window holds the instructions of the ranges between the two
(`le_window_insns`), and none but those and the two ranges' own (`window_insns_le`).
-/

namespace ShouldIAsync.IntelProcTrace

open ShouldIAsync.Lib

variable {asof : Asof Range.endCum} {windowSize : Nat} {samplesView : List Sample}

/-- Every sample with a timestamp counts a cycle. -/
def Timestamped (samplesView : List Sample) : Prop :=
  ∀ s ∈ samplesView, s.counted = true → 1 ≤ s.cycCount

/-! ## The ends of the rows are distinct -/

/-- The ranges end at one cycle after another. -/
theorem ends_strict (hcyc : Timestamped samplesView) :
    (timestampedRanges samplesView).Pairwise fun r r' => r.endCum < r'.endCum :=
  (ranges_strict hcyc).imp fun h => Int.ofNat_lt.mpr h

/-- No two windows end at the same cycle. -/
theorem ipcWindows_distinct (hcyc : Timestamped samplesView) :
    (ipcWindows asof windowSize (timestampedRanges samplesView)).Pairwise
      fun w w' => w.windowEndCumCyc ≠ w'.windowEndCumCyc := by
  have hends := ends_strict hcyc
  unfold ipcWindows slidingWindow
  rw [List.filter_append, List.pairwise_append]
  refine ⟨List.Pairwise.filter _ ?_, List.Pairwise.filter _ ?_, ?_⟩
  · -- the leading edges: the ends of ranges
    rw [List.pairwise_filterMap]
    refine hends.imp fun hlt w hw w' hw' => ?_
    obtain ⟨t, -, rfl⟩ := Option.map_eq_some_iff.mp hw
    obtain ⟨t', -, rfl⟩ := Option.map_eq_some_iff.mp hw'
    exact ne_of_lt hlt
  · -- the trailing edges: the same, further on
    rw [List.pairwise_filterMap]
    refine hends.imp fun hlt w hw w' hw' => ?_
    obtain ⟨t, -, rfl⟩ := Option.map_eq_some_iff.mp hw
    obtain ⟨t', -, rfl⟩ := Option.map_eq_some_iff.mp hw'
    simp only [trailingWindow]
    omega
  · -- where a leading and a trailing edge coincide the trailing row is aliased
    intro w hw w' hw' heq
    obtain ⟨leading, hl, hpick⟩ := List.mem_filterMap.mp (List.mem_filter.mp hw).1
    obtain ⟨_, -, rfl⟩ := Option.map_eq_some_iff.mp hpick
    obtain ⟨hmem, hkeep⟩ := List.mem_filter.mp hw'
    obtain ⟨trailing, -, hpick'⟩ := List.mem_filterMap.mp hmem
    obtain ⟨next, hnext, rfl⟩ := Option.map_eq_some_iff.mp hpick'
    have hend : leading.endCum = trailing.endCum + windowSize - 1 := heq
    have hnear := asof.nearest hnext
    have hle := hnear.least leading hl (le_of_eq hend.symm)
    have halias : trailing.endCum + windowSize - 1 = next.endCum :=
      le_antisymm hnear.fits (hend ▸ hle)
    simp [trailingWindow, halias] at hkeep

/-- The windows are sorted by their ends. -/
theorem sortedWindows_strict (asof : Asof Range.endCum) (windowSize : Nat)
    (hcyc : Timestamped samplesView) :
    ((sortedWindows asof windowSize (timestampedRanges samplesView)).map
      Window.windowEndCumCyc).Pairwise
      (· < ·) := by
  rw [List.pairwise_map]
  have hsorted := List.pairwise_insertionSort (fun w w' : Window =>
    w.windowEndCumCyc ≤ w'.windowEndCumCyc)
    (ipcWindows asof windowSize (timestampedRanges samplesView))
  have hperm := List.perm_insertionSort (fun w w' : Window =>
    w.windowEndCumCyc ≤ w'.windowEndCumCyc)
    (ipcWindows asof windowSize (timestampedRanges samplesView))
  have hdistinct :=
    (hperm.pairwise_iff (R := fun w w' : Window => w.windowEndCumCyc ≠ w'.windowEndCumCyc)
    (fun hne => hne.symm)).mpr (ipcWindows_distinct hcyc)
  exact List.Pairwise.imp₂ (fun w w' hle hne => lt_of_le_of_ne hle hne) hsorted hdistinct

/-! ## The spans tile the cycles -/

/-- The cycle is in the span of the row. -/
def IpcSpan.Covers (s : IpcSpan) (c : ℤ) : Prop := s.spanStartCyc < c ∧ c ≤ s.window.windowEndCumCyc

/-- The range that contains a cycle: the first that ends at it or later. -/
def Contains (ranges : List Range) (c : ℤ) (r : Range) : Prop :=
  Nearest Range.endCum (fun e => c ≤ e) ranges r

/-- There is one span for each window. -/
theorem windows_of_spans (asof : Asof Range.endCum) (windowSize : Nat) (samplesView : List Sample) :
    (ipcSpans asof windowSize (timestampedRanges samplesView)).map IpcSpan.window =
      sortedWindows asof windowSize (timestampedRanges samplesView) := by
  unfold ipcSpans
  rw [List.map_map]
  exact map_fst_withLag none _

/-- Each end of a window is in one row. -/
theorem spans_distinct (hcyc : Timestamped samplesView) :
    ((ipcSpans asof windowSize (timestampedRanges samplesView)).map fun s =>
      s.window.windowEndCumCyc).Nodup := by
  have hmap := congrArg (List.map Window.windowEndCumCyc)
    (windows_of_spans asof windowSize samplesView)
  rw [List.map_map] at hmap
  rw [show (fun s : IpcSpan => s.window.windowEndCumCyc) =
      Window.windowEndCumCyc ∘ IpcSpan.window from
    Eq.refl _, hmap]
  exact (sortedWindows_strict asof windowSize hcyc).imp fun h => ne_of_lt h

/-- Two spans that share a cycle are one. -/
theorem spans_disjoint (hcyc : Timestamped samplesView) {s s' : IpcSpan} {c : ℤ}
    (h : s ∈ ipcSpans asof windowSize (timestampedRanges samplesView))
    (h' : s' ∈ ipcSpans asof windowSize (timestampedRanges samplesView))
    (hc : s.Covers c) (hc' : s'.Covers c) : s = s' := by
  refine List.inj_on_of_nodup_map (spans_distinct hcyc) h h' ?_
  obtain ⟨row, hrow, rfl, -⟩ := mem_ipcSpans h
  obtain ⟨row', hrow', rfl, -⟩ := mem_ipcSpans h'
  exact withLag_disjoint (sortedWindows_strict asof windowSize hcyc) hrow hrow' hc hc'

/-- What is covered: the cycles after the end of some window, up to the last. -/
theorem spans_cover (hsize : 1 ≤ windowSize) (hcyc : Timestamped samplesView) (c : ℤ) :
    (∃ s ∈ ipcSpans asof windowSize (timestampedRanges samplesView), s.Covers c) ↔
      (∃ s ∈ ipcSpans asof windowSize (timestampedRanges samplesView),
        s.window.windowEndCumCyc < c) ∧ ∃ r ∈ timestampedRanges samplesView, c ≤ r.endCum := by
  have hsorted := sortedWindows_strict asof windowSize hcyc
  have hspan : ∀ {w : Window}, w ∈ sortedWindows asof windowSize (timestampedRanges samplesView) →
      ∃ s ∈ ipcSpans asof windowSize (timestampedRanges samplesView), s.window = w := by
    intro w hw
    rw [← windows_of_spans] at hw
    obtain ⟨s, hs, hsw⟩ := List.mem_map.mp hw
    exact ⟨s, hs, hsw⟩
  constructor
  · intro hcover
    obtain ⟨s, hs, hc⟩ := hcover
    obtain ⟨row, hrow, rfl, hwindow⟩ := mem_ipcSpans hs
    constructor
    · obtain ⟨w, hw, hlt⟩ := withLag_after hsorted hrow hc
      obtain ⟨s', hs', rfl⟩ := hspan hw
      exact ⟨s', hs', hlt⟩
    · have hle : c ≤ row.1.windowEndCumCyc := hc.2
      cases hwindow with
      | leading leading trailing hmem hnear hw =>
        rw [hw] at hle
        exact ⟨leading, hmem, hle⟩
      | trailing trailing leading hmem hnear halias hw =>
        rw [hw] at hle
        exact ⟨leading, hnear.mem, le_trans hle hnear.fits⟩
  · intro hbetween
    obtain ⟨⟨s, hs, hlt⟩, r, hr, hle⟩ := hbetween
    obtain ⟨row, hrow, rfl, -⟩ := mem_ipcSpans hs
    obtain ⟨w, hw, hend⟩ := leading_row asof hsize hr
    obtain ⟨row', hrow', hin⟩ := withLag_cover none hsorted
      (Or.inr ⟨row.1, fst_mem_of_mem_withLag hrow, hlt⟩)
      ⟨w, mem_sortedWindows.mpr hw, by rw [hend]; exact hle⟩
    exact ⟨ipcSpan windowSize row', List.mem_map_of_mem hrow', hin⟩

/-! ## The edges of the window -/

/-- **Over a span both edges of the window stay in the ranges of the row.** -/
theorem spans_ranges (hsize : 1 ≤ windowSize) (hcyc : Timestamped samplesView) {s : IpcSpan} {c : ℤ}
    (h : s ∈ ipcSpans asof windowSize (timestampedRanges samplesView)) (hc : s.Covers c) :
    Contains (timestampedRanges samplesView) c s.window.leading ∧
      Contains (timestampedRanges samplesView) (c - windowSize + 1) s.window.trailing := by
  obtain ⟨row, hrow, rfl, hwindow⟩ := mem_ipcSpans h
  obtain ⟨hlo, hhi⟩ := hc
  -- no other row ends within the span, at `c` or later
  have hgap : ∀ w ∈ ipcWindows asof windowSize (timestampedRanges samplesView),
      c ≤ w.windowEndCumCyc → row.1.windowEndCumCyc ≤ w.windowEndCumCyc := by
    intro w hw hcw
    by_contra hnot
    have hle :=
      (withLag_gap (sortedWindows_strict asof windowSize hcyc) hrow).1 w (mem_sortedWindows.mpr hw)
      (not_le.mp hnot)
    have hlo' : row.1.windowEndCumCyc - row.2 < c := hlo
    omega
  have hleads : ∀ r ∈ timestampedRanges samplesView, c ≤ r.endCum →
      row.1.windowEndCumCyc ≤ r.endCum := by
    intro r hr hcr
    obtain ⟨w, hw, hend⟩ := leading_row asof hsize hr
    rw [← hend] at hcr ⊢
    exact hgap w hw hcr
  have htrails : ∀ r ∈ timestampedRanges samplesView, ∀ last ∈ timestampedRanges samplesView,
      r.endCum + windowSize - 1 ≤ last.endCum → c ≤ r.endCum + windowSize - 1 →
        row.1.windowEndCumCyc ≤ r.endCum + windowSize - 1 := by
    intro r hr last hlast hle hcr
    obtain ⟨w, hw, hend⟩ := trailing_row asof hsize hr hlast hle
    rw [← hend] at hcr ⊢
    exact hgap w hw hcr
  have hend : c ≤ row.1.windowEndCumCyc := hhi
  show Contains (timestampedRanges samplesView) c row.1.leading ∧
    Contains (timestampedRanges samplesView) (c - windowSize + 1) row.1.trailing
  cases hwindow with
  | leading leading trailing hmem hnear hw =>
    rw [hw] at hleads htrails hend ⊢
    simp only [leadingWindow] at hleads htrails hend ⊢
    refine ⟨⟨hmem, hend, hleads⟩, hnear.congr fun r hr => ⟨fun hgt => by omega, fun hle => ?_⟩⟩
    by_contra hnot
    have hback := htrails r hr leading hmem (by omega) (by omega)
    omega
  | trailing trailing leading hmem hnear halias hw =>
    rw [hw] at hleads htrails hend ⊢
    simp only [trailingWindow] at hleads htrails hend ⊢
    refine ⟨hnear.congr fun r hr => ⟨fun hge => le_trans hend hge, hleads r hr⟩,
      ⟨hmem, by omega, fun r hr hle => ?_⟩⟩
    by_contra hnot
    have hfits := hnear.fits
    have hback := htrails r hr leading hnear.mem (by omega) (by omega)
    omega

/-! ## The instructions in the window -/

/-- A way the instructions of each sample fall on its cycles; none falls on a cycle before
the trace. -/
structure Distribution (ranges : List Range) (d : ℤ → ℚ) : Prop where
  nonneg : ∀ c, 0 ≤ d c
  before : ∀ c, c ≤ 0 → d c = 0
  insns : ∀ r ∈ ranges, ∑ k ∈ Finset.Ioc (r.startCyc : ℤ) r.endCum, d k = r.insnCount

theorem sum_Ioc_add (d : ℤ → ℚ) {a b c : ℤ} (hab : a ≤ b) (hbc : b ≤ c) :
    ∑ k ∈ Finset.Ioc a b, d k + ∑ k ∈ Finset.Ioc b c, d k = ∑ k ∈ Finset.Ioc a c, d k := by
  rw [← Finset.Ioc_union_Ioc_eq_Ioc hab hbc,
    Finset.sum_union (Finset.Ioc_disjoint_Ioc_of_le (le_refl b))]

variable {d : ℤ → ℚ} {r : Range}

/-- A range ends its cycles after its start. -/
theorem endCum_eq (h : r ∈ timestampedRanges samplesView) : r.endCum = r.startCyc + r.cycCount :=
  congrArg Nat.cast (range_adds h).1

/-- Up to the start of a range, and up to its end, fall its cumulative instructions. -/
theorem sum_cum (hcyc : Timestamped samplesView)
    (hd : Distribution (timestampedRanges samplesView) d) (hr : r ∈ timestampedRanges samplesView) :
    ∑ k ∈ Finset.Ioc 0 (r.startCyc : ℤ), d k = r.startInsns ∧
      ∑ k ∈ Finset.Ioc 0 r.endCum, d k = r.endCumInsns := by
  induction hn : r.endCumCyc using Nat.strong_induction_on generalizing r with
  | _ n ih =>
    have hadds := range_adds hr
    have hpos := range_cycCount_pos hcyc hr
    have hstart : ∑ k ∈ Finset.Ioc 0 (r.startCyc : ℤ), d k = r.startInsns := by
      rcases range_start hr with ⟨hzero, hinsns⟩ | ⟨r', hr', hend, hinsns⟩
      · rw [hzero, hinsns, Nat.cast_zero, Finset.Ioc_self, Finset.sum_empty, Nat.cast_zero]
      · rw [← hend, ← hinsns]
        exact (ih r'.endCumCyc (by omega) hr' (Eq.refl _)).2
    have hend := endCum_eq hr
    refine ⟨hstart, ?_⟩
    rw [← sum_Ioc_add d (Int.natCast_nonneg r.startCyc) (by omega), hstart, hd.insns r hr, hadds.2,
      Nat.cast_add]

/-- What is left of a range starts where it does. -/
theorem start_lt_of_contains (hcyc : Timestamped samplesView) {c : ℤ}
    (h : Contains (timestampedRanges samplesView) c r) (hc : r.startCyc ≠ 0) :
      (r.startCyc : ℤ) < c := by
  have hpos := range_cycCount_pos hcyc h.mem
  have hend := endCum_eq h.mem
  rcases range_start h.mem with ⟨hzero, -⟩ | ⟨r', hr', hend', -⟩
  · exact absurd hzero hc
  · by_contra hnot
    have hr'end : r'.endCum = r.startCyc := congrArg Nat.cast hend'
    have hle := h.least r' hr' (by omega)
    omega

section Window

variable {c : ℤ} {leading trailing : Range}
  (hcyc : Timestamped samplesView) (hd : Distribution (timestampedRanges samplesView) d)
  (hleading : Contains (timestampedRanges samplesView) c leading)
  (htrailing : Contains (timestampedRanges samplesView) (c - windowSize + 1) trailing)
include hcyc hd hleading htrailing

/-- The window holds no more than what falls from the start of the trailing range to the end
of the leading one. -/
theorem window_insns_le (hle : trailing.endCum ≤ leading.endCum) :
    ∑ k ∈ Finset.Icc (c - windowSize + 1) c, d k ≤
    leading.endCumInsns - trailing.startInsns := by
  have hend := endCum_eq htrailing.mem
  have hsum := sum_Ioc_add d (Int.natCast_nonneg trailing.startCyc)
    (show (trailing.startCyc : ℤ) ≤ leading.endCum by omega)
  rw [(sum_cum hcyc hd htrailing.mem).1, (sum_cum hcyc hd hleading.mem).2] at hsum
  have hsub : ∑ k ∈ Finset.Icc (c - windowSize + 1) c, d k ≤
      ∑ k ∈ Finset.Ioc (trailing.startCyc : ℤ) leading.endCum, d k := by
    rw [← Finset.sum_filter_ne_zero]
    refine Finset.sum_le_sum_of_subset_of_nonneg ?_ fun k _ _ => hd.nonneg k
    intro k hk
    obtain ⟨hk, hne⟩ := Finset.mem_filter.mp hk
    obtain ⟨hlo, hhi⟩ := Finset.mem_Icc.mp hk
    have hfits := hleading.fits
    refine Finset.mem_Ioc.mpr ⟨?_, by omega⟩
    by_cases hzero : trailing.startCyc = 0
    · -- before the trace there is nothing
      by_contra hnot
      exact hne (hd.before k (by omega))
    · have hlt := start_lt_of_contains hcyc htrailing hzero
      omega
  linarith

/-- The window holds what falls between the two ranges. -/
theorem le_window_insns (hne : trailing.endCum < leading.endCum) :
    (leading.startInsns : ℚ) - trailing.endCumInsns ≤
      ∑ k ∈ Finset.Icc (c - windowSize + 1) c, d k := by
  have hbefore := ranges_before htrailing.mem hleading.mem (Int.ofNat_lt.mp hne)
  have hend : trailing.endCum ≤ leading.startCyc := Int.ofNat_le.mpr hbefore.cyc
  have hpos := range_cycCount_pos hcyc htrailing.mem
  have hadds := range_adds htrailing.mem
  have hsum := sum_Ioc_add d (show (0 : ℤ) ≤ trailing.endCum from Int.natCast_nonneg _) hend
  rw [(sum_cum hcyc hd htrailing.mem).2, (sum_cum hcyc hd hleading.mem).1] at hsum
  have hsub : ∑ k ∈ Finset.Ioc trailing.endCum (leading.startCyc : ℤ), d k ≤
      ∑ k ∈ Finset.Icc (c - windowSize + 1) c, d k := by
    refine Finset.sum_le_sum_of_subset_of_nonneg ?_ fun k _ _ => hd.nonneg k
    intro k hk
    obtain ⟨hlo, hhi⟩ := Finset.mem_Ioc.mp hk
    have hfits := htrailing.fits
    have hlt := start_lt_of_contains hcyc hleading (by have hcycs := hbefore.cyc; omega)
    exact Finset.mem_Icc.mpr ⟨by omega, by omega⟩
  linarith

end Window

/-! ## The columns -/

/-- The window of a row lies in a single range exactly if the row says so. -/
theorem isSingleRange_iff (hsize : 1 ≤ windowSize) {w : Window}
    (h : w.Row windowSize (timestampedRanges samplesView)) :
    w.isSingleRange = true ↔ w.leading.endCum = w.trailing.endCum := by
  cases h with
  | leading leading trailing hmem hnear hw =>
    rw [hw]
    simp only [leadingWindow, decide_eq_true_eq]
    exact Int.ofNat_inj.symm
  | trailing trailing leading hmem hnear halias hw =>
    rw [hw]
    have hfits := hnear.fits
    simp only [trailingWindow]
    refine iff_of_false Bool.false_ne_true fun heq => halias ?_
    omega

theorem mul_ipc (hsize : 1 ≤ windowSize) (x : ℚ) : (windowSize : ℚ) * (x / windowSize) = x := by
  have hne : (windowSize : ℚ) ≠ 0 := by
    rw [Nat.cast_ne_zero]
    omega
  field_simp

/-- **The bounds hold over the whole span**, for every distribution of the instructions. -/
theorem span_bounds (hsize : 1 ≤ windowSize) (hcyc : Timestamped samplesView) {s : IpcSpan} {c : ℤ}
    (h : s ∈ ipcSpans asof windowSize (timestampedRanges samplesView)) (hc : s.Covers c)
    (hd : Distribution (timestampedRanges samplesView) d) :
    windowSize * s.conservativeIpc ≤ ∑ k ∈ Finset.Icc (c - windowSize + 1) c, d k ∧
      ∑ k ∈ Finset.Icc (c - windowSize + 1) c, d k ≤ windowSize * s.optimisticIpc := by
  obtain ⟨hleading, htrailing⟩ := spans_ranges hsize hcyc h hc
  obtain ⟨row, -, rfl, hrow⟩ := mem_ipcSpans h
  have hle : row.1.trailing.endCum ≤ row.1.leading.endCum := by
    have hfits := hleading.fits
    exact htrailing.least _ hleading.mem (show c - windowSize + 1 ≤ row.1.leading.endCum by
      have hfits' : c ≤ row.1.leading.endCum := hfits
      omega)
  have hupper := window_insns_le hcyc hd hleading htrailing hle
  have hleadingAdds := (range_adds hleading.mem).2
  have htrailingAdds := (range_adds htrailing.mem).2
  show windowSize * row.1.conservativeIpc windowSize ≤ _ ∧
    _ ≤ windowSize * row.1.optimisticIpc windowSize
  rw [Window.conservativeIpc, Window.optimisticIpc, mul_ipc hsize, mul_ipc hsize]
  unfold Window.interiorInsns Window.leadingInsns Window.trailingInsns
  change row.1.leading.endCumInsns = row.1.leading.startInsns + row.1.leading.insnCount
    at hleadingAdds
  change row.1.trailing.endCumInsns = row.1.trailing.startInsns + row.1.trailing.insnCount
    at htrailingAdds
  change _ ≤ (row.1.leading.endCumInsns : ℚ) - row.1.trailing.startInsns at hupper
  by_cases hsame : row.1.leading.endCum = row.1.trailing.endCum
  · -- one range: the window holds at most its instructions
    have hsum : (row.1.leading.endCumInsns : ℚ) = row.1.trailing.endCumInsns := by
      have hsums := (sum_cum hcyc hd hleading.mem).2
      change ∑ k ∈ Finset.Ioc 0 row.1.leading.endCum, d k = row.1.leading.endCumInsns at hsums
      rw [← hsums, hsame]
      exact (sum_cum hcyc hd htrailing.mem).2
    rw [htrailingAdds, Nat.cast_add] at hsum
    rw [if_pos ((isSingleRange_iff hsize hrow).mpr hsame)]
    constructor
    · rw [Int.cast_zero]
      exact Finset.sum_nonneg fun k _ => hd.nonneg k
    · simp only [if_pos ((isSingleRange_iff hsize hrow).mpr hsame), add_zero, Int.cast_natCast]
      linarith
  · have hnot : ¬ row.1.isSingleRange = true :=
      fun hs => hsame ((isSingleRange_iff hsize hrow).mp hs)
    have hlower := le_window_insns hcyc hd hleading htrailing (lt_of_le_of_ne hle (Ne.symm hsame))
    change (row.1.leading.startInsns : ℚ) - row.1.trailing.endCumInsns ≤ _ at hlower
    rw [if_neg hnot, if_neg hnot]
    rw [htrailingAdds] at hlower
    rw [hleadingAdds] at hupper
    rw [hleadingAdds, htrailingAdds]
    push_cast at hlower hupper ⊢
    constructor
    · linarith
    · linarith

/-- **`ipc_spans` is the sliding window, compressed.** Let every sample count a cycle. Each
end of a window is in one row; the spans of the rows are disjoint and cover the cycles after
the first end of a window up to the last cycle; over its span a row names the ranges both
edges of the window are in; and the window that ends at any cycle of the span holds, for
every way the instructions fall on the cycles of their samples, between `conservative_ipc`
and `optimistic_ipc` instructions per cycle. -/
theorem ipcSpans_compress (asof : Asof Range.endCum) (windowSize : Nat) (samplesView : List Sample)
    (hsize : 1 ≤ windowSize) (hcyc : Timestamped samplesView) :
    let ranges := timestampedRanges samplesView
    let spans := ipcSpans asof windowSize ranges
    (spans.map fun s => s.window.windowEndCumCyc).Nodup ∧
    (∀ s ∈ spans, ∀ s' ∈ spans, ∀ c, s.Covers c → s'.Covers c → s = s') ∧
    (∀ c, (∃ s ∈ spans, s.Covers c) ↔
      (∃ s ∈ spans, s.window.windowEndCumCyc < c) ∧ ∃ r ∈ ranges, c ≤ r.endCum) ∧
    (∀ s ∈ spans, ∀ c, s.Covers c →
      Contains ranges c s.window.leading ∧ Contains ranges (c - windowSize + 1) s.window.trailing ∧
      ∀ d, Distribution ranges d →
        windowSize * s.conservativeIpc ≤ ∑ k ∈ Finset.Icc (c - windowSize + 1) c, d k ∧
        ∑ k ∈ Finset.Icc (c - windowSize + 1) c, d k ≤ windowSize * s.optimisticIpc) := by
  refine ⟨spans_distinct hcyc, ?_, spans_cover hsize hcyc, ?_⟩
  · intro s hs s' hs' c hc hc'
    exact spans_disjoint hcyc hs hs' hc hc'
  · intro s hs c hc
    obtain ⟨hleading, htrailing⟩ := spans_ranges hsize hcyc hs hc
    exact ⟨hleading, htrailing, fun d hd => span_bounds hsize hcyc hs hc hd⟩

/-- Samples of three and of four cycles, and a window of two: the row of the fifth cycle. -/
theorem ipcSpans_compress_two_samples :
    ∃ s ∈ ipcSpans (Asof.first Range.endCum) 2 (timestampedRanges [⟨1, 100, 5, 3⟩, ⟨2, 110, 2, 4⟩]),
      s.Covers 5 ∧
      Contains (timestampedRanges [⟨1, 100, 5, 3⟩, ⟨2, 110, 2, 4⟩]) 5 s.window.leading ∧
      Contains (timestampedRanges [⟨1, 100, 5, 3⟩, ⟨2, 110, 2, 4⟩]) (5 - (2 : Nat) + 1)
        s.window.trailing := by
  obtain ⟨-, -, -, hspan⟩ :=
    ipcSpans_compress (Asof.first Range.endCum) 2 [⟨1, 100, 5, 3⟩, ⟨2, 110, 2, 4⟩] (by decide)
      (by unfold Timestamped; decide)
  have hrow : ∃ s ∈ ipcSpans (Asof.first Range.endCum) 2
      (timestampedRanges [⟨1, 100, 5, 3⟩, ⟨2, 110, 2, 4⟩]), s.Covers 5 := by
    unfold IpcSpan.Covers
    decide
  obtain ⟨s, hs, hc⟩ := hrow
  obtain ⟨hleading, htrailing, -⟩ := hspan s hs 5 hc
  exact ⟨s, hs, hc, hleading, htrailing⟩

example : (ipcSpans (Asof.first Range.endCum) 2
    (timestampedRanges [⟨1, 100, 5, 3⟩, ⟨2, 110, 2, 4⟩])).map
      (fun s => (s.spanStartCyc, s.window.windowEndCumCyc)) = [(3, 3), (3, 4), (4, 7)] := by
  decide

end ShouldIAsync.IntelProcTrace

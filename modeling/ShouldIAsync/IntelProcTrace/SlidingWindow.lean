import ShouldIAsync.IntelProcTrace.TimestampedRanges
import ShouldIAsync.Lib.Asof
import ShouldIAsync.Lib.Lag
import Mathlib.Data.Rat.Defs

/-!
# `SqlUtil.time_series_prep`

The tables `sliding_window` and `ipc_spans`. A window of `windowSize` cycles slides over the
ranges; a row of `sliding_window` is a place where one of its edges leaves a range. Seen
from the leading edge that is the end of a range, seen from the trailing edge the end of a
range and the rest of the window. Where both edges leave a range at once both sides give
the row, and `is_span_aliased` tells so.

`int`s and `hugeint`s are whole numbers here, and the casts to `real` are exact.
-/

namespace ShouldIAsync.IntelProcTrace

open ShouldIAsync.Lib

def Range.endCum (r : Range) : ℤ := r.endCumCyc

/-- The sides of the window that move. -/
inductive Side
  | leading
  | trailing
  deriving DecidableEq, Repr

/-- A row of `sliding_window`; the columns of the two ranges are the ranges. -/
structure Window where
  isSingleRange : Bool
  windowEndCumCyc : ℤ
  windowStartCumCyc : ℤ
  endTime : Nat
  leading : Range
  trailing : Range
  side : Side
  isSpanAliased : Bool

/-- The row of a leading range, joined with its trailing one. -/
def leadingWindow (windowSize : Nat) (leading trailing : Range) : Window where
  isSingleRange := leading.endCumCyc = trailing.endCumCyc
  windowEndCumCyc := leading.endCum
  windowStartCumCyc := leading.endCum - (windowSize - 1)
  endTime := leading.endTime
  leading := leading
  trailing := trailing
  side := .leading
  isSpanAliased := leading.endCum - (windowSize - 1) = trailing.endCum

/-- The row of a trailing range, joined with its leading one. -/
def trailingWindow (windowSize : Nat) (trailing leading : Range) : Window where
  isSingleRange := false
  windowEndCumCyc := trailing.endCum + windowSize - 1
  windowStartCumCyc := trailing.endCum
  endTime := leading.endTime
  leading := leading
  trailing := trailing
  side := .trailing
  isSpanAliased := trailing.endCum + windowSize - 1 = leading.endCum

/-- `sliding_window`. The first join is a LEFT JOIN; it leaves no row without a partner, since
the leading range satisfies its own condition. -/
def slidingWindow (asof : Asof Range.endCum) (windowSize : Nat) (ranges : List Range) :
    List Window :=
  (ranges.filterMap fun leading =>
    (asof.pick (fun trailingEnd => trailingEnd > leading.endCum - windowSize) ranges).map
      (leadingWindow windowSize leading)) ++
  (ranges.filterMap fun trailing =>
    (asof.pick (fun leadingEnd => leadingEnd ≥ trailing.endCum + windowSize - 1) ranges).map
      (trailingWindow windowSize trailing))

/-! ## The columns of `ipc_spans` -/

namespace Window

variable (windowSize : Nat) (w : Window)

/-- The instructions of the trailing range. -/
def trailingInsns : ℤ := w.trailing.insnCount

/-- The cycles of the trailing sample that fall within the window. -/
def trailingCycInWindow : ℤ := w.trailing.endCum - w.windowStartCumCyc + 1

/-- Those of the leading range, if it is another. -/
def leadingInsns : ℤ := if w.isSingleRange then 0 else w.leading.insnCount

/-- The cycles of the leading sample that fall within the window. -/
def leadingCycInWindow : ℤ :=
  if w.isSingleRange then 0 else w.leading.cycCount - (w.leading.endCum - w.windowEndCumCyc)

/-- Those of the ranges between the two. -/
def interiorInsns : ℤ :=
  if w.isSingleRange then 0
  else (w.leading.endCumInsns - w.leading.insnCount) - w.trailing.endCumInsns

def optimisticIpc : ℚ := (w.trailingInsns + w.leadingInsns + w.interiorInsns : ℤ) / windowSize

def conservativeIpc : ℚ := (w.interiorInsns : ℚ) / windowSize

/-- `end_linear_interp_ipc`, NULL after a division by 0. -/
def endLinearInterpIpc : Option ℚ :=
  if w.trailing.cycCount = 0 ∨ w.leading.cycCount = 0 then none
  else some ((w.trailingInsns * (w.trailingCycInWindow / w.trailing.cycCount : ℚ) +
    w.leadingInsns * (w.leadingCycInWindow / w.leading.cycCount : ℚ) +
      w.interiorInsns) / windowSize)

end Window

/-- A row of `ipc_spans`. -/
structure IpcSpan where
  window : Window
  conservativeIpc : ℚ
  optimisticIpc : ℚ
  endLinearInterpIpc : ℚ
  spanWidthCyc : ℤ
  spanStartCyc : ℤ

/-- The rows without those the other side of the UNION has produced. -/
def ipcWindows (asof : Asof Range.endCum) (windowSize : Nat) (ranges : List Range) : List Window :=
  (slidingWindow asof windowSize ranges).filter fun w =>
    !(decide (w.side = .trailing) && w.isSpanAliased)

/-- `ORDER BY window_end_cum_cyc` -/
def sortedWindows (asof : Asof Range.endCum) (windowSize : Nat) (ranges : List Range) :
    List Window :=
  (ipcWindows asof windowSize ranges).insertionSort fun w w' =>
    w.windowEndCumCyc ≤ w'.windowEndCumCyc

/-- A row of `ipc_spans` -/
def ipcSpan (windowSize : Nat) (row : Window × ℤ) : IpcSpan where
  window := row.1
  conservativeIpc := row.1.conservativeIpc windowSize
  optimisticIpc := row.1.optimisticIpc windowSize
  -- make it stand out if this is missing due to division by 0
  endLinearInterpIpc := (row.1.endLinearInterpIpc windowSize).getD 10000
  spanWidthCyc := row.2
  spanStartCyc := row.1.windowEndCumCyc - row.2

/-- `ipc_spans` -/
def ipcSpans (asof : Asof Range.endCum) (windowSize : Nat) (ranges : List Range) : List IpcSpan :=
  (withLag Window.windowEndCumCyc none (sortedWindows asof windowSize ranges)).map
    (ipcSpan windowSize)

/-! ## The rows -/

variable {asof : Asof Range.endCum} {windowSize : Nat} {ranges : List Range} {w : Window}

/-- Where a row of `ipc_spans` comes from. -/
inductive Window.Row (windowSize : Nat) (ranges : List Range) (w : Window) : Prop
  | leading (leading trailing : Range) (hmem : leading ∈ ranges)
      (hnear : Nearest Range.endCum (fun e => e > leading.endCum - windowSize) ranges trailing)
      (hw : w = leadingWindow windowSize leading trailing)
  | trailing (trailing leading : Range) (hmem : trailing ∈ ranges)
      (hnear : Nearest Range.endCum (fun e => e ≥ trailing.endCum + windowSize - 1) ranges leading)
      (halias : trailing.endCum + windowSize - 1 ≠ leading.endCum)
      (hw : w = trailingWindow windowSize trailing leading)

theorem ipcWindows_row (h : w ∈ ipcWindows asof windowSize ranges) : w.Row windowSize ranges := by
  obtain ⟨hmem, hkeep⟩ := List.mem_filter.mp h
  rcases List.mem_append.mp hmem with hmem | hmem
  · obtain ⟨leading, hl, hpick⟩ := List.mem_filterMap.mp hmem
    obtain ⟨trailing, ht, rfl⟩ := Option.map_eq_some_iff.mp hpick
    exact .leading leading trailing hl (asof.nearest ht) (Eq.refl _)
  · obtain ⟨trailing, ht, hpick⟩ := List.mem_filterMap.mp hmem
    obtain ⟨leading, hl, rfl⟩ := Option.map_eq_some_iff.mp hpick
    refine .trailing trailing leading ht (asof.nearest hl) ?_ (Eq.refl _)
    intro halias
    simp [trailingWindow, halias] at hkeep

/-- Sorting changes nothing but the order. -/
theorem mem_sortedWindows :
    w ∈ sortedWindows asof windowSize ranges ↔ w ∈ ipcWindows asof windowSize ranges :=
  List.mem_insertionSort _

/-- A row of `ipc_spans` and its width. -/
theorem mem_ipcSpans {s : IpcSpan} (h : s ∈ ipcSpans asof windowSize ranges) :
    ∃ row ∈ withLag Window.windowEndCumCyc none (sortedWindows asof windowSize ranges),
      s = ipcSpan windowSize row ∧ row.1.Row windowSize ranges := by
  obtain ⟨row, hrow, rfl⟩ := List.mem_map.mp h
  exact ⟨row, hrow, Eq.refl _, ipcWindows_row (mem_sortedWindows.mp (fst_mem_of_mem_withLag hrow))⟩

/-- Every range has a row as the leading one. -/
theorem leading_row (asof : Asof Range.endCum) (hsize : 1 ≤ windowSize) {leading : Range}
    (h : leading ∈ ranges) :
    ∃ w ∈ ipcWindows asof windowSize ranges, w.windowEndCumCyc = leading.endCum := by
  have hself : leading.endCum > leading.endCum - windowSize := by omega
  obtain ⟨trailing, hpick⟩ : ∃ trailing,
      asof.pick (fun e => e > leading.endCum - windowSize) ranges = some trailing :=
        asof.matched h hself
  refine ⟨leadingWindow windowSize leading trailing, List.mem_filter.mpr ⟨?_, Eq.refl _⟩, Eq.refl _⟩
  refine List.mem_append_left _ (List.mem_filterMap.mpr ⟨leading, h, ?_⟩)
  rw [hpick, Option.map_some]

/-- Where the trailing edge leaves a range there is a row, unless the window is at the end of
the trace. -/
theorem trailing_row (asof : Asof Range.endCum) (hsize : 1 ≤ windowSize) {trailing last : Range}
    (h : trailing ∈ ranges) (hlast : last ∈ ranges)
    (hle : trailing.endCum + windowSize - 1 ≤ last.endCum) :
    ∃ w ∈ ipcWindows asof windowSize ranges,
      w.windowEndCumCyc = trailing.endCum + windowSize - 1 := by
  obtain ⟨leading, hpick⟩ : ∃ leading,
      asof.pick (fun e => e ≥ trailing.endCum + windowSize - 1) ranges = some leading :=
    asof.matched hlast hle
  by_cases halias : trailing.endCum + windowSize - 1 = leading.endCum
  · -- the leading range gives the row
    obtain ⟨w, hw, hend⟩ := leading_row asof hsize (asof.nearest hpick).mem
    exact ⟨w, hw, hend.trans halias.symm⟩
  · refine ⟨trailingWindow windowSize trailing leading, List.mem_filter.mpr ⟨?_, ?_⟩, Eq.refl _⟩
    · refine List.mem_append_right _ (List.mem_filterMap.mpr ⟨trailing, h, ?_⟩)
      rw [hpick, Option.map_some]
    · simp [trailingWindow, halias]

end ShouldIAsync.IntelProcTrace

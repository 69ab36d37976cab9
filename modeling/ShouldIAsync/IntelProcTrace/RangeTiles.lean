import ShouldIAsync.IntelProcTrace.TimestampedRanges
import ShouldIAsync.Lib.Tiles
import Mathlib.Data.Int.ConditionallyCompleteOrder

/-!
# Ranges end to end

The ranges of `timestamped_ranges` lie end to end by their cumulative cycles, and by their times
as well if the samples come in the order of their times. The first range has no start time:
nothing is known to come before it.

So every cycle that is counted is in exactly one range, and so is every time before the last
sample (`ranges_tile`).
-/

namespace ShouldIAsync.IntelProcTrace

open ShouldIAsync.Lib

namespace Range

/-- The cycle belongs to the range. -/
def hasCyc (r : Range) (cyc : Nat) : Bool := decide (r.startCyc ≤ cyc) && decide (cyc < r.endCumCyc)

/-- The time is in the range, which ends before `end_time` and starts whenever if it has no
`start_time`. -/
def covers (r : Range) (time : Int) : Bool :=
  (r.startTime.all fun (start : Nat) => decide ((start : Int) ≤ time)) && decide (time < r.endTime)

/-- Where the range starts by its time, a range without a start at `first`. -/
def fromTime (first : Int) (r : Range) : Int := (r.startTime.map Nat.cast).getD first

def toTime (r : Range) : Int := r.endTime

def fromCyc (r : Range) : Int := r.startCyc

def toCyc (r : Range) : Int := r.endCumCyc

/-- A range has the cycles from its start to its end. -/
theorem hasCyc_eq (r : Range) (cyc : Nat) : r.hasCyc cyc = inTile fromCyc toCyc cyc r := by
  unfold hasCyc inTile fromCyc toCyc
  rw [Bool.decide_and, decide_eq_decide.mpr Int.ofNat_le, decide_eq_decide.mpr Int.ofNat_lt]

/-- Before the time nothing tells a range without a start from one that starts at `first`. -/
theorem covers_eq {first time : Int} (hfirst : first ≤ time) (r : Range) :
    r.covers time = inTile (fromTime first) toTime time r := by
  unfold covers inTile fromTime toTime
  rw [Bool.decide_and]
  cases r.startTime with
  | none => rw [Option.all_none, Option.map_none, Option.getD_none, decide_eq_true hfirst]
  | some start => rfl

end Range

variable {prev : Option Range} {samples samplesView : List Sample} {first time : Int}

/-- The ranges tile the cycles from the end of the one before. -/
theorem rangesFrom_tiles_cyc (prev : Option Range) (samples : List Sample) :
    Tiles Range.fromCyc Range.toCyc ((prev.map (·.endCumCyc)).getD 0 : Nat)
      (rangesFrom prev samples) := by
  induction samples generalizing prev with
  | nil => trivial
  | cons s samples ih => exact ⟨rfl, Int.ofNat_le.mpr (Nat.le_add_right _ _), ih (some _)⟩

/-- The last range ends with the cycles counted in all. -/
theorem tilesEnd_cyc (prev : Option Range) (samples : List Sample) :
    tilesEnd Range.toCyc ((prev.map (·.endCumCyc)).getD 0 : Nat) (rangesFrom prev samples) =
      ((prev.map (·.endCumCyc)).getD 0 + (samples.map Sample.cycCount).sum : Nat) := by
  induction samples generalizing prev with
  | nil => rfl
  | cons s samples ih =>
    rw [rangesFrom, tilesEnd, List.map_cons, List.sum_cons, ← Nat.add_assoc]
    exact ih (some _)

/-- No time of a sample is before that of an earlier one. -/
def InTime (samples : List Sample) : Prop := samples.Pairwise fun s s' => s.time ≤ s'.time

theorem rangesFrom_tiles_time (prev : Option Range) (hsorted : InTime samples)
    (hprev : ∀ s ∈ samples, (prev.map Range.toTime).getD first ≤ s.time) :
    Tiles (Range.fromTime first) Range.toTime ((prev.map Range.toTime).getD first)
      (rangesFrom prev samples) := by
  induction samples generalizing prev with
  | nil => trivial
  | cons s samples ih =>
    obtain ⟨hle, hsorted⟩ := List.pairwise_cons.mp hsorted
    refine ⟨?_, hprev s List.mem_cons_self, ih (some _) hsorted fun s' hs' =>
      Int.ofNat_le.mpr (hle s' hs')⟩
    unfold Range.fromTime
    rw [Option.map_map]
    rfl

/-- Every sample ends a range. -/
theorem exists_range (prev : Option Range) {s : Sample} (h : s ∈ samples) :
    ∃ r ∈ rangesFrom prev samples, r.toTime = s.time := by
  induction samples generalizing prev with
  | nil => cases h
  | cons s' samples ih =>
    rcases List.mem_cons.mp h with rfl | h
    · exact ⟨_, List.mem_cons_self, rfl⟩
    · obtain ⟨r, hr, htime⟩ := ih _ h
      exact ⟨r, List.mem_cons_of_mem _ hr, htime⟩

/-- The ranges lie end to end by their times. -/
theorem tiles_time (hsorted : InTime samplesView) (hfirst : first ≤ 0) :
    Tiles (Range.fromTime first) Range.toTime first (timestampedRanges samplesView) :=
  rangesFrom_tiles_time none (hsorted.filter Sample.counted) fun s _ =>
    le_trans hfirst (Int.natCast_nonneg s.time)

/-- The times before that of a sample are before the end of the last range. -/
theorem lt_tilesEnd_time (hsorted : InTime samplesView) (hfirst : first ≤ 0) {s : Sample}
    (hs : s ∈ samplesView) (hcounted : s.counted = true) (hlt : time < s.time) :
    time < tilesEnd Range.toTime first (timestampedRanges samplesView) := by
  obtain ⟨r, hr, htime⟩ := exists_range none (List.mem_filter.mpr ⟨hs, hcounted⟩)
  obtain ⟨-, -, hend⟩ := (tiles_time hsorted hfirst).between hr
  exact lt_of_lt_of_le (htime ▸ hlt) hend

/-- **The ranges tile the trace**: every cycle that is counted is in exactly one range, and if the
samples come in the order of their times, so is every time before the last of those that count. -/
theorem ranges_tile (samplesView : List Sample) :
    (∀ cyc, cyc < ((samplesView.filter Sample.counted).map Sample.cycCount).sum →
      ((timestampedRanges samplesView).filter fun r => r.hasCyc cyc).length = 1) ∧
    (InTime samplesView → ∀ (time : Int), (∃ s ∈ samplesView, s.counted = true ∧ time < s.time) →
      ((timestampedRanges samplesView).filter fun r => r.covers time).length = 1) := by
  constructor
  · intro cyc hcyc
    have htiles := rangesFrom_tiles_cyc none (samplesView.filter Sample.counted)
    have hend := tilesEnd_cyc none (samplesView.filter Sample.counted)
    rw [Option.map_none, Option.getD_none, Nat.zero_add] at hend
    rw [List.filter_congr fun r _ => r.hasCyc_eq cyc]
    refine htiles.length_filter (Int.natCast_nonneg cyc) ?_
    rw [Option.map_none, Option.getD_none, hend]
    exact Int.ofNat_lt.mpr hcyc
  · rintro hsorted time ⟨s, hs, hcounted, hlt⟩
    -- any point before the time does for the start of the first range
    have hzero : min time 0 ≤ 0 := min_le_right time 0
    rw [List.filter_congr fun r _ => r.covers_eq (min_le_left time 0)]
    exact (tiles_time hsorted hzero).length_filter (min_le_left time 0)
      (lt_tilesEnd_time hsorted hzero hs hcounted hlt)

theorem ranges_tile_three :
    (timestampedRanges [⟨1, 100, 5, 7⟩, ⟨2, 100, 3, 4⟩, ⟨3, 140, 2, 0⟩]).filter
      (fun r => r.hasCyc 8) = [⟨some 1, some 100, some 5, some 7, 2, 100, 8, 11, 3, 4⟩] ∧
    ((timestampedRanges [⟨1, 100, 5, 7⟩, ⟨2, 100, 3, 4⟩, ⟨3, 140, 2, 0⟩]).filter
      fun r => r.covers 100).length = 1 := by
  refine ⟨rfl, (ranges_tile [⟨1, 100, 5, 7⟩, ⟨2, 100, 3, 4⟩, ⟨3, 140, 2, 0⟩]).2 ?_ 100 ?_⟩
  · unfold InTime
    decide
  · exact ⟨⟨3, 140, 2, 0⟩, List.mem_cons_of_mem _ (List.mem_cons_of_mem _ List.mem_cons_self),
      rfl, by decide⟩

end ShouldIAsync.IntelProcTrace

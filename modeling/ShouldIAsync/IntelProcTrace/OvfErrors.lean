import ShouldIAsync.IntelProcTrace.ErrorsAndRanges
import ShouldIAsync.Lib.OuterJoin
import Mathlib.Data.List.Perm.Subperm

/-!
# `ovf_errors.sql`

The trace begins again after an overflow: there should be one 'trace begin' sample for each
error. A query looks for errors and samples that are alone (`unpaired`); if it finds none, the
times of the errors are those of the samples, and if no two errors nor two of the samples share
their time, there is one for the other (`errors_one_to_one`).

The ranges go from one 'trace begin', or from the first sample that counts, to the last sample
that counts before the next one. Each such sample before the last start is in one of them, and
after the start of a range there is no error in it, if the first query has found none alone and
times follow the ids (`ranges_without_errors`).
-/

namespace ShouldIAsync.IntelProcTrace

open ShouldIAsync.Lib

/-- A row of `auxtrace_errors_view`. -/
structure ErrorView extends AuxtraceError where
  id : Nat

/-- A row of `samples_view`, with the name of its branch type if it has one. -/
structure BranchSample extends Sample where
  branchTypeName : Option String

/-- `branch_type_name='trace begin'` -/
def BranchSample.isTraceBegin (s : BranchSample) : Bool :=
  decide (s.branchTypeName = some "trace begin")

/-- `my_samples` -/
def traceBegins (samplesView : List BranchSample) : List BranchSample :=
  samplesView.filter BranchSample.isTraceBegin

/-- `samples_view` where `insn_count > 0 or cyc_count > 0` -/
def timestampedSamples (samplesView : List BranchSample) : List BranchSample :=
  samplesView.filter fun s => s.counted

/-! ## One error for one sample -/

/-- A row of `full_outer`. -/
structure FullOuter where
  errTime : Option Int
  sampleTime : Option Int
  errId : Option Nat
  sampleId : Option Nat

/-- `e.time = s.time` -/
def sameTime (e : ErrorView) (s : BranchSample) : Bool := decide (e.time = s.time)

/-- The columns, from a row of the join of the errors. -/
def FullOuter.ofErrors (row : ErrorView × Option BranchSample) : FullOuter where
  errTime := some row.1.time
  sampleTime := row.2.map fun s => (s.time : Int)
  errId := some row.1.id
  sampleId := row.2.map fun s => s.id

/-- The columns, from a row of the join of the samples. -/
def FullOuter.ofSamples (row : BranchSample × Option ErrorView) : FullOuter where
  errTime := row.2.map fun e => e.time
  sampleTime := some row.1.time
  errId := row.2.map ErrorView.id
  sampleId := some row.1.id

def eLeft (errors : List ErrorView) (samplesView : List BranchSample) : List FullOuter :=
  (leftOuterJoin sameTime errors (traceBegins samplesView)).map FullOuter.ofErrors

def sLeft (errors : List ErrorView) (samplesView : List BranchSample) : List FullOuter :=
  (leftOuterJoin (fun s e => sameTime e s) (traceBegins samplesView) errors).map FullOuter.ofSamples

/-- `err_time is null OR sample_time is null` -/
def FullOuter.alone (row : FullOuter) : Bool := row.errTime.isNone || row.sampleTime.isNone

/-- `order by err_time, sample_time` -/
def FullOuter.le (row row' : FullOuter) : Bool :=
  if row.errTime = row'.errTime then nullsLast row.sampleTime row'.sampleTime
  else nullsLast row.errTime row'.errTime

/-- What the query for errors and samples that are not 1:1 returns. -/
def unpaired (errors : List ErrorView) (samplesView : List BranchSample) : List FullOuter :=
  ((eLeft errors samplesView ++ sLeft errors samplesView).filter FullOuter.alone).insertionSort
    fun row row' => row.le row'

variable (errors : List ErrorView) (samplesView : List BranchSample)

/-- The rows are the errors without a sample, and the samples without an error, each once. -/
theorem unpaired_perm : (unpaired errors samplesView).Perm
    ((unmatched sameTime errors (traceBegins samplesView)).map (fun e =>
      FullOuter.ofErrors (e, none)) ++
      (unmatched (fun s e => sameTime e s) (traceBegins samplesView) errors).map
        fun s => FullOuter.ofSamples (s, none)) := by
  refine (List.perm_insertionSort _ _).trans (List.Perm.of_eq ?_)
  unfold eLeft sLeft
  rw [List.filter_append, List.filter_map, List.filter_map]
  have hleft : ∀ row, (FullOuter.alone ∘ FullOuter.ofErrors) row = row.2.isNone := by
    intro row
    exact (Bool.false_or _).trans Option.isNone_map
  have hright : ∀ row, (FullOuter.alone ∘ FullOuter.ofSamples) row = row.2.isNone := by
    intro row
    exact (Bool.or_false _).trans Option.isNone_map
  rw [List.filter_congr fun row _ => hleft row, List.filter_congr fun row _ => hright row,
    filter_leftOuterJoin, filter_leftOuterJoin, List.map_map, List.map_map]
  rfl

/-- Nothing is unpaired exactly if each error has its sample and each sample its error. -/
theorem unpaired_eq_nil : unpaired errors samplesView = [] ↔
    (∀ e ∈ errors, ∃ s ∈ traceBegins samplesView, e.time = s.time) ∧
      ∀ s ∈ traceBegins samplesView, ∃ e ∈ errors, e.time = s.time := by
  have hnil : ∀ {l l' : List FullOuter}, l.Perm l' → (l = [] ↔ l' = []) := fun h =>
    ⟨fun heq => (heq ▸ h).nil_eq.symm, fun heq => (heq ▸ h).eq_nil⟩
  rw [hnil (unpaired_perm errors samplesView), List.append_eq_nil_iff, List.map_eq_nil_iff,
    List.map_eq_nil_iff, unmatched_eq_nil, unmatched_eq_nil]
  unfold sameTime
  simp only [decide_eq_true_eq]

/-- The times of the errors, and those of the 'trace begin' samples. -/
def errorTimes (errors : List ErrorView) : List Int := errors.map fun e => e.time

/-- The times of the samples that begin a trace. -/
def traceBeginTimes (samplesView : List BranchSample) : List Int :=
  (traceBegins samplesView).map fun s => (s.time : Int)

/-- **Errors and 'trace begin' samples**: the query returns those that are alone. It returns none
exactly if the times of the errors are the times of the samples; where times are distinct, exactly
if there is one sample for one error. -/
theorem errors_one_to_one :
    (unpaired errors samplesView).Perm
      ((unmatched sameTime errors (traceBegins samplesView)).map (fun e =>
        FullOuter.ofErrors (e, none)) ++
        (unmatched (fun s e => sameTime e s) (traceBegins samplesView) errors).map
          fun s => FullOuter.ofSamples (s, none)) ∧
    (unpaired errors samplesView = [] ↔ ∀ time, time ∈ errorTimes errors ↔
      time ∈ traceBeginTimes samplesView) ∧
    ((errorTimes errors).Nodup → (traceBeginTimes samplesView).Nodup →
      (unpaired errors samplesView = [] ↔
        (errorTimes errors).Perm (traceBeginTimes samplesView))) := by
  have hiff : unpaired errors samplesView = [] ↔
      ∀ time, time ∈ errorTimes errors ↔ time ∈ traceBeginTimes samplesView := by
    rw [unpaired_eq_nil]
    unfold errorTimes traceBeginTimes
    simp only [List.mem_map]
    constructor
    · rintro ⟨herrors, hsamples⟩ time
      constructor
      · rintro ⟨e, he, rfl⟩
        obtain ⟨s, hs, heq⟩ := herrors e he
        exact ⟨s, hs, heq.symm⟩
      · rintro ⟨s, hs, rfl⟩
        exact hsamples s hs
    · intro h
      refine ⟨fun e he => ?_, fun s hs => (h s.time).mpr ⟨s, hs, rfl⟩⟩
      obtain ⟨s, hs, heq⟩ := (h e.time).mp ⟨e, he, rfl⟩
      exact ⟨s, hs, heq.symm⟩
  refine ⟨unpaired_perm errors samplesView, hiff, fun herrors hsamples => ?_⟩
  rw [hiff, List.perm_ext_iff_of_nodup herrors hsamples]

/-- Two errors at the time of one sample are not found. -/
example : unpaired [⟨⟨40, "Overflow packet"⟩, 1⟩, ⟨⟨40, "Overflow packet"⟩, 2⟩]
    [⟨⟨7, 40, 0, 0⟩, some "trace begin"⟩] = [] := by
  decide

/-! ## Ranges without errors -/

/-- A row of `range_starts`. -/
structure RangeStart where
  id : Nat
  time : Nat

/-- A sample that starts a range. -/
def RangeStart.ofSample (s : BranchSample) : RangeStart where
  id := s.id
  time := s.time

/-- `select min(time) from samples_view where insn_count > 0 or cyc_count > 0` -/
def firstTimestamp (samplesView : List BranchSample) : Option Nat :=
  ((timestampedSamples samplesView).map fun s => s.time).min?

/-- `range_starts` -/
def errorRangeStarts (samplesView : List BranchSample) : List RangeStart :=
  (traceBegins samplesView ++
    (timestampedSamples samplesView).filter fun s =>
      decide (firstTimestamp samplesView = some s.time)).map
      RangeStart.ofSample

/-- `range_starts`, `order by id` -/
def startsById (samplesView : List BranchSample) : List RangeStart :=
  (errorRangeStarts samplesView).insertionSort fun start start' => start.id ≤ start'.id

/-- A row of `ranges_with_duration`. -/
structure RangeWithDuration where
  duration : Option Int
  startTime : Nat
  endTime : Option Nat
  startId : Option Nat
  endId : Option Nat
  timeAfterStart : Option Int
  timeToEnd : Option Int

/-- `select max(s.time) from timestamped_samples as s where s.time < r.next_time`; NULL is before
nothing. -/
def endTimeBefore (samplesView : List BranchSample) (nextTime : Option Nat) : Option Nat :=
  (((timestampedSamples samplesView).map fun s => s.time).filter fun time =>
    nextTime.any fun next => decide (time < next)).max?

/-- The ids of the samples that count at the time. -/
def idsAt (samplesView : List BranchSample) (time : Option Nat) : List Nat :=
  ((timestampedSamples samplesView).filter fun s => decide (time = some s.time)).map fun s => s.id

/-- The columns of `ranges_with_duration`. -/
def RangeWithDuration.ofStart (samplesView : List BranchSample)
    (row : RangeStart × Option RangeStart) :
    RangeWithDuration :=
  let startTime := row.1.time
  let endTime := endTimeBefore samplesView (row.2.map RangeStart.time)
  let times := samplesView.map fun s => s.time
  { duration := endTime.map fun (time : Nat) => (time : Int) - startTime
    startTime := startTime
    endTime := endTime
    startId := (idsAt samplesView (some startTime)).min?
    endId := (idsAt samplesView endTime).max?
    timeAfterStart :=
      (times.filter fun time => decide (0 < time)).min?.map fun (time : Nat) =>
      (startTime : Int) - time
    timeToEnd := endTime.bind fun (end_ : Nat) =>
      times.max?.map fun (time : Nat) => (time : Int) - end_ }

/-- `ranges_with_duration` -/
def rangesWithDuration (samplesView : List BranchSample) : List RangeWithDuration :=
  (withLead (startsById samplesView)).map (RangeWithDuration.ofStart samplesView)

/-- The time is in the range, both ends included. -/
def RangeWithDuration.has (r : RangeWithDuration) (time : Int) : Bool :=
  decide ((r.startTime : Int) ≤ time) && r.endTime.any fun (end_ : Nat) => decide (time ≤ end_)

/-- The later of two samples is not before the other. -/
def TimesFollowIds (samplesView : List BranchSample) : Prop :=
  ∀ s ∈ samplesView, ∀ s' ∈ samplesView, s.id ≤ s'.id → s.time ≤ s'.time

/-- The time of a start, as the joins compare it. -/
def RangeStart.atTime (start : RangeStart) : Int := start.time

variable {samplesView : List BranchSample} {start : RangeStart}

/-- The starts in the order of their ids. -/
theorem mem_rangeStartsById : start ∈ startsById samplesView ↔
    start ∈ errorRangeStarts samplesView :=
  List.mem_insertionSort _

/-- Each start is that of a sample. -/
theorem exists_sample (h : start ∈ errorRangeStarts samplesView) :
    ∃ s ∈ samplesView, RangeStart.ofSample s = start := by
  obtain ⟨s, hs, rfl⟩ := List.mem_map.mp h
  rcases List.mem_append.mp hs with hs | hs
  · exact ⟨s, List.mem_of_mem_filter hs, rfl⟩
  · exact ⟨s, List.mem_of_mem_filter (List.mem_of_mem_filter hs), rfl⟩

/-- The starts are in the order of their times. -/
theorem rangeStartsById_sorted (hids : TimesFollowIds samplesView) :
    (startsById samplesView).Pairwise fun start start' => start.atTime ≤ start'.atTime := by
  have hsorted := List.pairwise_insertionSort
    (fun start start' : RangeStart => start.id ≤ start'.id)
    (errorRangeStarts samplesView)
  refine hsorted.imp_of_mem fun {start start'} h h' hle => ?_
  obtain ⟨s, hs, rfl⟩ := exists_sample (mem_rangeStartsById.mp h)
  obtain ⟨s', hs', rfl⟩ := exists_sample (mem_rangeStartsById.mp h')
  exact Int.ofNat_le.mpr (hids s hs s' hs' hle)

/-- The first of the samples that count starts a range, so that none of them is before the first
range. -/
theorem exists_start_le {s : BranchSample} (h : s ∈ timestampedSamples samplesView) :
    ∃ start ∈ errorRangeStarts samplesView, start.time ≤ s.time := by
  have htime : s.time ∈ (timestampedSamples samplesView).map fun s => s.time :=
    List.mem_map_of_mem h
  obtain ⟨time, htime'⟩ : ∃ time, firstTimestamp samplesView = some time :=
    Option.isSome_iff_exists.mp (List.isSome_min?_of_mem htime)
  obtain ⟨hmem, hleast⟩ := List.min?_eq_some_iff.mp htime'
  obtain ⟨first, hfirst, rfl⟩ := List.mem_map.mp hmem
  refine ⟨RangeStart.ofSample first, List.mem_map_of_mem (List.mem_append_right _ ?_),
    hleast _ htime⟩
  exact List.mem_filter.mpr ⟨hfirst, decide_eq_true htime'⟩

/-- A range ends with a sample that counts, before the next start. -/
theorem endTimeBefore_eq_some {nextTime : Option Nat} {time : Nat}
    (h : endTimeBefore samplesView nextTime = some time) :
    ∃ next ∈ nextTime, time < next := by
  obtain ⟨hmem, -⟩ := List.max?_eq_some_iff.mp h
  obtain ⟨next, hnext, hlt⟩ := (Option.any_eq_true _ _).mp (List.mem_filter.mp hmem).2
  exact ⟨next, hnext, of_decide_eq_true hlt⟩

/-- No sample that counts before the next start is after the end. -/
theorem le_endTimeBefore {next : Nat} {s : BranchSample} (h : s ∈ timestampedSamples samplesView)
    (hlt : s.time < next) :
    ∃ time, endTimeBefore samplesView (some next) = some time ∧ s.time ≤ time := by
  have htime : s.time ∈ ((timestampedSamples samplesView).map fun s => s.time).filter fun time =>
      (some next).any fun next => decide (time < next) :=
    List.mem_filter.mpr ⟨List.mem_map_of_mem h, decide_eq_true hlt⟩
  obtain ⟨time, htime'⟩ : ∃ time, endTimeBefore samplesView (some next) = some time :=
    Option.isSome_iff_exists.mp (List.isSome_max?_of_mem htime)
  exact ⟨time, htime', (List.max?_eq_some_iff.mp htime').2 _ htime⟩

/-- Where the samples that count are concerned a range goes on until the next one starts. -/
theorem has_eq {s : BranchSample} (h : s ∈ timestampedSamples samplesView)
    (row : RangeStart × Option RangeStart) :
    (RangeWithDuration.ofStart samplesView row).has s.time =
      inTile (fun row => row.1.atTime) (leadEnd RangeStart.atTime) s.time row := by
  obtain ⟨start, next⟩ := row
  rw [Bool.eq_iff_iff, inTile_iff]
  unfold RangeWithDuration.has
  rw [Bool.and_eq_true, decide_eq_true_iff, Option.any_eq_true]
  refine and_congr_right fun hstart => ?_
  constructor
  · rintro ⟨time, htime, hle⟩
    obtain ⟨nextTime, hnext, hlt⟩ := endTimeBefore_eq_some htime
    obtain ⟨next, rfl, rfl⟩ := Option.map_eq_some_iff.mp hnext
    exact lt_of_le_of_lt (of_decide_eq_true hle) (Int.ofNat_lt.mpr hlt)
  · intro hlt
    cases next with
    | none => exact absurd hlt (not_lt.mpr hstart)
    | some next =>
      obtain ⟨time, htime, hle⟩ := le_endTimeBefore h (Int.ofNat_lt.mp hlt)
      exact ⟨time, htime, decide_eq_true (Int.ofNat_le.mpr hle)⟩

/-- From start to start the ranges lie end to end. -/
theorem tiles_rangeStarts (hids : TimesFollowIds samplesView) : ∃ first,
    Tiles (fun row => row.1.atTime) (leadEnd RangeStart.atTime) first
      (withLead (startsById samplesView)) := by
  have hsorted := rangeStartsById_sorted hids
  cases hstarts : startsById samplesView with
  | nil => exact ⟨0, trivial⟩
  | cons start starts =>
    rw [hstarts] at hsorted
    exact ⟨_, tiles_withLead hsorted⟩

/-- **The ranges without errors**: if the check has found no error alone, and the samples come in
the order of their times, a range has no error except at its start. Every sample that counts is in
exactly one range, up to the start of the last one. -/
theorem ranges_without_errors (hids : TimesFollowIds samplesView)
    (hchecked : unpaired errors samplesView = []) :
    (∀ r ∈ rangesWithDuration samplesView, ∀ e ∈ errors, r.has e.time = true →
      e.time = r.startTime) ∧
    ∀ s ∈ samplesView, s.counted = true →
      (∃ start ∈ errorRangeStarts samplesView, s.time < start.time) →
      ((rangesWithDuration samplesView).filter fun r => r.has s.time).length = 1 := by
  obtain ⟨first, htiles⟩ := tiles_rangeStarts hids
  have hrow : ∀ start ∈ errorRangeStarts samplesView, ∃ next, (start, next) ∈
      withLead (startsById samplesView) :=
    fun start hstart => exists_mem_withLead (mem_rangeStartsById.mpr hstart)
  constructor
  · intro r hr e he hhas
    obtain ⟨⟨start, next⟩, hmem, rfl⟩ := List.mem_map.mp hr
    obtain ⟨s, hs, heq⟩ := ((unpaired_eq_nil errors samplesView).mp hchecked).1 e he
    obtain ⟨next', hmem'⟩ :=
      hrow (RangeStart.ofSample s) (List.mem_map_of_mem (List.mem_append_left _ hs))
    obtain ⟨hstart, hend⟩ := Bool.and_eq_true_iff.mp hhas
    obtain ⟨time, htime, hle⟩ := (Option.any_eq_true _ _).mp hend
    obtain ⟨nextTime, hnext, hlt⟩ := endTimeBefore_eq_some htime
    obtain ⟨next, rfl, rfl⟩ := Option.map_eq_some_iff.mp hnext
    have hat : (RangeStart.ofSample s).atTime = e.time := heq.symm
    -- the start of the error's sample is not inside the range
    rcases htiles.apart hmem hmem' with hbefore | hafter
    · exact le_antisymm (hat ▸ hbefore) (of_decide_eq_true hstart)
    · have hafter' : (next.time : Int) ≤ e.time := hat ▸ hafter
      exact absurd (le_trans hafter' (of_decide_eq_true hle)) (not_le.mpr (Int.ofNat_lt.mpr hlt))
  · rintro s hs hcounted ⟨last, hlast, hlt⟩
    have hs' : s ∈ timestampedSamples samplesView := List.mem_filter.mpr ⟨hs, hcounted⟩
    obtain ⟨start, hstart, hle⟩ := exists_start_le hs'
    obtain ⟨next, hmem⟩ := hrow start hstart
    obtain ⟨next', hmem'⟩ := hrow last hlast
    have hhas : ∀ row, ((fun r => r.has s.time) ∘ RangeWithDuration.ofStart samplesView) row =
        inTile (fun row => row.1.atTime) (leadEnd RangeStart.atTime) s.time row := has_eq hs'
    unfold rangesWithDuration
    rw [List.filter_map, List.length_map, List.filter_congr fun row _ => hhas row]
    obtain ⟨hfirst, -, -⟩ := htiles.between hmem
    obtain ⟨-, hlast', hend⟩ := htiles.between hmem'
    exact htiles.length_filter (le_trans hfirst (Int.ofNat_le.mpr hle))
      (lt_of_lt_of_le (Int.ofNat_lt.mpr hlt) (le_trans hlast' hend))

theorem ranges_without_errors_two :
    TimesFollowIds [⟨⟨1, 10, 2, 5⟩, none⟩, ⟨⟨2, 40, 0, 0⟩, some "trace begin"⟩] ∧
    unpaired [⟨⟨40, "Overflow packet"⟩, 1⟩] [⟨⟨1, 10, 2, 5⟩, none⟩,
      ⟨⟨2, 40, 0, 0⟩, some "trace begin"⟩] = [] ∧
    ((rangesWithDuration [⟨⟨1, 10, 2, 5⟩, none⟩, ⟨⟨2, 40, 0, 0⟩, some "trace begin"⟩]).filter
      fun r => r.has 10).length = 1 := by
  have hids : TimesFollowIds [⟨⟨1, 10, 2, 5⟩, none⟩, ⟨⟨2, 40, 0, 0⟩, some "trace begin"⟩] := by
    unfold TimesFollowIds
    simp
  have hchecked : unpaired [⟨⟨40, "Overflow packet"⟩, 1⟩]
      [⟨⟨1, 10, 2, 5⟩, none⟩, ⟨⟨2, 40, 0, 0⟩, some "trace begin"⟩] = [] := by
    decide
  refine ⟨hids, hchecked, (ranges_without_errors _ hids hchecked).2 ⟨⟨1, 10, 2, 5⟩, none⟩
    List.mem_cons_self rfl
    ⟨⟨2, 40⟩, ?_, by decide⟩⟩
  exact List.mem_map.mpr ⟨⟨⟨2, 40, 0, 0⟩, some "trace begin"⟩, List.mem_cons_self, rfl⟩

end ShouldIAsync.IntelProcTrace

import Mathlib.Algebra.BigOperators.Group.List.Basic
import Mathlib.Algebra.Order.Field.Rat
import Mathlib.Data.Rat.Cast.Order
import Mathlib.Data.Rat.Sqrt

/-!
# `ConnMetricsSet.Combined`

Five functions of the statistics library, each applied by the closure `apply`, which is to do
nothing any more after the first error. The `err` that `apply` sets is one of its own, so the one
`Combined` looks at stays nil (`combined_err`), and a field whose function failed stays zero. The
functions fail on the empty list: `Combined` keeps its promise exactly for the others.

The library is a parameter, and so is the conversion of the counts: to a rational that is the
count, where the sums are below 2⁵³, and to the nearest `float64` where they may be greater
(`Echo.Accounting`).
-/

namespace ShouldIAsync.Echo.Metrics

variable {ε : Type}

/-- The functions of `stats` that are used. -/
structure Stats (ε : Type) where
  sum : List ℚ → Except ε ℚ
  max : List ℚ → Except ε ℚ
  min : List ℚ → Except ε ℚ
  mean : List ℚ → Except ε ℚ
  standardDeviation : List ℚ → Except ε ℚ

structure ConnMetrics where
  count : Int64 := 0
  minCount : Int64 := 0
  maxCount : Int64 := 0
  averageCount : ℚ := 0
  stdDevCount : ℚ := 0
  deriving DecidableEq

/-- `float64(count)`, in exact arithmetic -/
def float64 (count : Int64) : ℚ := count.toInt

/-- `int64(f)` -/
def toInt64 (f : ℚ) : Int64 := Int64.ofInt (f.num.tdiv f.den)

/-- What a destination of `apply` points to. -/
inductive Destination
  | int64 (setInt : Int64 → ConnMetrics → ConnMetrics)
  | float64 (setFloat : ℚ → ConnMetrics → ConnMetrics)

/-- What is stored there. -/
def Destination.set (f : ℚ) : Destination → ConnMetrics → ConnMetrics
  | .int64 setInt => setInt (toInt64 f)
  | .float64 setFloat => setFloat f

/-- The metrics and the `err` of `Combined`. -/
abbrev Applied (ε : Type) := ConnMetrics × Option ε

/-- `apply`: the error of `applyFunc` is lost, since `f, err :=` declares another `err`. -/
def apply (fs : List ℚ) (r : Applied ε) (destination : Destination)
    (applyFunc : List ℚ → Except ε ℚ) : Applied ε :=
  -- short circuit on first err
  match r.2 with
  | some _ => r
  | none =>
    match applyFunc fs with
    -- `f, err := applyFunc(fs)` declares another `err`
    | .error _ => r
    | .ok f => (destination.set f r.1, r.2)

/-- `Combined`, with the conversion of the counts. -/
def combinedWith (float64 : Int64 → ℚ) (stats : Stats ε) (connMetrics : List Int64) :
    Option ConnMetrics × Option ε :=
  let fs := connMetrics.map float64
  let r := apply fs ({}, none) (.int64 fun i cm => { cm with count := i }) stats.sum
  let r := apply fs r (.int64 fun i cm => { cm with maxCount := i }) stats.max
  let r := apply fs r (.int64 fun i cm => { cm with minCount := i }) stats.min
  let r := apply fs r (.float64 fun f cm => { cm with averageCount := f }) stats.mean
  let r := apply fs r (.float64 fun f cm => { cm with stdDevCount := f }) stats.standardDeviation
  match r.2 with
  | some err => (none, some err)
  | none => (some r.1, none)

/-- `Combined`, in exact arithmetic. -/
def combined (stats : Stats ε) (connMetrics : List Int64) : Option ConnMetrics × Option ε :=
  combinedWith float64 stats connMetrics

/-- `newConn` -/
def newConn (connMetrics : List Int64) : List Int64 := connMetrics ++ [0]

/-! ## What `apply` does -/

variable {stats : Stats ε} {fs : List ℚ} {counts : List Int64}

/-- The captured `err` stays nil, whatever the function returns. -/
theorem apply_err {r : Applied ε} (h : r.2 = none) (destination : Destination)
    (applyFunc : List ℚ → Except ε ℚ) : (apply fs r destination applyFunc).2 = none := by
  unfold apply
  split
  next => exact h
  next =>
    split
    next => exact h
    next => exact h

theorem apply_ok {cm : ConnMetrics} {destination : Destination}
    {applyFunc : List ℚ → Except ε ℚ} {f : ℚ} (h : applyFunc fs = .ok f) :
    apply fs (cm, none) destination applyFunc = (destination.set f cm, none) := by
  unfold apply
  dsimp only
  rw [h]

/-- An error leaves everything as it is, and is lost. -/
theorem apply_error {cm : ConnMetrics} {destination : Destination}
    {applyFunc : List ℚ → Except ε ℚ} {err : ε} (h : applyFunc fs = .error err) :
    apply fs (cm, none) destination applyFunc = (cm, none) := by
  unfold apply
  dsimp only
  rw [h]

/-- A function that is applied to another field leaves the count. -/
theorem apply_count {r : Applied ε} {destination : Destination} (applyFunc : List ℚ → Except ε ℚ)
    (h : ∀ f cm, (destination.set f cm).count = cm.count) :
    (apply fs r destination applyFunc).1.count = r.1.count := by
  unfold apply
  split
  next => rfl
  next =>
    split
    next => rfl
    next f _ => exact h f r.1

/-- **`Combined` never returns an error.** -/
theorem combined_err (stats : Stats ε) (counts : List Int64) :
    ∃ cm, combined stats counts = (some cm, none) := by
  unfold combined combinedWith
  dsimp only
  split
  next h =>
    rw [apply_err (apply_err (apply_err (apply_err (apply_err rfl _ _) _ _) _ _) _ _) _ _] at h
    cases h
  next => exact ⟨_, rfl⟩

/-- The count is converted back from the sum, whatever the other functions do. -/
theorem combinedWith_count {float64 : Int64 → ℚ} {f : ℚ}
    (h : stats.sum (counts.map float64) = .ok f) :
    (combinedWith float64 stats counts).1.map (·.count) = some (toInt64 f) := by
  unfold combinedWith
  dsimp only
  rw [apply_ok h]
  split
  next herr =>
    rw [apply_err (apply_err (apply_err (apply_err rfl _ _) _ _) _ _) _ _] at herr
    cases herr
  next =>
    dsimp only [Option.map_some]
    rw [apply_count, apply_count, apply_count, apply_count]
    · rfl
    all_goals exact fun _ _ => rfl

/-- Without a sum it stays zero. -/
theorem combinedWith_count_of_error {float64 : Int64 → ℚ} {err : ε}
    (h : stats.sum (counts.map float64) = .error err) :
    (combinedWith float64 stats counts).1.map (·.count) = some 0 := by
  unfold combinedWith
  dsimp only
  rw [apply_error h]
  split
  next herr =>
    rw [apply_err (apply_err (apply_err (apply_err rfl _ _) _ _) _ _) _ _] at herr
    cases herr
  next =>
    dsimp only [Option.map_some]
    rw [apply_count, apply_count, apply_count, apply_count]
    all_goals exact fun _ _ => rfl

/-! ## What it should do -/

/-- What the functions return, in the order of their application. -/
def Stats.results (stats : Stats ε) (fs : List ℚ) : List (Except ε ℚ) :=
  [stats.sum fs, stats.max fs, stats.min fs, stats.mean fs, stats.standardDeviation fs]

/-- The metrics of the counts. -/
structure IsCombined (counts : List Int64) (cm : ConnMetrics) : Prop where
  count : cm.count.toInt = (counts.map Int64.toInt).sum
  minCount : cm.minCount ∈ counts ∧ ∀ count ∈ counts, cm.minCount ≤ count
  maxCount : cm.maxCount ∈ counts ∧ ∀ count ∈ counts, count ≤ cm.maxCount
  averageCount : cm.averageCount = ((counts.map Int64.toInt).sum : ℚ) / counts.length

/-- `Combined` reports or fails. -/
structure ReportsOrFails (stats : Stats ε) (counts : List Int64) : Prop where
  reports : (∀ r ∈ stats.results (counts.map float64), ∃ f, r = .ok f) →
    ∃ cm, combined stats counts = (some cm, none) ∧ IsCombined counts cm
  fails : ∀ err, .error err ∈ stats.results (counts.map float64) →
    combined stats counts = (none, some err)

/-- The library: no function is defined on the empty list, and all are on the others. -/
structure Stats.Documented (stats : Stats ε) (emptyInputErr : ε) : Prop where
  empty : ∀ r ∈ stats.results [], r = .error emptyInputErr
  sum : ∀ {fs}, fs ≠ [] → stats.sum fs = .ok fs.sum
  max : ∀ {fs}, fs ≠ [] → ∃ f, stats.max fs = .ok f ∧ f ∈ fs ∧ ∀ g ∈ fs, g ≤ f
  min : ∀ {fs}, fs ≠ [] → ∃ f, stats.min fs = .ok f ∧ f ∈ fs ∧ ∀ g ∈ fs, f ≤ g
  mean : ∀ {fs}, fs ≠ [] → stats.mean fs = .ok (fs.sum / fs.length)
  standardDeviation : ∀ {fs}, fs ≠ [] → ∃ f, stats.standardDeviation fs = .ok f

/-- Of some numbers each of the five statistics is defined. -/
theorem Stats.Documented.defined {emptyInputErr : ε} (hdoc : stats.Documented emptyInputErr)
    (hne : fs ≠ []) :
    ∀ r ∈ stats.results fs, ∃ f, r = .ok f := by
  obtain ⟨max, hmax, -, -⟩ := hdoc.max hne
  obtain ⟨min, hmin, -, -⟩ := hdoc.min hne
  obtain ⟨dev, hdev⟩ := hdoc.standardDeviation hne
  unfold Stats.results
  rw [hdoc.sum hne, hmax, hmin, hdoc.mean hne, hdev]
  intro r hr
  simp only [List.mem_cons, List.not_mem_nil, or_false] at hr
  rcases hr with rfl | rfl | rfl | rfl | rfl
  all_goals exact ⟨_, rfl⟩

/-! ## On rationals that are integers -/

/-- A whole number is stored as it is. -/
theorem toInt64_intCast (i : Int) : toInt64 i = Int64.ofInt i := by
  unfold toInt64
  rw [Rat.num_intCast, Rat.den_intCast]
  rw [Nat.cast_one, Int.tdiv_one]

/-- A count goes to a float and back unchanged. -/
theorem toInt64_float64 (count : Int64) : toInt64 (float64 count) = count := by
  unfold float64
  rw [toInt64_intCast, Int64.ofInt_toInt]

/-- The floats are ordered as the counts are. -/
theorem float64_le {count count' : Int64} (h : float64 count ≤ float64 count') : count ≤ count' :=
  Int64.le_iff_toInt_le.mpr (Int.cast_le.mp h)

/-- The sum of the floats is the sum of the counts. -/
theorem sum_float64 (counts : List Int64) :
    (counts.map float64).sum = ((counts.map Int64.toInt).sum : ℚ) := by
  induction counts with
  | nil => rfl
  | cons count counts ih =>
    rw [List.map_cons, List.sum_cons, ih, List.map_cons, List.sum_cons, Int.cast_add]
    rfl

/-- A sum below 2^53 is stored as it is. -/
theorem toInt_toInt64_sum (hsum : (counts.map Int64.toInt).sum.natAbs < 2 ^ 53) :
    (toInt64 (counts.map float64).sum).toInt = (counts.map Int64.toInt).sum := by
  rw [sum_float64, toInt64_intCast]
  refine Int64.toInt_ofInt_of_le ?_ ?_
  · omega
  · omega

/-! ## Where the list is not empty -/

/-- **Of some connections all five are reported.** -/
theorem combined_reports {emptyInputErr : ε} (hdoc : stats.Documented emptyInputErr)
    (hsum : (counts.map Int64.toInt).sum.natAbs < 2 ^ 53) (hne : counts ≠ []) :
    ∃ cm, combined stats counts = (some cm, none) ∧ IsCombined counts cm := by
  have hfs : counts.map float64 ≠ [] := fun h => hne (List.map_eq_nil_iff.mp h)
  obtain ⟨max, hmax, hmaxMem, hmaxLe⟩ := hdoc.max hfs
  obtain ⟨min, hmin, hminMem, hminLe⟩ := hdoc.min hfs
  obtain ⟨dev, hdev⟩ := hdoc.standardDeviation hfs
  obtain ⟨maxCount, hmaxCount, rfl⟩ := List.mem_map.mp hmaxMem
  obtain ⟨minCount, hminCount, rfl⟩ := List.mem_map.mp hminMem
  refine ⟨{
    count := toInt64 (counts.map float64).sum
    maxCount := toInt64 (float64 maxCount)
    minCount := toInt64 (float64 minCount)
    averageCount := (counts.map float64).sum / (counts.map float64).length
    stdDevCount := dev }, ?_, ?_⟩
  · unfold combined combinedWith
    dsimp only
    rw [apply_ok (hdoc.sum hfs), apply_ok hmax, apply_ok hmin, apply_ok (hdoc.mean hfs),
      apply_ok hdev]
    rfl
  · refine ⟨toInt_toInt64_sum hsum, ?_, ?_, ?_⟩
    · dsimp only
      rw [toInt64_float64]
      exact ⟨hminCount, fun count hcount => float64_le (hminLe _ (List.mem_map_of_mem hcount))⟩
    · dsimp only
      rw [toInt64_float64]
      exact ⟨hmaxCount, fun count hcount => float64_le (hmaxLe _ (List.mem_map_of_mem hcount))⟩
    · dsimp only
      rw [sum_float64, List.length_map]

theorem reportsOrFails_of_ne_nil {emptyInputErr : ε} (hdoc : stats.Documented emptyInputErr)
    (hsum : (counts.map Int64.toInt).sum.natAbs < 2 ^ 53) (hne : counts ≠ []) :
      ReportsOrFails stats counts where
  reports _ := combined_reports hdoc hsum hne
  fails err herr := by
    obtain ⟨f, hf⟩ := hdoc.defined (fun h => hne (List.map_eq_nil_iff.mp h)) _ herr
    cases hf

/-- From the first connection on all is well. -/
theorem reportsOrFails_newConn {emptyInputErr : ε} (hdoc : stats.Documented emptyInputErr)
    (hsum : (counts.map Int64.toInt).sum.natAbs < 2 ^ 53) : ReportsOrFails stats
      (newConn counts) := by
  refine reportsOrFails_of_ne_nil hdoc ?_ (List.append_ne_nil_of_right_ne_nil counts
    (List.cons_ne_nil 0 []))
  rw [newConn, List.map_append, List.sum_append]
  simpa using hsum

/-- **`Combined` reports or fails exactly where it has a connection to report**, for every list of
counts: of an empty one it makes a measurement that is all zeros. -/
theorem combined_iff (stats : Stats ε) (emptyInputErr : ε) (hdoc : stats.Documented emptyInputErr)
    (counts : List Int64) (hsum : (counts.map Int64.toInt).sum.natAbs < 2 ^ 53) :
    ReportsOrFails stats counts ↔ counts ≠ [] := by
  constructor
  · rintro hok rfl
    obtain ⟨cm, hcm⟩ := combined_err stats ([] : List Int64)
    have hsumFails : stats.sum [] = .error emptyInputErr := hdoc.empty _ List.mem_cons_self
    have hfails := hok.fails emptyInputErr (hsumFails ▸ List.mem_cons_self)
    rw [hcm] at hfails
    cases hfails
  · exact reportsOrFails_of_ne_nil hdoc hsum

/-- The library in exact arithmetic, where the deviation is rational. -/
def exactStats : Stats String where
  sum fs := if fs = [] then .error "Input must not be empty." else .ok fs.sum
  max fs := fs.max?.elim (.error "Input must not be empty.") .ok
  min fs := fs.min?.elim (.error "Input must not be empty.") .ok
  mean fs := if fs = [] then .error "Input must not be empty." else .ok (fs.sum / fs.length)
  standardDeviation fs :=
    if fs = [] then .error "Input must not be empty."
    else .ok (Rat.sqrt ((fs.map fun f => (f - fs.sum / fs.length) ^ 2).sum / fs.length))

/-- Exact statistics are as documented. -/
theorem exactStats_documented : exactStats.Documented "Input must not be empty." where
  empty r hr := by
    simp only [Stats.results, exactStats, List.max?_nil, List.min?_nil, Option.elim_none, if_true,
      List.mem_cons, List.not_mem_nil, or_false, or_self] at hr
    exact hr
  sum hne := if_neg hne
  max hne := by
    obtain ⟨f, hf⟩ := Option.ne_none_iff_exists'.mp (mt List.max?_eq_none_iff.mp hne)
    refine ⟨f, ?_, List.max?_eq_some_iff.mp hf⟩
    simp only [exactStats, hf, Option.elim_some]
  min hne := by
    obtain ⟨f, hf⟩ := Option.ne_none_iff_exists'.mp (mt List.min?_eq_none_iff.mp hne)
    refine ⟨f, ?_, List.min?_eq_some_iff.mp hf⟩
    simp only [exactStats, hf, Option.elim_some]
  mean hne := if_neg hne
  standardDeviation hne := ⟨_, if_neg hne⟩

theorem combined_iff_two : ReportsOrFails exactStats [3, 5] ↔ [(3 : Int64), 5] ≠ [] :=
  combined_iff exactStats "Input must not be empty." exactStats_documented [3, 5] (by decide)

/-- No connection at all. -/
theorem combined_empty :
    ¬ ∀ (stats : Stats String) (emptyInputErr : String), stats.Documented emptyInputErr →
      ∀ counts : List Int64, (counts.map Int64.toInt).sum.natAbs < 2 ^ 53 →
        ReportsOrFails stats counts := by
  intro hall
  have hfails := (hall exactStats _ exactStats_documented [] (by decide)).fails _ List.mem_cons_self
  cases hfails

end ShouldIAsync.Echo.Metrics

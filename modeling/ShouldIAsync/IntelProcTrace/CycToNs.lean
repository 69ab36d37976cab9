import ShouldIAsync.Lib.BinaryFloat
import Mathlib.Algebra.Order.SuccPred
import Mathlib.Data.Nat.SuccPred

/-!
# `time_cyc_to_ns`

Cycles are turned into time by the line through two points that are 15 µs apart, computed with
float64. A float64 of the size of a time has a step, `ulp`, so that successive cycles get different
times only if there are no more cycles between the two points than steps.

-- `start_add_le`: with more of them the times of two cycles are the same;
-- `usable_of_spaced`: with a little more room than that (`Spaced`), which makes up for the
  rounding of the rate and of the product with it, the times are different, and the second point
  is met.

`cyc` is an `int` that is not below `start_cyc`, so that numpy subtracts in `uint64`. Beyond
`2 ^ 53` cycles from `start_cyc` no rate has different times for all of them
(`not_strictMono`).
-/

namespace ShouldIAsync.IntelProcTrace

open Lib.BinaryFloat

/-- The difference of two `ubigint` -/
def ubigintSub (a b : Nat) : Nat := (a + 2 ^ 64 - b) % 2 ^ 64

/-- A difference that is not negative does not wrap. -/
theorem ubigintSub_of_le {a b : Nat} (h : b ≤ a) (ha : a < 2 ^ 64) : ubigintSub a b = a - b := by
  unfold ubigintSub
  omega

/-- What the conversions use. -/
structure Rate where
  startNs : Nat
  startCyc : Nat
  endNs : Nat
  endCyc : Nat

namespace Rate

def nsRate (rate : Rate) : ℚ :=
  float64 (float64 (ubigintSub rate.endNs rate.startNs)
    / float64 (ubigintSub rate.endCyc rate.startCyc))

def durationCycToNs (rate : Rate) (durationCyc : Nat) : ℚ :=
  float64 (float64 durationCyc * rate.nsRate)

def timeCycToNs (rate : Rate) (cyc : Nat) : ℚ :=
  float64 (float64 rate.startNs + rate.durationCycToNs (ubigintSub cyc rate.startCyc))

/-- The rate can be used for the cycles from the first point to the second. -/
structure Usable (rate : Rate) : Prop where
  cyc_lt : rate.startCyc < rate.endCyc
  divisor : ubigintSub rate.endCyc rate.startCyc ≠ 0
  increasing : StrictMonoOn rate.timeCycToNs (Set.Icc rate.startCyc rate.endCyc)
  start : rate.timeCycToNs rate.startCyc = rate.startNs
  stop : rate.timeCycToNs rate.endCyc = rate.endNs

/-- Over 15 µs the times of so many cycles can be told apart, where they have this `step`: with
`2 ^ (-38)` ns more for each, or if the rate is the step itself. -/
def Spaced (step : ℚ) (cycles : Nat) : Prop :=
  cycles * step = 15000 ∨ cycles * (step + 2 ^ (-38 : ℤ)) ≤ 15000

variable {rate : Rate} {cycles : Nat}

/-- `2 ^ 53 + 1` is not a float64, so no rate goes on for ever. -/
theorem not_strictMono (rate : Rate) : ¬ StrictMono rate.timeCycToNs := by
  intro hmono
  have hlt := hmono (Nat.lt_succ_self (rate.startCyc + 2 ^ 53))
  have hsub : ubigintSub (rate.startCyc + 2 ^ 53) rate.startCyc = 2 ^ 53 := by
    unfold ubigintSub
    omega
  have hsub' : ubigintSub (rate.startCyc + 2 ^ 53).succ rate.startCyc = 2 ^ 53 + 1 := by
    unfold ubigintSub
    omega
  have hfloat : float64 ((2 ^ 53 : ℕ) : ℚ) = (2 ^ 53 : ℕ) := round_natCast (by decide) (le_refl _)
  have hulp : ulp 53 ((2 ^ 53 + 1 : ℕ) : ℚ) = 2 := by
    have heq := ulp_eq (p := 53) (e := 53) (x := ((2 ^ 53 + 1 : ℕ) : ℚ)) (by norm_num) (by norm_num)
    rw [heq]
    norm_num
  have hfloat' : float64 ((2 ^ 53 + 1 : ℕ) : ℚ) = (2 ^ 53 : ℕ) := by
    refine round_eq (n := 2 ^ 52) ?_ ?_ (Or.inl ?_)
    · rw [hulp]
      norm_num
    · rw [hulp]
      norm_num
    · exact (even_two).pow_of_ne_zero (by decide)
  unfold timeCycToNs durationCycToNs at hlt
  rw [hsub, hsub', hfloat, hfloat'] at hlt
  exact lt_irrefl _ hlt

/-! ## No more cycles than steps -/

/-- The times are floats. -/
theorem isFloat_timeCycToNs (rate : Rate) (cyc : Nat) : IsFloat 53 (rate.timeCycToNs cyc) := by
  refine isFloat_round (add_nonneg (round_nonneg _ (Nat.cast_nonneg _)) ?_)
  refine round_nonneg _ (mul_nonneg (round_nonneg _ (Nat.cast_nonneg _)) ?_)
  refine round_nonneg _ (div_nonneg ?_ ?_) <;> exact round_nonneg _ (Nat.cast_nonneg _)

/-- **Every cycle takes a step.** -/
theorem Usable.start_add_le (husable : rate.Usable) (hpos : 0 < rate.startNs) :
    ∀ k, rate.startCyc + k ≤ rate.endCyc →
      rate.startNs + k * ulp 53 rate.startNs ≤ rate.timeCycToNs (rate.startCyc + k) := by
  have hpos' : (0 : ℚ) < rate.startNs := Nat.cast_pos.mpr hpos
  have hulp := ulp_pos 53 (rate.startNs : ℚ)
  intro k
  induction k with
  | zero =>
    intro
    rw [Nat.add_zero, husable.start, Nat.cast_zero, zero_mul, add_zero]
  | succ k ih =>
    intro hk
    have hle := ih (Nat.le_of_succ_le hk)
    have hlt := husable.increasing ⟨Nat.le_add_right _ _, Nat.le_of_succ_le hk⟩
      ⟨Nat.le_add_right _ _, hk⟩ (Nat.lt_succ_self (rate.startCyc + k))
    have hge : (rate.startNs : ℚ) ≤ rate.timeCycToNs (rate.startCyc + k) := by
      have : (0 : ℚ) ≤ k * ulp 53 rate.startNs := mul_nonneg (Nat.cast_nonneg _) hulp.le
      linarith
    -- both times are multiples of the step
    obtain ⟨n, hn⟩ :=
      (isFloat_timeCycToNs rate (rate.startCyc + k)).eq_mul_ulp (by decide) hpos' hge
    obtain ⟨n', hn'⟩ := (isFloat_timeCycToNs rate (rate.startCyc + (k + 1))).eq_mul_ulp
      (by decide) hpos' (hge.trans hlt.le)
    rw [hn, hn', mul_lt_mul_iff_left₀ hulp] at hlt
    have hstep : (n : ℚ) + 1 ≤ n' := by exact_mod_cast hlt
    have hmul := mul_le_mul_of_nonneg_right hstep hulp.le
    calc rate.startNs + (k + 1 : ℕ) * ulp 53 rate.startNs
        = rate.startNs + k * ulp 53 rate.startNs + ulp 53 rate.startNs := by push_cast; ring
      _ ≤ n * ulp 53 rate.startNs + ulp 53 rate.startNs := by rw [← hn]; linarith
      _ ≤ rate.timeCycToNs (rate.startCyc + (k + 1)) := by
        rw [hn']
        linarith

/-- **A usable rate has no more cycles than 15 µs have steps.** -/
theorem Usable.mul_ulp_le (husable : rate.Usable) (hpos : 0 < rate.startNs)
    (hns : rate.endNs = rate.startNs + 15000) :
    (rate.endCyc - rate.startCyc : ℕ) * ulp 53 rate.startNs ≤ 15000 := by
  have hsum : rate.startCyc + (rate.endCyc - rate.startCyc) = rate.endCyc :=
    Nat.add_sub_cancel' husable.cyc_lt.le
  have hle := husable.start_add_le hpos (rate.endCyc - rate.startCyc) hsum.le
  rw [hsum, husable.stop, hns] at hle
  push_cast at hle ⊢
  linarith

/-! ## Room for the cycles -/

/-- The time `k` cycles after the start. -/
theorem timeCycToNs_add (hfloat : IsFloat 53 (rate.startNs : ℚ)) {k : Nat} (hk : k ≤ 2 ^ 53) :
    rate.timeCycToNs (rate.startCyc + k) = float64 (rate.startNs + float64 (k * rate.nsRate)) := by
  have hsub : ubigintSub (rate.startCyc + k) rate.startCyc = k := by
    unfold ubigintSub
    omega
  have hstart : float64 (rate.startNs : ℚ) = rate.startNs :=
    round_of_isFloat (by decide) (Nat.cast_nonneg _) hfloat
  have hk' : float64 (k : ℚ) = k := round_natCast (by decide) hk
  unfold timeCycToNs durationCycToNs
  rw [hsub, hstart, hk']

/-- Two points `cycles` apart, at the times that `setup` gives them. -/
structure Over (rate : Rate) (cycles : Nat) : Prop where
  cyc : rate.endCyc = rate.startCyc + cycles
  cyc_lt : rate.endCyc < 2 ^ 64
  pos : 0 < cycles
  le : cycles ≤ 2 ^ 53
  ns : rate.endNs = rate.startNs + 15000
  ns_lt : rate.endNs < 2 ^ 64
  start : IsFloat 53 (rate.startNs : ℚ)
  stop : IsFloat 53 (rate.endNs : ℚ)

/-- The divisor is the number of cycles. -/
theorem Over.divisor (h : rate.Over cycles) : ubigintSub rate.endCyc rate.startCyc = cycles := by
  have hsum := h.cyc
  rw [ubigintSub_of_le (by omega) h.cyc_lt]
  omega

/-- The rate is 15000 ns over the cycles, rounded. -/
theorem Over.nsRate_eq (h : rate.Over cycles) : rate.nsRate = float64 (15000 / cycles) := by
  have hns : ubigintSub rate.endNs rate.startNs = 15000 := by
    have hsum := h.ns
    rw [ubigintSub_of_le (by omega) h.ns_lt]
    omega
  have hduration : float64 ((15000 : ℕ) : ℚ) = (15000 : ℕ) := round_natCast (by decide) (by decide)
  have hcycles : float64 (cycles : ℚ) = cycles := round_natCast (by decide) h.le
  unfold nsRate
  rw [h.divisor, hns, hduration, hcycles]
  rfl

theorem Over.timeCycToNs_startCyc (h : rate.Over cycles) :
    rate.timeCycToNs rate.startCyc = rate.startNs := by
  have hzero : float64 ((0 : ℕ) * rate.nsRate) = 0 := by
    rw [Nat.cast_zero, zero_mul]
    exact round_zero 53
  have heq := timeCycToNs_add h.start (Nat.zero_le _)
  rw [Nat.add_zero, hzero, add_zero] at heq
  rw [heq]
  exact round_of_isFloat (by decide) (Nat.cast_nonneg _) h.start

/-- What is left to show of a rate. -/
theorem Over.usable (h : rate.Over cycles)
    (hstep : ∀ k < cycles,
      rate.timeCycToNs (rate.startCyc + k) < rate.timeCycToNs (rate.startCyc + (k + 1)))
    (hstop : rate.timeCycToNs (rate.startCyc + cycles) = rate.endNs) : rate.Usable := by
  have hcyc := h.cyc
  have hpos := h.pos
  refine ⟨by omega, ?_, ?_, h.timeCycToNs_startCyc, ?_⟩
  · rw [h.divisor]
    exact hpos.ne'
  · refine strictMonoOn_of_lt_add_one Set.ordConnected_Icc fun cyc _ hge hle => ?_
    obtain ⟨k, rfl⟩ := Nat.exists_eq_add_of_le hge.1
    refine hstep k ?_
    have := hle.2
    omega
  · rw [hcyc]
    exact hstop

/-- A rate of just a step: all sums are floats. -/
theorem Over.usable_of_eq (h : rate.Over cycles) (heq : cycles * ulp 53 rate.endNs = 15000) :
    rate.Usable := by
  have hend : 0 < rate.endNs := by
    have := h.ns
    omega
  have hend' : (0 : ℚ) < rate.endNs := Nat.cast_pos.mpr hend
  have hulp := ulp_pos 53 (rate.endNs : ℚ)
  have hrate : rate.nsRate = ulp 53 rate.endNs := by
    have hcycles : (0 : ℚ) < cycles := Nat.cast_pos.mpr h.pos
    rw [h.nsRate_eq, ← heq, mul_div_cancel_left₀ _ hcycles.ne']
    exact round_of_isFloat (by decide) hulp.le (isFloat_ulp 53 _)
  obtain ⟨n, hn⟩ := h.stop.eq_mul_ulp (by decide) hend' (le_refl _)
  have hns : (rate.endNs : ℚ) = rate.startNs + 15000 := by
    rw [h.ns]
    push_cast
    rfl
  have htime : ∀ k ≤ cycles,
      rate.timeCycToNs (rate.startCyc + k) = rate.startNs + k * ulp 53 rate.endNs := by
    intro k hk
    have hk' : (k : ℚ) ≤ cycles := Nat.cast_le.mpr hk
    rw [timeCycToNs_add h.start (hk.trans h.le), hrate]
    have hprod : float64 (k * ulp 53 rate.endNs) = k * ulp 53 rate.endNs :=
      round_of_isFloat (by decide) (mul_nonneg (Nat.cast_nonneg _) hulp.le)
        (isFloat_mul_zpow (hk.trans h.le) _)
    rw [hprod]
    -- counted back from the second point, which is a multiple of the step
    have hsum : rate.startNs + k * ulp 53 rate.endNs
        = ((n - (cycles - k : ℕ) : ℤ) : ℚ) * ulp 53 rate.endNs := by
      push_cast [Nat.cast_sub hk]
      linarith
    refine round_of_isFloat (by decide) (by positivity) ?_
    rw [hsum]
    refine ⟨_, _, ?_, rfl⟩
    have hnonneg : 0 ≤ ((n - (cycles - k : ℕ) : ℤ) : ℚ) := by
      refine nonneg_of_mul_nonneg_left ?_ hulp
      rw [← hsum]
      positivity
    have hn' : (n : ℚ) < 2 ^ 53 :=
      lt_of_mul_lt_mul_right (lt_of_eq_of_lt hn.symm (lt_mul_ulp 53 hend'.le)) hulp.le
    rw [abs_of_nonneg (by exact_mod_cast hnonneg)]
    have hn'' : n < 2 ^ 53 := by exact_mod_cast hn'
    omega
  refine h.usable (fun k hk => ?_) ?_
  · rw [htime k hk.le, htime (k + 1) hk]
    push_cast
    linarith
  · rw [htime cycles (le_refl _), heq, hns]

/-! With less than a step of the rate for a step of the times -/

theorem two_zpow_neg : (2 : ℚ) ^ (-38 : ℤ) = 1 / 2 ^ 38 := by
  rw [zpow_neg]
  norm_num

/-- The rounded rate -/
theorem Over.abs_nsRate_sub_le (h : rate.Over cycles) :
    |rate.nsRate - 15000 / cycles| ≤ 15000 / cycles / 2 ^ 53 := by
  rw [h.nsRate_eq]
  exact abs_round_sub_le_mul (div_nonneg (by norm_num) (Nat.cast_nonneg _))

theorem Over.nsRate_pos (h : rate.Over cycles) : 0 < rate.nsRate := by
  have hcycles : (0 : ℚ) < cycles := Nat.cast_pos.mpr h.pos
  have hexact : (0 : ℚ) < 15000 / cycles := by positivity
  have herr := (abs_le.mp h.abs_nsRate_sub_le).1
  have : (15000 : ℚ) / cycles / 2 ^ 53 ≤ 15000 / cycles / 2 := by
    gcongr
    norm_num
  linarith

/-- The product for the second point is within the step of the floats at 15000. -/
theorem Over.abs_mul_nsRate_sub_le (h : rate.Over cycles) :
    |cycles * rate.nsRate - 15000| ≤ 15000 / 2 ^ 53 := by
  have hcycles : (0 : ℚ) < cycles := Nat.cast_pos.mpr h.pos
  have heq : cycles * rate.nsRate - 15000 = cycles * (rate.nsRate - 15000 / cycles) := by
    field_simp
  rw [heq, abs_mul, abs_of_pos hcycles]
  calc cycles * |rate.nsRate - 15000 / cycles| ≤ cycles * (15000 / cycles / 2 ^ 53) :=
        mul_le_mul_of_nonneg_left h.abs_nsRate_sub_le hcycles.le
    _ = 15000 / 2 ^ 53 := by field_simp

/-- So it is rounded to 15000 or to one of the floats next to it. -/
theorem Over.abs_product_sub_le (h : rate.Over cycles) :
    |float64 (cycles * rate.nsRate) - 15000| ≤ 1 / 2 ^ 39 := by
  obtain ⟨hlo, hhi⟩ := abs_le.mp h.abs_mul_nsRate_sub_le
  rw [abs_le]
  constructor
  · have hfloat : IsFloat 53 (15000 - 1 / 2 ^ 39) :=
      isFloat_of_eq_div (n := 15000 * 2 ^ 39 - 1) (by decide) 39 (by norm_num)
    have := le_round (by decide) (by norm_num) hfloat (y := cycles * rate.nsRate) (by
      norm_num at hlo ⊢
      linarith)
    linarith
  · have hfloat : IsFloat 53 (15000 + 1 / 2 ^ 39) :=
      isFloat_of_eq_div (n := 15000 * 2 ^ 39 + 1) (by decide) 39 (by norm_num)
    have hnonneg : 0 ≤ cycles * rate.nsRate := mul_nonneg (Nat.cast_nonneg _) h.nsRate_pos.le
    have := round_le (by decide) hnonneg hfloat (by
      norm_num at hhi ⊢
      linarith)
    linarith

/-- No cycle is more than half a nanosecond past the end. -/
theorem Over.mul_nsRate_lt (h : rate.Over cycles) {k : Nat} (hk : k ≤ cycles) :
    k * rate.nsRate < 15000 + 1 / 2 := by
  have hle : k * rate.nsRate ≤ cycles * rate.nsRate :=
    mul_le_mul_of_nonneg_right (Nat.cast_le.mpr hk) h.nsRate_pos.le
  have herr := (abs_le.mp h.abs_mul_nsRate_sub_le).2
  norm_num at herr ⊢
  linarith

/-- Up to the second point a product is off by half a step of the floats below `2 ^ 14`. -/
theorem Over.abs_product_sub_mul_le (h : rate.Over cycles) {k : Nat} (hk : k ≤ cycles) :
    |float64 (k * rate.nsRate) - k * rate.nsRate| ≤ 1 / 2 ^ 40 := by
  rcases Nat.eq_zero_or_pos k with rfl | hpos
  · have hzero : float64 0 = 0 := round_zero 53
    rw [Nat.cast_zero, zero_mul, hzero, sub_zero, abs_zero]
    positivity
  · have hprod : 0 < k * rate.nsRate := mul_pos (Nat.cast_pos.mpr hpos) h.nsRate_pos
    have hlt : k * rate.nsRate < 2 ^ ((13 : ℤ) + 1) :=
      (h.mul_nsRate_lt hk).trans (by norm_num)
    have hulp := ulp_le (p := 53) hprod hlt
    refine (abs_round_sub_le 53 _).trans ?_
    norm_num at hulp ⊢
    linarith

/-- **Successive cycles have different times.** -/
theorem Over.lt_of_spaced (h : rate.Over cycles) (hstart : 0 < rate.startNs)
    (hspaced : cycles * (ulp 53 rate.endNs + 2 ^ (-38 : ℤ)) ≤ 15000) {k : Nat} (hk : k < cycles) :
    rate.timeCycToNs (rate.startCyc + k) < rate.timeCycToNs (rate.startCyc + (k + 1)) := by
  have hcycles : (1 : ℚ) ≤ cycles := Nat.one_le_cast.mpr h.pos
  have hstart' : (0 : ℚ) < rate.startNs := Nat.cast_pos.mpr hstart
  have hns : (rate.endNs : ℚ) = rate.startNs + 15000 := by
    rw [h.ns]
    push_cast
    rfl
  have hlo := (abs_le.mp (h.abs_product_sub_mul_le hk.le)).2
  have hhi := abs_le.mp (h.abs_product_sub_mul_le hk)
  have hnonneg : 0 ≤ float64 (k * rate.nsRate) :=
    round_nonneg 53 (mul_nonneg (Nat.cast_nonneg _) h.nsRate_pos.le)
  have hnonneg' : 0 ≤ float64 ((k + 1 : ℕ) * rate.nsRate) :=
    round_nonneg 53 (mul_nonneg (Nat.cast_nonneg _) h.nsRate_pos.le)
  -- the rate leaves `2 ^ (-38)` for the three roundings
  have hrate : ulp 53 rate.endNs + 1 / 2 ^ 38 ≤ 15000 / cycles := by
    rw [le_div_iff₀ (by linarith), mul_comm, ← two_zpow_neg]
    exact hspaced
  have herr := (abs_le.mp h.abs_nsRate_sub_le).1
  have hexact : (15000 : ℚ) / cycles ≤ 15000 := div_le_self (by norm_num) hcycles
  have hulp : ulp 53 (rate.startNs + float64 ((k + 1 : ℕ) * rate.nsRate)) ≤ ulp 53 rate.endNs := by
    refine ulp_le_natCast (by rw [h.ns]; exact Nat.succ_pos _) (by linarith) ?_
    have hlt := h.mul_nsRate_lt hk
    rw [hns]
    norm_num at hhi hlt ⊢
    linarith
  rw [timeCycToNs_add h.start (hk.le.trans h.le),
    timeCycToNs_add h.start (Nat.le_trans hk h.le)]
  refine round_lt_round (by linarith) (lt_of_le_of_lt hulp ?_)
  push_cast at hhi ⊢
  norm_num at hlo hhi hrate herr ⊢
  linarith

/-- **The second point is met.** If the product is a step off, the sum is half a step off, and
an integer is an even number of steps. -/
theorem Over.stop_of_lt (h : rate.Over cycles) (hend : 2 ^ 14 < rate.endNs) :
    rate.timeCycToNs (rate.startCyc + cycles) = rate.endNs := by
  have hend' : (2 ^ 14 : ℚ) + 1 ≤ rate.endNs := by exact_mod_cast hend
  have hns : (rate.endNs : ℚ) = rate.startNs + 15000 := by
    rw [h.ns]
    push_cast
    rfl
  rw [timeCycToNs_add h.start h.le]
  set x := rate.startNs + float64 (cycles * rate.nsRate) with hx
  have hoff : |x - rate.endNs| ≤ 1 / 2 ^ 39 := by
    have heq : x - rate.endNs = float64 (cycles * rate.nsRate) - 15000 := by
      rw [hns]
      ring
    rw [heq]
    exact h.abs_product_sub_le
  obtain ⟨hlo, hhi⟩ := abs_le.mp hoff
  have hxlo : (2 : ℚ) ^ (14 : ℤ) ≤ x := by
    norm_num at hlo ⊢
    linarith
  have hxpos : 0 < x := lt_of_lt_of_le (by positivity) hxlo
  have hulp := le_ulp (p := 53) hxlo
  -- the second point in steps
  obtain ⟨n, hn⟩ : ∃ n : ℤ, (rate.endNs : ℚ) = n * ulp 53 x := by
    rcases le_total x rate.endNs with hle | hge
    · exact h.stop.eq_mul_ulp (by decide) hxpos hle
    · have heq : ulp 53 x = ulp 53 (rate.endNs : ℚ) := by
        refine le_antisymm (ulp_le_natCast (by omega) hxpos ?_) (ulp_mono (by linarith) hge)
        norm_num at hhi ⊢
        linarith
      rw [heq]
      exact h.stop.eq_mul_ulp (by decide) (by linarith) (le_refl _)
  have hstep : (2 : ℚ) ^ (14 + 1 - (53 : ℕ) : ℤ) = 1 / 2 ^ 38 := by
    rw [← two_zpow_neg]
    norm_num
  rw [hstep] at hulp
  refine round_eq hn (hoff.trans ?_) ?_
  · norm_num at hulp ⊢
    linarith
  · by_cases hlt : 1 / 2 ^ 38 < ulp 53 x
    · right
      refine lt_of_le_of_lt hoff ?_
      norm_num at hlt ⊢
      linarith
    · left
      rw [le_antisymm (le_of_not_gt hlt) hulp] at hn
      have heven : n = rate.endNs * 2 ^ 38 := by
        have : (n : ℚ) = rate.endNs * 2 ^ 38 := by
          rw [hn]
          ring
        exact_mod_cast this
      rw [heven]
      exact (even_two.pow_of_ne_zero (by decide)).mul_left _

/-- So many cycles are floats. -/
theorem Spaced.le_two_pow {x : ℚ} (h : Spaced (ulp 53 x) cycles) (hx : 2 ^ 14 ≤ x) :
    cycles ≤ 2 ^ 53 := by
  have hulp := le_ulp (p := 53) (e := 14) (by exact_mod_cast hx)
  have hstep : (2 : ℚ) ^ (14 + 1 - (53 : ℕ) : ℤ) = 1 / 2 ^ 38 := by norm_num
  rw [hstep] at hulp
  have hle : cycles * ulp 53 x ≤ 15000 := by
    rcases h with heq | hle
    · exact heq.le
    · refine le_trans (mul_le_mul_of_nonneg_left ?_ (Nat.cast_nonneg _)) hle
      exact le_add_of_nonneg_right (by positivity)
  have hmul : (cycles : ℚ) * (1 / 2 ^ 38) ≤ cycles * ulp 53 x :=
    mul_le_mul_of_nonneg_left hulp (Nat.cast_nonneg _)
  have hcycles : (cycles : ℚ) ≤ 2 ^ 53 := by linarith
  exact_mod_cast hcycles

/-- **With room for the cycles the rate can be used.** -/
theorem Over.usable_of_spaced (h : rate.Over cycles) (hstart : 2 ^ 11 ≤ rate.startNs)
    (hspaced : Spaced (ulp 53 rate.endNs) cycles) : rate.Usable := by
  rcases hspaced with heq | hspaced
  · exact h.usable_of_eq heq
  · have hns := h.ns
    exact h.usable (fun k hk => h.lt_of_spaced (by omega) hspaced hk) (h.stop_of_lt (by omega))

/-- From `2 ^ 40` ns on, without a power of two between the two points, there is room for as many
cycles as there are steps. -/
theorem spaced_of_mul_ulp_le {ns : Nat} (hns : 2 ^ 40 ≤ ns) (hfloat : IsFloat 53 (ns : ℚ))
    (hfloat' : IsFloat 53 ((ns + 15000 : ℕ) : ℚ))
    (hulp : ulp 53 (ns : ℚ) = ulp 53 ((ns + 15000 : ℕ) : ℚ))
    (hle : cycles * ulp 53 (ns : ℚ) ≤ 15000) :
    Spaced (ulp 53 ((ns + 15000 : ℕ) : ℚ)) cycles := by
  have hns' : (2 : ℚ) ^ (40 : ℤ) ≤ ns := by exact_mod_cast hns
  have hpos : (0 : ℚ) < ns := lt_of_lt_of_le (by positivity) hns'
  have hlo := le_ulp (p := 53) hns'
  have hstep : (2 : ℚ) ^ (40 + 1 - (53 : ℕ) : ℤ) = 1 / 2 ^ 12 := by norm_num
  rw [hstep] at hlo
  rw [← hulp]
  -- 15 µs are a whole number of steps
  obtain ⟨n, hn⟩ := hfloat.eq_mul_ulp (by decide) hpos (le_refl _)
  have hadd : (ns : ℚ) ≤ ((ns + 15000 : ℕ) : ℚ) := by
    rw [Nat.cast_add]
    exact le_add_of_nonneg_right (Nat.cast_nonneg _)
  obtain ⟨n', hn'⟩ := hfloat'.eq_mul_ulp (by decide) hpos hadd
  have hsteps : (15000 : ℚ) = ((n' - n : ℤ) : ℚ) * ulp 53 ns := by
    rw [Nat.cast_add, Nat.cast_ofNat] at hn'
    rw [Int.cast_sub, sub_mul]
    linarith
  rw [hsteps, mul_le_mul_iff_left₀ (ulp_pos 53 (ns : ℚ))] at hle
  have hle' : (cycles : ℤ) ≤ n' - n := by exact_mod_cast hle
  rcases hle'.eq_or_lt with heq | hlt
  · left
    rw [hsteps, ← heq]
    rfl
  · right
    -- a step is left, and the cycles take less than a step more
    have hlt' : (cycles : ℚ) + 1 ≤ ((n' - n : ℤ) : ℚ) := by exact_mod_cast hlt
    have hroom := mul_le_mul_of_nonneg_right hlt' (ulp_pos 53 (ns : ℚ)).le
    rw [← hsteps] at hroom
    have hcycles : (cycles : ℚ) * (1 / 2 ^ 12) ≤ cycles * ulp 53 ns :=
      mul_le_mul_of_nonneg_left hlo (Nat.cast_nonneg _)
    rw [two_zpow_neg]
    norm_num at hlo hroom hcycles ⊢
    linarith

end Rate

end ShouldIAsync.IntelProcTrace

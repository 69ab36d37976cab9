import Mathlib.Data.Int.Log
import Mathlib.Data.Rat.Floor
import Mathlib.Tactic.FieldSimp
import Mathlib.Tactic.Linarith
import Mathlib.Tactic.Positivity
import Mathlib.Tactic.Ring

/-!
# Binary floating point

A float with `p` bits is an integer of at most `2 ^ p` times a power of two, and the result of an
operation is the exact one rounded to the nearest float, to the even one of two (`round`). Exponents
are not limited, so there are no infinities and no subnormal numbers: this is the arithmetic of a
format like binary64 as long as the results are in its normal range.

-- `round_mono`, `round_of_isFloat`: what is on one side of a float stays there, which is enough to
  compare a computed value with an exact one;
-- `abs_round_sub_le`, `abs_round_sub_le_mul`: the error, by the step of the floats and relative;
-- `round_lt_round`: values more than a step apart stay apart;
-- `IsFloat.eq_mul_ulp`: from `x` on the floats are multiples of the step at `x`;
-- `roundedSum_natCast`: natural numbers are added up exactly.

All of it is for nonnegative numbers.
-/

namespace ShouldIAsync.Lib.BinaryFloat

/-! ## Rounding to an integer -/

/-- The nearest integer, of two the even one. -/
def roundEven (q : ℚ) : ℤ :=
  if q - ⌊q⌋ < 1 / 2 then ⌊q⌋
  else if 1 / 2 < q - ⌊q⌋ then ⌊q⌋ + 1
  else if Even ⌊q⌋ then ⌊q⌋ else ⌊q⌋ + 1

/-- Rounding is off by one half at most. -/
theorem abs_roundEven_sub_le (q : ℚ) : |(roundEven q : ℚ) - q| ≤ 1 / 2 := by
  have hlo := Int.floor_le q
  have hhi := Int.lt_floor_add_one q
  unfold roundEven
  rw [abs_le]
  split
  · constructor <;> linarith
  · split
    · push_cast
      constructor <;> linarith
    · split
      · constructor <;> linarith
      · push_cast
        constructor <;> linarith

/-- The integer that is nearest, and even if there is another one. -/
theorem roundEven_eq {q : ℚ} {n : ℤ} (h : |q - n| ≤ 1 / 2) (heven : Even n ∨ |q - n| < 1 / 2) :
    roundEven q = n := by
  obtain ⟨hlo, hhi⟩ := abs_le.mp h
  by_cases hle : (n : ℚ) ≤ q
  · have hfloor : ⌊q⌋ = n := Int.floor_eq_iff.mpr ⟨hle, by linarith⟩
    unfold roundEven
    rw [hfloor]
    split
    · rfl
    · next hge =>
      rw [if_neg (by linarith)]
      rcases heven with heven | hlt
      · exact if_pos heven
      · exact absurd (lt_of_le_of_lt (le_abs_self _) hlt) hge
  · have hfloor : ⌊q⌋ = n - 1 := by
      rw [Int.floor_eq_iff]
      push_cast
      constructor <;> linarith
    unfold roundEven
    rw [hfloor]
    push_cast
    rw [if_neg (by linarith)]
    split
    · exact sub_add_cancel n 1
    · next hnot =>
      rcases heven with heven | hlt
      · rw [if_neg]
        · exact sub_add_cancel n 1
        · rw [Int.even_sub_one]
          exact not_not_intro heven
      · have := (abs_lt.mp hlt).1
        exact absurd (by linarith) hnot

/-- An integer stays as it is. -/
@[simp] theorem roundEven_intCast (n : ℤ) : roundEven n = n :=
  roundEven_eq (by simp) (Or.inr (by simp))

/-- Rounding is monotone. -/
theorem roundEven_mono {q q' : ℚ} (h : q ≤ q') : roundEven q ≤ roundEven q' := by
  by_contra hlt
  -- a rounding that turns them around would have them equal
  have hle : (roundEven q' : ℚ) + 1 ≤ roundEven q := by exact_mod_cast Int.lt_of_not_ge hlt
  have herr := (abs_le.mp (abs_roundEven_sub_le q)).2
  have herr' := (abs_le.mp (abs_roundEven_sub_le q')).1
  have heq : q = q' := by linarith
  rw [heq] at hlt
  exact hlt (le_refl _)

/-! ## The floats -/

variable {p : ℕ} {x y : ℚ}

/-- An integer of `p` bits, or `2 ^ p`, times a power of two. -/
def IsFloat (p : ℕ) (x : ℚ) : Prop := ∃ n e : ℤ, |n| ≤ 2 ^ p ∧ x = n * 2 ^ e

/-- The step of the floats at `x`. -/
def ulp (p : ℕ) (x : ℚ) : ℚ := 2 ^ (Int.log 2 |x| + 1 - p)

/-- The nearest float, of two the one that is even. -/
def round (p : ℕ) (x : ℚ) : ℚ := roundEven (x / ulp p x) * ulp p x

theorem ulp_pos (p : ℕ) (x : ℚ) : 0 < ulp p x := zpow_pos (by norm_num) _

/-- The spacing grows. -/
theorem ulp_mono (hx : 0 < x) (h : x ≤ y) : ulp p x ≤ ulp p y := by
  unfold ulp
  refine zpow_le_zpow_right₀ (by norm_num) ?_
  have hlog := Int.log_mono_right (b := 2) (abs_pos.mpr hx.ne') (abs_le_abs_of_nonneg hx.le h)
  omega

/-- The step at a number in the binade of `2 ^ e`. -/
theorem ulp_eq {e : ℤ} (hlo : 2 ^ e ≤ x) (hhi : x < 2 ^ (e + 1)) : ulp p x = 2 ^ (e + 1 - p) := by
  have hx : 0 < x := lt_of_lt_of_le (zpow_pos (by norm_num) e) hlo
  have hlog : Int.log 2 |x| = e := by
    rw [abs_of_pos hx]
    refine le_antisymm ?_ ((Int.zpow_le_iff_le_log (by norm_num) hx).mp hlo)
    exact Int.lt_add_one_iff.mp ((Int.lt_zpow_iff_log_lt (by norm_num) hx).mp hhi)
  unfold ulp
  rw [hlog]

/-- From `2 ^ e` on the spacing is at least this. -/
theorem le_ulp {e : ℤ} (h : 2 ^ e ≤ x) : 2 ^ (e + 1 - p) ≤ ulp p x := by
  have hx : 0 < x := lt_of_lt_of_le (zpow_pos (by norm_num) e) h
  unfold ulp
  rw [abs_of_pos hx]
  refine zpow_le_zpow_right₀ (by norm_num) ?_
  have hlog : e ≤ Int.log 2 x :=
    (Int.zpow_le_iff_le_log (b := 2) (by norm_num) hx).mp (by exact_mod_cast h)
  omega

theorem ulp_le {e : ℤ} (hx : 0 < x) (h : x < 2 ^ (e + 1)) : ulp p x ≤ 2 ^ (e + 1 - p) := by
  unfold ulp
  rw [abs_of_pos hx]
  refine zpow_le_zpow_right₀ (by norm_num) ?_
  have hlog : Int.log 2 x < e + 1 :=
    (Int.lt_zpow_iff_log_lt (b := 2) (by norm_num) hx).mp (by exact_mod_cast h)
  omega

/-- Up to the next integer the step does not grow. -/
theorem ulp_le_natCast {n : ℕ} (hn : 0 < n) (hx : 0 < x) (h : x < n + 1) :
    ulp p x ≤ ulp p (n : ℚ) := by
  have hlt : n < 2 ^ (Nat.log 2 n + 1) := Nat.lt_pow_succ_log_self (by decide) n
  have hle : (n : ℚ) + 1 ≤ 2 ^ (Nat.log 2 n + 1) := by exact_mod_cast hlt
  have hbinade : x < 2 ^ ((Nat.log 2 n : ℤ) + 1) := lt_of_lt_of_le h (by exact_mod_cast hle)
  refine (ulp_le hx hbinade).trans (le_ulp ?_)
  rw [zpow_natCast]
  exact_mod_cast Nat.pow_log_le_self 2 hn.ne'

/-- A number takes `p` bits of steps. -/
theorem lt_mul_ulp (p : ℕ) (hx : 0 ≤ x) : x < 2 ^ p * ulp p x := by
  have hlt := Int.lt_zpow_succ_log_self (b := 2) (by norm_num) |x|
  rw [abs_of_nonneg hx] at hlt
  unfold ulp
  rw [abs_of_nonneg hx, ← zpow_natCast, ← zpow_add₀ (by norm_num)]
  refine lt_of_lt_of_eq hlt (congrArg _ ?_)
  omega

/-- A number has `p` bits of its spacing. -/
theorem mul_ulp_le (hx : 0 < x) : 2 ^ p * ulp p x ≤ 2 * x := by
  have hle := Int.zpow_log_le_self (b := 2) (by norm_num) hx
  unfold ulp
  rw [abs_of_pos hx, ← zpow_natCast, ← zpow_add₀ (by norm_num),
    show (p : ℤ) + (Int.log 2 x + 1 - p) = 1 + Int.log 2 x by omega, zpow_add₀ (by norm_num),
      zpow_one]
  exact mul_le_mul_of_nonneg_left hle (by norm_num)

/-- A number in the format binary64, `float(x)` -/
abbrev float64 (x : ℚ) : ℚ := round 53 x

theorem round_zero (p : ℕ) : round p 0 = 0 := by
  have hzero : roundEven 0 = 0 := roundEven_intCast 0
  simp [round, hzero]

/-! ## The error -/

/-- A rounded number is off by half of the spacing at most. -/
theorem abs_round_sub_le (p : ℕ) (x : ℚ) : |round p x - x| ≤ ulp p x / 2 := by
  have hpos := ulp_pos p x
  have heq : round p x - x = (roundEven (x / ulp p x) - x / ulp p x) * ulp p x := by
    unfold round
    rw [sub_mul, div_mul_cancel₀ _ hpos.ne']
  rw [heq, abs_mul, abs_of_pos hpos]
  calc _ ≤ 1 / 2 * ulp p x := mul_le_mul_of_nonneg_right (abs_roundEven_sub_le _) hpos.le
    _ = ulp p x / 2 := by ring

/-- The relative error. -/
theorem abs_round_sub_le_mul (hx : 0 ≤ x) : |round p x - x| ≤ x / 2 ^ p := by
  rcases hx.eq_or_lt with rfl | hpos
  · rw [round_zero]
    simp
  · refine (abs_round_sub_le p x).trans ?_
    have hle := mul_ulp_le (p := p) hpos
    rw [div_le_div_iff₀ (by norm_num) (by positivity)]
    linarith

/-- **Values more than a step apart stay apart.** -/
theorem round_lt_round (hx : 0 < x) (h : ulp p y < y - x) : round p x < round p y := by
  have hmono := ulp_mono (p := p) hx (by have := ulp_pos p y; linarith : x ≤ y)
  have hx' := (abs_le.mp (abs_round_sub_le p x)).2
  have hy' := (abs_le.mp (abs_round_sub_le p y)).1
  linarith

/-! ## Floats and rounding -/

/-- **From `x` on the floats are multiples of the step at `x`.** -/
theorem IsFloat.eq_mul_ulp (h : IsFloat p y) (hp : 0 < p) (hx : 0 < x) (hxy : x ≤ y) :
    ∃ n : ℤ, y = n * ulp p x := by
  obtain ⟨n, e, hn, rfl⟩ := h
  have hlog := Int.zpow_log_le_self (b := 2) (by norm_num) hx
  have htwo : ((2 : ℕ) : ℚ) = 2 := by norm_num
  rw [htwo] at hlog
  unfold ulp
  rw [abs_of_pos hx]
  by_cases he : Int.log 2 x + 1 - p ≤ e
  · obtain ⟨k, hk⟩ := Int.eq_ofNat_of_zero_le (Int.sub_nonneg.mpr he)
    refine ⟨n * 2 ^ k, ?_⟩
    have hsplit : (2 : ℚ) ^ e = 2 ^ k * 2 ^ (Int.log 2 x + 1 - p) := by
      rw [← zpow_natCast, ← zpow_add₀ (by norm_num)]
      congr 1
      have : (k : ℤ) = e - (Int.log 2 x + 1 - p) := hk.symm
      omega
    rw [hsplit]
    push_cast
    ring
  · -- a significand of `2 ^ p`, and one power less
    have hn' : (n : ℚ) ≤ 2 ^ p := by exact_mod_cast (le_abs_self n).trans hn
    have hle : (2 : ℚ) ^ Int.log 2 x ≤ 2 ^ p * 2 ^ e :=
      (hlog.trans hxy).trans (mul_le_mul_of_nonneg_right hn' (zpow_pos (by norm_num) e).le)
    rw [← zpow_natCast, ← zpow_add₀ (by norm_num), zpow_le_zpow_iff_right₀ (by norm_num)] at hle
    have he' : e = Int.log 2 x - p := by omega
    have hge : (2 : ℚ) ^ p ≤ n := by
      have hle' := hlog.trans hxy
      rw [he', zpow_sub₀ (by norm_num), zpow_natCast, ← mul_div_assoc, le_div_iff₀ (by positivity),
        mul_comm] at hle'
      exact le_of_mul_le_mul_right hle' (zpow_pos (by norm_num) _)
    refine ⟨2 ^ (p - 1), ?_⟩
    rw [le_antisymm hn' hge, he']
    push_cast
    rw [← zpow_natCast, ← zpow_natCast, ← zpow_add₀ (by norm_num), ← zpow_add₀ (by norm_num)]
    congr 1
    omega

/-- A float that is nearest, and even if there is another one. -/
theorem round_eq {n : ℤ} (hy : y = n * ulp p x) (h : |x - y| ≤ ulp p x / 2)
    (heven : Even n ∨ |x - y| < ulp p x / 2) : round p x = y := by
  have hpos := ulp_pos p x
  have hdiv : x / ulp p x - n = (x - y) / ulp p x := by
    rw [hy, sub_div, mul_div_cancel_right₀ _ hpos.ne']
  have hround : roundEven (x / ulp p x) = n := by
    refine roundEven_eq ?_ (heven.imp_right fun hlt => ?_)
    · rw [hdiv, abs_div, abs_of_pos hpos, div_le_iff₀ hpos]
      linarith
    · rw [hdiv, abs_div, abs_of_pos hpos, div_lt_iff₀ hpos]
      linarith
  unfold round
  rw [hround, hy]

/-- **Floats are rounded to themselves.** -/
theorem round_of_isFloat (hp : 0 < p) (h0 : 0 ≤ x) (h : IsFloat p x) : round p x = x := by
  rcases h0.eq_or_lt with rfl | hx
  · exact round_zero p
  · obtain ⟨n, hn⟩ := h.eq_mul_ulp hp hx (le_refl x)
    have hpos := ulp_pos p x
    refine round_eq hn ?_ (Or.inr ?_)
    · rw [sub_self, abs_zero]
      exact (half_pos hpos).le
    · rw [sub_self, abs_zero]
      exact half_pos hpos

/-- The significand has `p` bits at most. -/
theorem roundEven_div_le (p : ℕ) (h0 : 0 ≤ x) : roundEven (x / ulp p x) ≤ (2 ^ p : ℤ) := by
  rw [← roundEven_intCast (2 ^ p)]
  refine roundEven_mono ?_
  rw [div_le_iff₀ (ulp_pos p x)]
  push_cast
  exact (lt_mul_ulp p h0).le

theorem roundEven_div_nonneg (p : ℕ) (h0 : 0 ≤ x) : 0 ≤ roundEven (x / ulp p x) := by
  rw [← roundEven_intCast 0]
  exact roundEven_mono (by simpa using div_nonneg h0 (ulp_pos p x).le)

/-- **Rounding gives a float.** -/
theorem isFloat_round (h0 : 0 ≤ x) : IsFloat p (round p x) := by
  refine ⟨roundEven (x / ulp p x), Int.log 2 |x| + 1 - p, ?_, rfl⟩
  rw [abs_of_nonneg (roundEven_div_nonneg p h0)]
  exact roundEven_div_le p h0

theorem round_nonneg (p : ℕ) (h0 : 0 ≤ x) : 0 ≤ round p x := by
  refine mul_nonneg ?_ (ulp_pos p x).le
  exact_mod_cast roundEven_div_nonneg p h0

/-- A number is not rounded up beyond the next power of two. -/
theorem round_le_two_zpow (p : ℕ) (hx : 0 < x) : round p x ≤ 2 ^ (Int.log 2 x + 1) := by
  have hle : (roundEven (x / ulp p x) : ℚ) ≤ 2 ^ p := by exact_mod_cast roundEven_div_le p hx.le
  have htop : (2 : ℚ) ^ (Int.log 2 x + 1) = 2 ^ p * ulp p x := by
    unfold ulp
    rw [abs_of_pos hx, ← zpow_natCast, ← zpow_add₀ (by norm_num)]
    congr 1
    omega
  rw [htop]
  exact mul_le_mul_of_nonneg_right hle (ulp_pos p x).le

/-- A number is not rounded down beyond its own power of two. -/
theorem two_zpow_le_round (hp : 0 < p) (hx : 0 < x) : 2 ^ Int.log 2 x ≤ round p x := by
  have hpos := ulp_pos p x
  have hlog := Int.zpow_log_le_self (b := 2) (by norm_num) hx
  push_cast at hlog
  have hbottom : (2 : ℚ) ^ Int.log 2 x = ((2 ^ (p - 1) : ℤ) : ℚ) * ulp p x := by
    unfold ulp
    push_cast
    rw [abs_of_pos hx, ← zpow_natCast, ← zpow_add₀ (by norm_num)]
    congr 1
    omega
  rw [hbottom] at hlog ⊢
  unfold round
  refine mul_le_mul_of_nonneg_right ?_ hpos.le
  have hle : (2 ^ (p - 1) : ℤ) ≤ roundEven (x / ulp p x) := by
    rw [← roundEven_intCast (2 ^ (p - 1))]
    exact roundEven_mono ((le_div_iff₀ hpos).mpr hlog)
  exact_mod_cast hle

/-- Within a binade rounding is that to an integer. -/
theorem round_mono_of_ulp (hxy : x ≤ y) (hulp : ulp p x = ulp p y) : round p x ≤ round p y := by
  have hpos := ulp_pos p y
  unfold round
  rw [hulp]
  refine mul_le_mul_of_nonneg_right ?_ hpos.le
  exact_mod_cast roundEven_mono (div_le_div_of_nonneg_right hxy hpos.le)

/-- **Rounding keeps the order.** -/
theorem round_mono (hp : 0 < p) (h0 : 0 ≤ x) (hxy : x ≤ y) : round p x ≤ round p y := by
  rcases h0.eq_or_lt with rfl | hx
  · rw [round_zero]
    exact round_nonneg p hxy
  · have hy : 0 < y := lt_of_lt_of_le hx hxy
    rcases (Int.log_mono_right (b := 2) hx hxy).eq_or_lt with heq | hlt
    · refine round_mono_of_ulp hxy ?_
      unfold ulp
      rw [abs_of_pos hx, abs_of_pos hy, heq]
    · -- a power of two is between them
      calc round p x ≤ 2 ^ (Int.log 2 x + 1) := round_le_two_zpow p hx
        _ ≤ 2 ^ Int.log 2 y := zpow_le_zpow_right₀ (by norm_num) hlt
        _ ≤ round p y := two_zpow_le_round hp hy

/-- A number from a float on is rounded to one from it on. -/
theorem le_round (hp : 0 < p) (h0 : 0 ≤ x) (hx : IsFloat p x) (h : x ≤ y) : x ≤ round p y :=
  (round_of_isFloat hp h0 hx).symm.le.trans (round_mono hp h0 h)

/-- A number up to a float is rounded to one up to it. -/
theorem round_le (hp : 0 < p) (h0 : 0 ≤ x) (hy : IsFloat p y) (h : x ≤ y) : round p x ≤ y :=
  (round_mono hp h0 h).trans (round_of_isFloat hp (h0.trans h) hy).le

/-- A small enough integer is a float, with any exponent. -/
theorem isFloat_mul_zpow {n : ℕ} (h : n ≤ 2 ^ p) (e : ℤ) : IsFloat p (n * 2 ^ e) :=
  ⟨n, e, by rw [Nat.abs_cast]; exact_mod_cast h, rfl⟩

/-- A fraction of a power of two, with few bits, is a float. -/
theorem isFloat_of_eq_div {n : ℕ} (h : n ≤ 2 ^ p) (k : ℕ) (hx : x = n / 2 ^ k) : IsFloat p x := by
  have hfloat := isFloat_mul_zpow h (-k)
  rwa [zpow_neg, zpow_natCast, ← div_eq_mul_inv, ← hx] at hfloat

/-- A step is a float. -/
theorem isFloat_ulp (p : ℕ) (x : ℚ) : IsFloat p (ulp p x) := by
  have hfloat := isFloat_mul_zpow (p := p) (n := 1) Nat.one_le_two_pow (Int.log 2 |x| + 1 - p)
  rwa [Nat.cast_one, one_mul] at hfloat

theorem isFloat_natCast {n : ℕ} (h : n ≤ 2 ^ p) : IsFloat p n := by
  have hfloat := isFloat_mul_zpow h 0
  rwa [zpow_zero, mul_one] at hfloat

theorem round_natCast (hp : 0 < p) {n : ℕ} (h : n ≤ 2 ^ p) : round p n = n :=
  round_of_isFloat hp (Nat.cast_nonneg n) (isFloat_natCast h)

/-- One number added after the other, with a rounding after each addition. -/
def roundedSum (p : ℕ) (xs : List ℚ) : ℚ := xs.foldl (fun sum x => round p (sum + x)) 0

/-- Natural numbers are added up exactly, as long as there are enough bits for the sum. -/
theorem roundedSum_natCast (hp : 0 < p) {ns : List ℕ} (h : ns.sum ≤ 2 ^ p) :
    roundedSum p (ns.map Nat.cast) = (ns.sum : ℕ) := by
  have hfold : ∀ (ns : List ℕ) (acc : ℕ), acc + ns.sum ≤ 2 ^ p →
      (ns.map (Nat.cast : ℕ → ℚ)).foldl (fun sum x => round p (sum + x)) acc
        = ((acc + ns.sum : ℕ) : ℚ) := by
    intro ns
    induction ns with
    | nil => simp
    | cons n ns ih =>
      intro acc hacc
      rw [List.sum_cons, ← Nat.add_assoc] at hacc
      rw [List.map_cons, List.foldl_cons, ← Nat.cast_add, round_natCast hp (by omega), ih _ hacc,
        List.sum_cons, Nat.add_assoc]
  have hsum := hfold ns 0 (by omega)
  rwa [Nat.cast_zero, Nat.zero_add] at hsum

/-- What is left of a float without its fraction is one. -/
theorem IsFloat.floor (hp : 0 < p) (h0 : 0 ≤ x) (h : IsFloat p x) : IsFloat p ((⌊x⌋₊ : ℕ) : ℚ) := by
  by_cases hsmall : ⌊x⌋₊ ≤ 2 ^ p
  · exact isFloat_natCast hsmall
  · -- a number this large has no fraction
    have hbig : (2 : ℚ) ^ p ≤ x := by
      have hle : ((2 ^ p : ℕ) : ℚ) ≤ x := (Nat.le_floor_iff h0).mp (Nat.le_of_not_le hsmall)
      exact_mod_cast hle
    have htwo : (0 : ℚ) < 2 ^ p := by positivity
    obtain ⟨n, hn⟩ := h.eq_mul_ulp hp htwo hbig
    have hulp : ulp p ((2 : ℚ) ^ p) = 2 := by
      have heq := ulp_eq (p := p) (e := p) (x := 2 ^ p) (by rw [zpow_natCast]) (by
        rw [zpow_add₀ (by norm_num), zpow_natCast, zpow_one]
        linarith)
      rw [heq, show (p : ℤ) + 1 - p = 1 by omega, zpow_one]
    rw [hulp] at hn
    have hint : x = ((n * 2 : ℤ) : ℚ) := by rw [hn]; push_cast; rfl
    have hnonneg : 0 ≤ n * 2 := by
      rw [hint] at h0
      exact_mod_cast h0
    obtain ⟨k, hk⟩ := Int.eq_ofNat_of_zero_le hnonneg
    have hnat : x = (k : ℚ) := by
      rw [hint, hk]
      simp
    rw [hnat, Nat.floor_natCast, ← hnat]
    exact h

end ShouldIAsync.Lib.BinaryFloat

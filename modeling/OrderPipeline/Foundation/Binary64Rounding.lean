import OrderPipeline.Foundation.Binary64
import OrderPipeline.Foundation.RoundedMean

/-!
# Binary64 as a rounding

`nearestBinary64` without a bound on the exponent is a `Rounding` of the rationals:
monotone, idempotent, and with the relative error `2 ^ -53` above the subnormal numbers.
-/

namespace PyFloat

/-- Rounding to an integer keeps the order; in a tie the two neighbours agree on the
even one. -/
theorem roundHalfEven_mono {x y : ℚ} (h : x ≤ y) : roundHalfEven x ≤ roundHalfEven y := by
  rcases (Int.floor_mono h).lt_or_eq with hfloor | hfloor
  · -- an integer lies between them
    have hx : roundHalfEven x ≤ ⌊x⌋ + 1 := by
      apply roundHalfEven_le
      push_cast
      exact (Int.lt_floor_add_one x).le
    have hy : ⌊y⌋ ≤ roundHalfEven y := le_roundHalfEven (Int.floor_le y)
    omega
  · unfold roundHalfEven
    rw [← hfloor]
    split_ifs <;> first | omega | linarith

/-- Rounding does not pass the next power of two. -/
theorem nearestBinary64_le_power {x : ℚ} (hx : 0 < x) : nearestBinary64 x ≤ 2 ^ 53 * ulp x := by
  have hbits := (le_abs_self _).trans (roundHalfEven_bits hx.ne')
  rw [nearestBinary64_eq hx.ne']
  exact mul_le_mul_of_nonneg_right (by exact_mod_cast hbits) (ulp_pos x).le

/-- A number that is not negative is not rounded below zero, for zero is on the grid. -/
theorem nearestBinary64_nonneg {x : ℚ} (hx : 0 ≤ x) : 0 ≤ nearestBinary64 x := by
  rcases hx.eq_or_lt with rfl | hpos
  · rw [nearestBinary64_zero]
  · have hround : 0 ≤ roundHalfEven (x / ulp x) := by
      apply le_roundHalfEven
      simpa using (div_pos hpos (ulp_pos x)).le
    rw [nearestBinary64_eq hpos.ne']
    exact mul_nonneg (by exact_mod_cast hround) (ulp_pos x).le

/-- Different steps are a factor of two apart, and the larger one is that of a normal
number. -/
theorem two_mul_ulp_le {x y : ℚ} (hx : 0 < x) (hxy : x ≤ y) (h : ulp x ≠ ulp y) :
    2 * ulp x ≤ ulp y ∧ 2 ^ (-1022 : ℤ) ≤ y := by
  have hy : 0 < y := hx.trans_le hxy
  have hlog : Int.log 2 |x| ≤ Int.log 2 |y| := by
    rw [abs_of_pos hx, abs_of_pos hy]
    exact Int.log_mono_right hx hxy
  have hexp : Max.max (Int.log 2 |x|) (-1022) ≠ Max.max (Int.log 2 |y|) (-1022) := by
    intro heq
    apply h
    unfold ulp
    rw [heq]
  have hnormal : -1022 ≤ Int.log 2 |y| := by omega
  constructor
  · unfold ulp
    rw [← zpow_one_add₀ (by norm_num)]
    exact zpow_le_zpow_right₀ (by norm_num) (by omega)
  · rw [abs_of_pos hy] at hnormal
    exact (Int.zpow_le_iff_le_log (by norm_num) hy).mpr hnormal

/-- On the positive side: within one binade the grid is fixed and rounding to integers
is monotone, and between two binades the power of two separates the results. -/
theorem nearestBinary64_mono_pos {x y : ℚ} (hx : 0 < x) (h : x ≤ y) :
    nearestBinary64 x ≤ nearestBinary64 y := by
  have hy : 0 < y := hx.trans_le h
  by_cases hulp : ulp x = ulp y
  · rw [nearestBinary64_eq hx.ne', nearestBinary64_eq hy.ne', hulp]
    have hround := roundHalfEven_mono (div_le_div_of_nonneg_right h (ulp_pos y).le)
    exact mul_le_mul_of_nonneg_right (by exact_mod_cast hround) (ulp_pos y).le
  · -- a power of two lies between them
    obtain ⟨hdouble, hnormal⟩ := two_mul_ulp_le hx h hulp
    have hpower : (2 ^ 52 : ℤ) ≤ roundHalfEven (y / ulp y) := by
      apply le_roundHalfEven
      push_cast
      rw [le_div_iff₀ (ulp_pos y)]
      exact two_pow_mul_ulp_le hnormal
    calc nearestBinary64 x ≤ 2 ^ 53 * ulp x := nearestBinary64_le_power hx
      _ = 2 ^ 52 * (2 * ulp x) := by ring
      _ ≤ 2 ^ 52 * ulp y := mul_le_mul_of_nonneg_left hdouble (by norm_num)
      _ ≤ roundHalfEven (y / ulp y) * ulp y :=
        mul_le_mul_of_nonneg_right (by exact_mod_cast hpower) (ulp_pos y).le
      _ = nearestBinary64 y := (nearestBinary64_eq hy.ne').symm

/-- Rounding keeps the order everywhere; the negative side follows by symmetry. -/
theorem nearestBinary64_mono : Monotone nearestBinary64 := by
  intro x y h
  rcases lt_or_ge 0 x with hx | hx
  · exact nearestBinary64_mono_pos hx h
  · rcases lt_or_ge y 0 with hy | hy
    · have hneg := nearestBinary64_mono_pos (neg_pos.mpr hy) (neg_le_neg h)
      rw [nearestBinary64_neg, nearestBinary64_neg] at hneg
      exact neg_le_neg_iff.mp hneg
    · have hlow := nearestBinary64_nonneg (neg_nonneg.mpr hx)
      rw [nearestBinary64_neg] at hlow
      exact (neg_nonneg.mp hlow).trans (nearestBinary64_nonneg hy)

/-- What has 53 bits lies on its own grid. -/
theorem onGrid_self {m j : ℤ} (hm : |m| < 2 ^ 53) (hj : -1074 ≤ j) (hne : m ≠ 0) :
    OnGrid (m * 2 ^ j) (m * 2 ^ j) := by
  have hpow : (0 : ℚ) < 2 ^ j := zpow_pos (by norm_num) j
  have hlog : Int.log 2 |(m * 2 ^ j : ℚ)| < j + 53 := by
    have habs : |(m * 2 ^ j : ℚ)| = (|m| : ℤ) * 2 ^ j := by
      rw [abs_mul, abs_of_pos hpow, Int.cast_abs]
    have hpos : (0 : ℚ) < |(m * 2 ^ j : ℚ)| :=
      abs_pos.mpr (mul_ne_zero (by exact_mod_cast hne) hpow.ne')
    rw [← Int.lt_zpow_iff_log_lt (by norm_num) hpos, habs]
    calc ((|m| : ℤ) : ℚ) * 2 ^ j < 2 ^ 53 * 2 ^ j :=
          mul_lt_mul_of_pos_right (by exact_mod_cast hm) hpow
      _ = ((2 : ℕ) : ℚ) ^ (j + 53) := by
        push_cast
        rw [zpow_add₀ (by norm_num), mul_comm]
        norm_num
  obtain ⟨k, hk⟩ :
      ∃ k : ℕ, j = k + (Max.max (Int.log 2 |(m * 2 ^ j : ℚ)|) (-1022) - 52) :=
    ⟨(j - (Max.max (Int.log 2 |(m * 2 ^ j : ℚ)|) (-1022) - 52)).toNat, by omega⟩
  refine ⟨m * 2 ^ k, ?_⟩
  unfold ulp
  push_cast
  rw [mul_assoc, ← zpow_natCast, ← zpow_add₀ (by norm_num), ← hk]

/-- What has 53 bits, or is a power of two, is not rounded.  The power with one bit too
many is on the grid of the next binade. -/
theorem nearestBinary64_exact {m j : ℤ} (hm : |m| ≤ 2 ^ 53) (hj : -1074 ≤ j) :
    nearestBinary64 (m * 2 ^ j) = m * 2 ^ j := by
  have hpow : ∀ i : ℤ, (2 : ℚ) ^ i ≠ 0 := fun i => zpow_ne_zero i (by norm_num)
  have hself : ∀ {n i : ℤ}, |n| < 2 ^ 53 → -1074 ≤ i →
      nearestBinary64 (n * 2 ^ i) = n * 2 ^ i := by
    intro n i hn hi
    rcases eq_or_ne n 0 with rfl | hne
    · rw [Int.cast_zero, zero_mul, nearestBinary64_zero]
    · apply nearestBinary64_of_onGrid (mul_ne_zero (by exact_mod_cast hne) (hpow i))
        (onGrid_self hn hi hne)
      rw [sub_self, abs_zero]
      exact half_pos (ulp_pos _)
  rcases hm.lt_or_eq with hlt | heq
  · exact hself hlt hj
  · obtain ⟨n, rfl, hn⟩ : ∃ n : ℤ, m = 2 * n ∧ |n| < 2 ^ 53 := by
      rcases (abs_eq (by norm_num)).mp heq with rfl | rfl
      · exact ⟨2 ^ 52, by norm_num, by norm_num⟩
      · exact ⟨-2 ^ 52, by norm_num, by norm_num⟩
    have hshift : ((2 * n : ℤ) : ℚ) * 2 ^ j = n * 2 ^ (j + 1) := by
      rw [zpow_add_one₀ (by norm_num)]
      push_cast
      ring
    rw [hshift]
    exact hself hn (by omega)

/-- The multiples of the step around a number that do not pass the next power of two. -/
theorem nearestBinary64_multiple (x : ℚ) {m : ℤ} (hm : |m| ≤ 2 ^ 53) :
    nearestBinary64 (m * ulp x) = m * ulp x :=
  nearestBinary64_exact hm (by omega)

/-- What is rounded is on the grid and is not moved again. -/
theorem nearestBinary64_idem (x : ℚ) :
    nearestBinary64 (nearestBinary64 x) = nearestBinary64 x := by
  rcases eq_or_ne x 0 with rfl | hx
  · rw [nearestBinary64_zero, nearestBinary64_zero]
  · rw [nearestBinary64_eq hx]
    exact nearestBinary64_multiple x (roundHalfEven_bits hx)

/-- Below the least normal number the steps do not get smaller. -/
theorem ulp_of_small {x : ℚ} (hx : x ≠ 0) (h : |x| < 2 ^ (-1022 : ℤ)) :
    ulp x = 2 ^ (-1074 : ℤ) := by
  have hlog : Int.log 2 |x| < -1022 :=
    (Int.lt_zpow_iff_log_lt (by norm_num) (abs_pos.mpr hx)).mp (by exact_mod_cast h)
  unfold ulp
  rw [max_eq_right hlog.le]
  norm_num

/-- Half the least subnormal number is a tie. -/
theorem nearestBinary64_half_least : nearestBinary64 (2 ^ (-1074 : ℤ) / 2) = 0 := by
  have hpos : (0 : ℚ) < 2 ^ (-1074 : ℤ) / 2 := half_pos (zpow_pos (by norm_num) _)
  have hulp : ulp (2 ^ (-1074 : ℤ) / 2) = 2 ^ (-1074 : ℤ) := by
    apply ulp_of_small hpos.ne'
    rw [abs_of_pos hpos]
    calc (2 : ℚ) ^ (-1074 : ℤ) / 2 < 2 ^ (-1074 : ℤ) := half_lt_self (by positivity)
      _ ≤ 2 ^ (-1022 : ℤ) := zpow_le_zpow_right₀ (by norm_num) (by norm_num)
  have hround : roundHalfEven (2 ^ (-1074 : ℤ) / 2 / 2 ^ (-1074 : ℤ)) = 0 := by
    apply roundHalfEven_tie (by norm_num)
    rw [div_right_comm, div_self (by positivity)]
    norm_num
  rw [nearestBinary64_eq hpos.ne', hulp, hround]
  simp

/-- The half of a rounded number, rounded again, is not above the number.  If the first
rounding went up, the half is far below; the subnormal numbers need a look of their own. -/
theorem nearestBinary64_half {x : ℚ} (hx : 0 ≤ x) :
    nearestBinary64 (nearestBinary64 x / 2) ≤ x := by
  rcases hx.eq_or_lt with rfl | hpos
  · rw [nearestBinary64_zero, zero_div, nearestBinary64_zero]
  rcases le_or_gt (nearestBinary64 x) x with hdown | hup
  · have hnonneg := nearestBinary64_nonneg hx
    calc nearestBinary64 (nearestBinary64 x / 2) ≤ nearestBinary64 (nearestBinary64 x) :=
          nearestBinary64_mono (by linarith)
      _ = nearestBinary64 x := nearestBinary64_idem x
      _ ≤ x := hdown
  · have hstep := ulp_pos x
    have hbits := roundHalfEven_bits hpos.ne'
    have herror := (abs_le.mp (roundHalfEven_error (x / ulp x))).1
    rw [nearestBinary64_eq hpos.ne'] at hup ⊢
    generalize roundHalfEven (x / ulp x) = m at *
    have hm : 0 < m := by
      have hproduct : (0 : ℚ) < m * ulp x := hpos.trans hup
      exact_mod_cast (pos_iff_pos_of_mul_pos hproduct).mpr hstep
    -- the point of the grid below
    have hbelow : ((m - 1 : ℤ) : ℚ) * ulp x ≤ x := by
      rw [← le_div_iff₀ hstep]
      push_cast
      linarith
    rcases eq_or_ne m 1 with rfl | hne
    · have hsub : x < 2 ^ (-1022 : ℤ) := by
        by_contra hnormal
        have hlarge := two_pow_mul_ulp_le (not_lt.mp hnormal)
        push_cast at hup
        linarith
      have hleast : ulp x = 2 ^ (-1074 : ℤ) := by
        apply ulp_of_small hpos.ne'
        rwa [abs_of_pos hpos]
      rw [hleast, Int.cast_one, one_mul, nearestBinary64_half_least]
      exact hx
    · have htwo : (2 : ℚ) ≤ m := by exact_mod_cast (by omega : 2 ≤ m)
      have hhalf : (m * ulp x) / 2 ≤ ((m - 1 : ℤ) : ℚ) * ulp x := by
        push_cast
        nlinarith
      have hexact : nearestBinary64 (((m - 1 : ℤ) : ℚ) * ulp x) = ((m - 1 : ℤ) : ℚ) * ulp x := by
        apply nearestBinary64_multiple
        rw [abs_of_nonneg (by omega)]
        have hle := (le_abs_self m).trans hbits
        omega
      calc nearestBinary64 (m * ulp x / 2) ≤ nearestBinary64 (((m - 1 : ℤ) : ℚ) * ulp x) :=
            nearestBinary64_mono hhalf
        _ = ((m - 1 : ℤ) : ℚ) * ulp x := hexact
        _ ≤ x := hbelow

/-- The error of rounding is relative, but for subnormal numbers, where it is half of
the smallest step. -/
theorem nearestBinary64_error_max (x : ℚ) :
    |nearestBinary64 x - x| ≤ Max.max (2 ^ (-53 : ℤ) * |x|) (2 ^ (-1075 : ℤ)) := by
  rcases eq_or_ne x 0 with rfl | hx
  · rw [nearestBinary64_zero, sub_self, abs_zero]
    exact le_max_of_le_right (by positivity)
  rw [abs_sub_comm]
  refine (nearestBinary64_error x).trans ?_
  rcases le_or_gt (2 ^ (-1022 : ℤ)) |x| with hnormal | hsub
  · apply le_max_of_le_left
    have hbits := two_pow_mul_ulp_le hnormal
    have hulp : ulp |x| = ulp x := by
      unfold ulp
      rw [abs_abs]
    have hunit : (2 : ℚ) ^ (-53 : ℤ) = 1 / 2 ^ 53 := by norm_num
    rw [hulp] at hbits
    rw [hunit, one_div, inv_mul_eq_div, div_le_div_iff₀ two_pos (by norm_num)]
    linarith
  · apply le_max_of_le_right
    rw [ulp_of_small hx hsub, show (-1074 : ℤ) = -1075 + 1 by norm_num,
      zpow_add_one₀ (by norm_num), mul_div_cancel_right₀ _ (by norm_num)]

theorem nearestBinary64_one : nearestBinary64 1 = 1 := by
  simpa using nearestBinary64_exact (m := 1) (j := 0) (by norm_num) (by norm_num)

theorem nearestBinary64_two : nearestBinary64 2 = 2 := by
  simpa using nearestBinary64_exact (m := 2) (j := 0) (by norm_num) (by norm_num)

/-- The relative error is small enough for a `Rounding`. -/
theorem unit_le : (2 : ℚ) ^ (-53 : ℤ) ≤ 1 / 16 := by norm_num

theorem subnormal_nonneg : (0 : ℚ) ≤ 2 ^ (-1075 : ℤ) := by positivity

/-- The absolute error of underflow is not above the relative one, as a `Rounding` has it. -/
theorem subnormal_le_unit : (2 : ℚ) ^ (-1075 : ℤ) ≤ 2 ^ (-53 : ℤ) :=
  zpow_le_zpow_right₀ (by norm_num) (by norm_num)

/-- Binary64, without a bound on the exponent. -/
def binary64 : Rounding ℚ where
  fl := nearestBinary64
  unit := 2 ^ (-53 : ℤ)
  tiny := 2 ^ (-1075 : ℤ)
  mono := nearestBinary64_mono
  idem := nearestBinary64_idem
  neg := nearestBinary64_neg
  one := nearestBinary64_one
  two := nearestBinary64_two
  error := nearestBinary64_error_max
  half := fun _ hx => nearestBinary64_half hx
  unit_small := unit_le
  tiny_nonneg := subnormal_nonneg
  tiny_le := subnormal_le_unit

/-! ## Float operations -/

/-- The float that an operation returns for its exact result. -/
def rounded : PyFloat → PyFloat
  | finite q => ofDecimal q
  | x => x

/-- Python's `x / n`: the integer becomes a float first. -/
def divRounded : PyFloat → ℕ → PyFloat
  | finite q, n => ofDecimal (q / nearestBinary64 n)
  | x, _ => x

/-- Below the limit of overflow the float of a decimal is finite, and it is the rounded
number. -/
theorem ofDecimal_of_lt {q : ℚ} (h : |q| < binary64Limit) : ofDecimal q = finite (binary64.fl q) :=
  if_neg (not_le.mpr h)

/-- Only a finite float has a finite rounding: neither NaN nor an infinity becomes a
number. -/
theorem rounded_finite {x : PyFloat} {q : ℚ} (h : x.rounded = finite q) : ∃ p, x = finite p := by
  cases x with
  | finite p => exact ⟨p, rfl⟩
  | _ => cases h

/-- Up to half the step beyond it a sum is rounded away. -/
theorem IsBinary64.absorbs {q y : ℚ} (h : IsBinary64 q) (hq : 0 < q) (hy : 0 ≤ y)
    (hclose : y < ulp q / 2) : binary64.fl (q + y) = q :=
  nearestBinary64_above h hq (by linarith) (by linarith)

/-- A binary32 number is on the grid of binary64, so rounding leaves it alone. -/
theorem IsBinary32.representable {q : ℚ} (h : IsBinary32 q) : binary64.Representable q := by
  obtain ⟨m, j, hm, hlow, -, rfl⟩ := h
  exact nearestBinary64_exact (hm.le.trans (by norm_num)) (by omega)

/-- The size of a binary32 number, far below the overflow of binary64. -/
theorem IsBinary32.abs_le {q : ℚ} (h : IsBinary32 q) : |q| ≤ 2 ^ 128 := by
  obtain ⟨m, j, hm, -, hhigh, rfl⟩ := h
  have hpow : (0 : ℚ) < 2 ^ j := zpow_pos (by norm_num) j
  have hm24 : |(m : ℚ)| ≤ 2 ^ 24 := by exact_mod_cast hm.le
  have hj : (2 : ℚ) ^ j ≤ 2 ^ 104 := by
    rw [← zpow_natCast]
    exact zpow_le_zpow_right₀ (by norm_num) hhigh
  calc |(m : ℚ) * 2 ^ j| = |(m : ℚ)| * 2 ^ j := by rw [abs_mul, abs_of_pos hpow]
    _ ≤ 2 ^ 24 * 2 ^ 104 := mul_le_mul hm24 hj hpow.le (by positivity)
    _ = 2 ^ 128 := by norm_num

end PyFloat

import Mathlib.Algebra.Order.Field.Power
import Mathlib.Tactic.FieldSimp
import Mathlib.Tactic.Linarith
import Mathlib.Tactic.NormNum
import Mathlib.Tactic.Positivity
import Mathlib.Tactic.Ring
import OrderPipeline.Foundation.PyFloat

/-!
# Rounding to binary64

What `nearestBinary64` does near a binary64 number, subnormal or not.  Such a number
lies on the grid of everything below it (`IsBinary64.onGrid`) and of half a step above
(`nearestBinary64_above`).  So what is close enough to it rounds to it
(`nearestBinary64_of_close`), with a smaller number that rounds to it so does
everything in between (`nearestBinary64_between`), and everything nearer on the other
side (`nearestBinary64_mirror`).

What rounds to a finite number lies within the range, and within the range everything
rounds to a finite number (`lt_limit_of_rounds`, `nearestBinary64_isBinary64`).  A count
by ones stops where it meets the first tie (`nearestBinary64_count`).
-/

namespace PyFloat

/-! ## Rounding to an integer -/

/-- Rounding to an integer moves a number by at most a half. -/
theorem roundHalfEven_error (x : ℚ) : |x - roundHalfEven x| ≤ 1 / 2 := by
  have hlow := Int.floor_le x
  have hhigh := Int.lt_floor_add_one x
  unfold roundHalfEven
  split
  · rw [abs_le]
    constructor <;> linarith
  · split
    · rw [abs_le]
      push_cast
      constructor <;> linarith
    · split
      · rw [abs_le]
        constructor <;> linarith
      · rw [abs_le]
        push_cast
        constructor <;> linarith

/-- What is nearer than a half rounds to the integer. -/
theorem roundHalfEven_eq {x : ℚ} {n : ℤ} (h : |x - n| < 1 / 2) : roundHalfEven x = n := by
  have herror := roundHalfEven_error x
  have hdist : |((roundHalfEven x - n : ℤ) : ℚ)| < 1 := by
    push_cast
    rw [abs_le] at herror
    rw [abs_lt] at h ⊢
    constructor <;> linarith
  have hint : |roundHalfEven x - n| < 1 := by exact_mod_cast hdist
  exact sub_eq_zero.mp (Int.abs_lt_one_iff.mp hint)

/-- Rounding does not go below an integer. -/
theorem le_roundHalfEven {x : ℚ} {n : ℤ} (h : (n : ℚ) ≤ x) : n ≤ roundHalfEven x := by
  obtain ⟨-, hhigh⟩ := abs_le.mp (roundHalfEven_error x)
  have hlt : (n : ℚ) < ((roundHalfEven x + 1 : ℤ) : ℚ) := by
    push_cast
    linarith
  exact Int.lt_add_one_iff.mp (by exact_mod_cast hlt)

/-- Nor above one. -/
theorem roundHalfEven_le {x : ℚ} {n : ℤ} (h : x ≤ n) : roundHalfEven x ≤ n := by
  obtain ⟨hlow, -⟩ := abs_le.mp (roundHalfEven_error x)
  have hlt : (roundHalfEven x : ℚ) < ((n + 1 : ℤ) : ℚ) := by
    push_cast
    linarith
  exact Int.lt_add_one_iff.mp (by exact_mod_cast hlt)

/-- A tie goes to the even neighbour. -/
theorem roundHalfEven_tie {x : ℚ} {n : ℤ} (hn : n % 2 = 0) (h : |x - n| = 1 / 2) :
    roundHalfEven x = n := by
  rcases (abs_eq (by norm_num)).mp h with habove | hbelow
  · have hfloor : ⌊x⌋ = n := Int.floor_eq_iff.mpr ⟨by linarith, by linarith⟩
    unfold roundHalfEven
    rw [hfloor, habove, if_neg (lt_irrefl _), if_neg (lt_irrefl _), if_pos hn]
  · have hfloor : ⌊x⌋ = n - 1 :=
      Int.floor_eq_iff.mpr ⟨by push_cast; linarith, by push_cast; linarith⟩
    have hfrac : x - ((n - 1 : ℤ) : ℚ) = 1 / 2 := by
      push_cast
      linarith
    unfold roundHalfEven
    rw [hfloor, hfrac, if_neg (lt_irrefl _), if_neg (lt_irrefl _), if_neg (by omega)]
    omega

/-- In the middle between two integers the even one is taken. -/
theorem even_of_roundHalfEven_tie {x : ℚ} (h : |x - roundHalfEven x| = 1 / 2) :
    roundHalfEven x % 2 = 0 := by
  have hlow := Int.floor_le x
  have hhigh := Int.lt_floor_add_one x
  unfold roundHalfEven at h ⊢
  split at h
  · rw [abs_of_nonneg (by linarith)] at h
    linarith
  · next hge =>
    rw [if_neg hge]
    split at h
    · rw [abs_of_nonpos (by push_cast; linarith)] at h
      push_cast at h
      linarith
    · next hle =>
      rw [if_neg hle]
      split
      · assumption
      · omega

/-- Rounding is symmetric about zero. -/
theorem roundHalfEven_neg (x : ℚ) : roundHalfEven (-x) = -roundHalfEven x := by
  have hdist : |-x - ((-roundHalfEven x : ℤ) : ℚ)| = |x - roundHalfEven x| := by
    rw [← abs_neg]
    congr 1
    push_cast
    ring
  rcases (roundHalfEven_error x).lt_or_eq with hlt | htie
  · exact roundHalfEven_eq (hdist.trans_lt hlt)
  · have heven := even_of_roundHalfEven_tie htie
    exact roundHalfEven_tie (by omega) (hdist.trans htie)

/-! ## The binary64 grid -/

/-- The distance of neighbouring binary64 numbers around `x`. -/
def ulp (x : ℚ) : ℚ := 2 ^ (Max.max (Int.log 2 |x|) (-1022) - 52)

/-- The unit in the last place is a power of two, so it is positive; for zero and for
all small numbers it is the smallest subnormal. -/
theorem ulp_pos (x : ℚ) : 0 < ulp x := zpow_pos (by norm_num) _

theorem nearestBinary64_zero : nearestBinary64 0 = 0 := if_pos rfl

/-- Rounding is done in units of the last place: scale, round to an integer, scale back. -/
theorem nearestBinary64_eq {x : ℚ} (hx : x ≠ 0) :
    nearestBinary64 x = roundHalfEven (x / ulp x) * ulp x := if_neg hx

/-- Rounding to nearest is symmetric; ties to even do not prefer a sign. -/
theorem nearestBinary64_neg (x : ℚ) : nearestBinary64 (-x) = -nearestBinary64 x := by
  by_cases hx : x = 0
  · rw [hx, neg_zero, nearestBinary64_zero, neg_zero]
  · have hulp : ulp (-x) = ulp x := by
      unfold ulp
      rw [abs_neg]
    rw [nearestBinary64_eq hx, nearestBinary64_eq (neg_ne_zero.mpr hx), hulp, neg_div,
      roundHalfEven_neg]
    push_cast
    ring

/-- A number rounds by at most half the distance of its neighbours. -/
theorem nearestBinary64_error (x : ℚ) : |x - nearestBinary64 x| ≤ ulp x / 2 := by
  have hpos := ulp_pos x
  by_cases hx : x = 0
  · rw [hx, nearestBinary64_zero, sub_zero, abs_zero]
    exact (half_pos (ulp_pos 0)).le
  · have hscale : x - nearestBinary64 x = (x / ulp x - roundHalfEven (x / ulp x)) * ulp x := by
      rw [nearestBinary64_eq hx, sub_mul, div_mul_cancel₀ _ hpos.ne']
    rw [hscale, abs_mul, abs_of_pos hpos]
    calc |x / ulp x - roundHalfEven (x / ulp x)| * ulp x
        ≤ 1 / 2 * ulp x := mul_le_mul_of_nonneg_right (roundHalfEven_error _) hpos.le
      _ = ulp x / 2 := by ring

/-- `q` is a multiple of the distance of neighbours around `x`. -/
def OnGrid (q x : ℚ) : Prop := ∃ m : ℤ, q = m * ulp x

/-- A point of the grid is what everything nearer than half a step rounds to. -/
theorem nearestBinary64_of_onGrid {q x : ℚ} (hx : x ≠ 0) (hgrid : OnGrid q x)
    (h : |x - q| < ulp x / 2) : nearestBinary64 x = q := by
  obtain ⟨m, hm⟩ := hgrid
  have hpos := ulp_pos x
  have hround : roundHalfEven (x / ulp x) = m := by
    apply roundHalfEven_eq
    have hscale : x / ulp x - m = (x - q) / ulp x := by
      rw [hm, sub_div, mul_div_cancel_right₀ _ hpos.ne']
    rw [hscale, abs_div, abs_of_pos hpos, div_lt_iff₀ hpos]
    linarith
  rw [nearestBinary64_eq hx, hround, hm]

/-- A larger number has no finer grid. -/
theorem ulp_mono {x y : ℚ} (hx : 0 < x) (hxy : x ≤ y) : ulp x ≤ ulp y := by
  have hlog : Int.log 2 |x| ≤ Int.log 2 |y| := by
    rw [abs_of_pos hx, abs_of_pos (hx.trans_le hxy)]
    exact Int.log_mono_right hx hxy
  apply zpow_le_zpow_right₀ (by norm_num)
  omega

/-- A number has at most 53 bits before the step of its neighbours. -/
theorem lt_two_pow_mul_ulp {x : ℚ} (hx : 0 < x) : x < 2 ^ 53 * ulp x := by
  have hhigh := Int.lt_zpow_succ_log_self (b := 2) (by norm_num) x
  unfold ulp
  rw [abs_of_pos hx]
  calc x < (2 : ℚ) ^ (Int.log 2 x + 1) := by exact_mod_cast hhigh
    _ ≤ 2 ^ (53 + (Max.max (Int.log 2 x) (-1022) - 52)) :=
      zpow_le_zpow_right₀ (by norm_num) (by omega)
    _ = 2 ^ 53 * 2 ^ (Max.max (Int.log 2 x) (-1022) - 52) := by
      rw [zpow_add₀ (by norm_num)]
      norm_num

/-- Below the 53 bits of another number the steps are no larger. -/
theorem ulp_le_of_lt {x q : ℚ} (hx : 0 < x) (h : x < 2 ^ 53 * ulp q) : ulp x ≤ ulp q := by
  unfold ulp at h ⊢
  have hpow : (2 : ℚ) ^ 53 * 2 ^ (Max.max (Int.log 2 |q|) (-1022) - 52) =
      ((2 : ℕ) : ℚ) ^ (Max.max (Int.log 2 |q|) (-1022) + 1) := by
    push_cast
    rw [← zpow_natCast, ← zpow_add₀ (by norm_num)]
    congr 1
    push_cast
    ring
  rw [hpow, Int.lt_zpow_iff_log_lt (by norm_num) hx] at h
  rw [abs_of_pos hx]
  exact zpow_le_zpow_right₀ (by norm_num) (by omega)

/-- In the normal range a number has all 53 bits. -/
theorem two_pow_mul_ulp_le {x : ℚ} (hx : 2 ^ (-1022 : ℤ) ≤ x) : 2 ^ 52 * ulp x ≤ x := by
  have hpos : 0 < x := lt_of_lt_of_le (zpow_pos (by norm_num) _) hx
  have hlog : -1022 ≤ Int.log 2 x := by
    rw [← Int.zpow_le_iff_le_log (by norm_num) hpos]
    exact_mod_cast hx
  have hlow := Int.zpow_log_le_self (b := 2) (by norm_num) hpos
  unfold ulp
  rw [abs_of_pos hpos, max_eq_left hlog]
  calc (2 : ℚ) ^ 52 * 2 ^ (Int.log 2 x - 52) = 2 ^ Int.log 2 x := by
        rw [← zpow_natCast, ← zpow_add₀ (by norm_num)]
        congr 1
        push_cast
        ring
    _ ≤ x := by exact_mod_cast hlow

/-! ## Binary64 and binary32 numbers -/

/-- A finite binary64 number: 53 bits of significand, the least exponent `-1074`. -/
def IsBinary64 (q : ℚ) : Prop :=
  ∃ m j : ℤ, |m| < 2 ^ 53 ∧ -1074 ≤ j ∧ j ≤ 971 ∧ q = m * 2 ^ j

/-- A finite binary32 number: 24 bits of significand, the least exponent `-149`. -/
def IsBinary32 (q : ℚ) : Prop :=
  ∃ m j : ℤ, |m| < 2 ^ 24 ∧ -149 ≤ j ∧ j ≤ 104 ∧ q = m * 2 ^ j

/-- Every binary32 number is a binary64 number: its 24 bits fit into 53, and its
exponents into the wider range. -/
theorem IsBinary32.isBinary64 {q : ℚ} (h : IsBinary32 q) : IsBinary64 q := by
  obtain ⟨m, j, hm, hlow, hhigh, hq⟩ := h
  exact ⟨m, j, hm.trans (by norm_num), by omega, by omega, hq⟩

/-- The sign is a bit of its own, so the negation of a binary64 number is one. -/
theorem IsBinary64.neg {q : ℚ} (h : IsBinary64 q) : IsBinary64 (-q) := by
  obtain ⟨m, j, hm, hlow, hhigh, rfl⟩ := h
  refine ⟨-m, j, by rwa [abs_neg], hlow, hhigh, ?_⟩
  push_cast
  ring

/-- And so is its absolute value. -/
theorem IsBinary64.abs {q : ℚ} (h : IsBinary64 q) : IsBinary64 |q| := by
  rcases abs_choice q with habs | habs
  · rwa [habs]
  · rw [habs]
    exact h.neg

/-- A positive binary64 number is at least the least subnormal one. -/
theorem IsBinary64.least_le {q : ℚ} (h : IsBinary64 q) (hq : 0 < q) : 2 ^ (-1074 : ℤ) ≤ q := by
  obtain ⟨m, j, hm, hlow, hhigh, rfl⟩ := h
  have hpow : (0 : ℚ) < 2 ^ j := zpow_pos (by norm_num) j
  have hmpos : 0 < m := by exact_mod_cast (pos_iff_pos_of_mul_pos hq).mpr hpow
  have hm1 : (1 : ℚ) ≤ m := by exact_mod_cast hmpos
  calc (2 : ℚ) ^ (-1074 : ℤ) ≤ 2 ^ j := zpow_le_zpow_right₀ (by norm_num) hlow
    _ ≤ m * 2 ^ j := le_mul_of_one_le_left hpow.le hm1

/-- A binary64 number lies on the grid of every number up to it: its own grid is no
coarser than it has to be, and the grids are nested. -/
theorem IsBinary64.onGrid {q x : ℚ} (h : IsBinary64 q) (hx : 0 < x) (hxq : x ≤ q) :
    OnGrid q x := by
  obtain ⟨m, j, hm, hlow, hhigh, rfl⟩ := h
  have hpow : (0 : ℚ) < 2 ^ j := zpow_pos (by norm_num) j
  have hm53 : (m : ℚ) < 2 ^ 53 := by exact_mod_cast (le_abs_self m).trans_lt hm
  have hlog : Int.log 2 |x| < j + 53 := by
    rw [abs_of_pos hx, ← Int.lt_zpow_iff_log_lt (by norm_num) hx]
    calc x ≤ m * 2 ^ j := hxq
      _ < 2 ^ 53 * 2 ^ j := mul_lt_mul_of_pos_right hm53 hpow
      _ = ((2 : ℕ) : ℚ) ^ (j + 53) := by
        push_cast
        rw [zpow_add₀ (by norm_num), mul_comm]
        norm_num
  -- the step of the grid is a power of two that divides that of `q`
  obtain ⟨k, hk⟩ : ∃ k : ℕ, j = k + (Max.max (Int.log 2 |x|) (-1022) - 52) :=
    ⟨(j - (Max.max (Int.log 2 |x|) (-1022) - 52)).toNat, by omega⟩
  refine ⟨m * 2 ^ k, ?_⟩
  unfold ulp
  push_cast
  rw [mul_assoc, ← zpow_natCast, ← zpow_add₀ (by norm_num), ← hk]

/-- Less than half a step above a binary64 number everything rounds to it. -/
theorem nearestBinary64_above {q y : ℚ} (h : IsBinary64 q) (hq : 0 < q) (hqy : q ≤ y)
    (hclose : y - q < ulp q / 2) : nearestBinary64 y = q := by
  have hy : 0 < y := hq.trans_le hqy
  have hstep := ulp_pos q
  obtain ⟨m, hm⟩ := h.onGrid hq le_rfl
  have hbits := lt_two_pow_mul_ulp hq
  -- the next point of the grid of `q` is at most the next power of two
  have hnext : m + 1 ≤ (2 ^ 53 : ℤ) := by
    have hlt : (m : ℚ) < 2 ^ 53 := lt_of_mul_lt_mul_right (hm.symm.trans_lt hbits) hstep.le
    exact_mod_cast hlt
  have hupper : y < 2 ^ 53 * ulp q := by
    have hle : ((m : ℚ) + 1) * ulp q ≤ 2 ^ 53 * ulp q :=
      mul_le_mul_of_nonneg_right (by exact_mod_cast hnext) hstep.le
    linarith
  have hulp : ulp y = ulp q := le_antisymm (ulp_le_of_lt hy hupper) (ulp_mono hq hqy)
  apply nearestBinary64_of_onGrid hy.ne' ⟨m, by rw [hulp]; exact hm⟩
  rwa [hulp, abs_of_nonneg (sub_nonneg.mpr hqy)]

/-- What is within the seventeenth digit of a binary64 number rounds to it. -/
theorem nearestBinary64_of_close {q x : ℚ} (h : IsBinary64 q) (hq : 0 < q)
    (hclose : |x - q| ≤ q / (2 * 10 ^ 16)) : nearestBinary64 x = q := by
  obtain ⟨hlow, hhigh⟩ := abs_le.mp hclose
  have hx : 0 < x := by linarith
  rcases le_total q x with hqx | hxq
  · apply nearestBinary64_above h hq hqx
    have hbits := lt_two_pow_mul_ulp hq
    linarith
  · apply nearestBinary64_of_onGrid hx.ne' (h.onGrid hx hxq)
    have hbits := lt_two_pow_mul_ulp hx
    rw [abs_of_nonpos (by linarith)]
    linarith

/-- Between a smaller number that rounds to `q` and `q` everything rounds to `q`. -/
theorem nearestBinary64_between {q x y : ℚ} (h : IsBinary64 q) (hx : 0 < x)
    (hround : nearestBinary64 x = q) (hxy : x ≤ y) (hyq : y ≤ q) :
    nearestBinary64 y = q := by
  rcases hxy.lt_or_eq with hlt | rfl
  · have hy : 0 < y := hx.trans hlt
    have herror := nearestBinary64_error x
    rw [hround, abs_of_nonpos (by linarith)] at herror
    apply nearestBinary64_of_onGrid hy.ne' (h.onGrid hy hyq)
    rw [abs_of_nonpos (by linarith)]
    linarith [ulp_mono hx hxy]
  · exact hround

/-- If a smaller number rounds to `q`, so does every nearer one above `q`. -/
theorem nearestBinary64_mirror {q x y : ℚ} (h : IsBinary64 q) (hx : 0 < x)
    (hround : nearestBinary64 x = q) (hxq : x ≤ q) (hqy : q ≤ y) (hnear : y - q < q - x) :
    nearestBinary64 y = q := by
  have hq : 0 < q := hx.trans_le hxq
  have herror := nearestBinary64_error x
  rw [hround, abs_of_nonpos (by linarith)] at herror
  apply nearestBinary64_above h hq hqy
  linarith [ulp_mono hx hxq]

/-! ## The range -/

/-- The limit lies half a step above the largest binary64 number. -/
theorem binary64Limit_eq : binary64Limit = (2 ^ 53 - 1 / 2) * 2 ^ 971 := by
  unfold binary64Limit
  rw [show (1024 : ℕ) = 54 + 970 from rfl, show (971 : ℕ) = 1 + 970 from rfl, pow_add, pow_add]
  generalize (2 : ℚ) ^ 970 = unit
  ring

/-- No finite binary64 number is above the one with all 53 bits set at the largest
exponent. -/
theorem IsBinary64.le_largest {q : ℚ} (h : IsBinary64 q) : q ≤ (2 ^ 53 - 1) * 2 ^ 971 := by
  obtain ⟨m, j, hm, hlow, hhigh, rfl⟩ := h
  have hpow : (0 : ℚ) < 2 ^ j := zpow_pos (by norm_num) j
  have hle : m ≤ 2 ^ 53 - 1 := by
    have := (le_abs_self m).trans_lt hm
    omega
  calc (m : ℚ) * 2 ^ j ≤ (2 ^ 53 - 1) * 2 ^ j :=
        mul_le_mul_of_nonneg_right (by exact_mod_cast hle) hpow.le
    _ ≤ (2 ^ 53 - 1) * 2 ^ (971 : ℤ) :=
        mul_le_mul_of_nonneg_left (zpow_le_zpow_right₀ (by norm_num) hhigh) (by norm_num)
    _ = (2 ^ 53 - 1) * 2 ^ 971 := rfl

/-- Rounding keeps the 53 bits, or reaches the next power of two. -/
theorem roundHalfEven_bits {x : ℚ} (hx : x ≠ 0) : |roundHalfEven (x / ulp x)| ≤ 2 ^ 53 := by
  have hstep := ulp_pos x
  have hulp : ulp |x| = ulp x := by
    unfold ulp
    rw [abs_abs]
  have hbits : |x / ulp x| < 2 ^ 53 := by
    have hlt := lt_two_pow_mul_ulp (abs_pos.mpr hx)
    rw [hulp, ← div_lt_iff₀ hstep] at hlt
    rwa [abs_div, abs_of_pos hstep]
  obtain ⟨hlow, hhigh⟩ := abs_lt.mp hbits
  rw [abs_le]
  constructor
  · apply le_roundHalfEven
    push_cast
    exact hlow.le
  · apply roundHalfEven_le
    push_cast
    exact hhigh.le

/-- Below the limit of the range a number rounds to a binary64 number.  The significand
has 53 bits, or it is the next power of two, which is carried to the exponent. -/
theorem nearestBinary64_isBinary64 {x : ℚ} (hx : |x| < binary64Limit) :
    IsBinary64 (nearestBinary64 x) := by
  rcases eq_or_ne x 0 with rfl | hne
  · rw [nearestBinary64_zero]
    exact ⟨0, 0, by norm_num, by norm_num, by norm_num, by norm_num⟩
  have habs : 0 < |x| := abs_pos.mpr hne
  have hlog : Int.log 2 |x| < 1024 := by
    rw [← Int.lt_zpow_iff_log_lt (by norm_num) habs]
    refine hx.trans ?_
    exact sub_lt_self _ (pow_pos (by norm_num) 970)
  have hbits := roundHalfEven_bits hne
  have herror := roundHalfEven_error (x / ulp x)
  rw [nearestBinary64_eq hne]
  generalize roundHalfEven (x / ulp x) = r at hbits herror
  rcases hbits.lt_or_eq with hlt | heq
  · exact ⟨r, Max.max (Int.log 2 |x|) (-1022) - 52, hlt, by omega, by omega, rfl⟩
  · -- in the last binade the next power of two is beyond the limit
    have hinner : Int.log 2 |x| < 1023 := by
      by_contra hlast
      have hulp : ulp x = 2 ^ 971 := by
        unfold ulp
        rw [show Max.max (Int.log 2 |x|) (-1022) - 52 = ((971 : ℕ) : ℤ) by omega, zpow_natCast]
      have hpos : (0 : ℚ) < 2 ^ 971 := by positivity
      have hscaled : |x / ulp x| < 2 ^ 53 - 1 / 2 := by
        rw [abs_div, abs_of_pos (ulp_pos x), div_lt_iff₀ (ulp_pos x), hulp, ← binary64Limit_eq]
        exact hx
      have hcast : |(r : ℚ)| = 2 ^ 53 := by exact_mod_cast heq
      have htriangle : |(r : ℚ)| ≤ |x / ulp x| + |x / ulp x - r| := by
        rw [← abs_neg (x / ulp x - r)]
        calc |(r : ℚ)| = |x / ulp x + -(x / ulp x - r)| := by ring_nf
          _ ≤ _ := abs_add_le _ _
      linarith
    obtain ⟨s, rfl⟩ : ∃ s, r = 2 * s := by
      rcases (abs_eq (by norm_num)).mp heq with h | h
      · exact ⟨2 ^ 52, by omega⟩
      · exact ⟨-2 ^ 52, by omega⟩
    refine ⟨s, Max.max (Int.log 2 |x|) (-1022) - 52 + 1, ?_, by omega, by omega, ?_⟩
    · rw [abs_mul] at heq
      norm_num at heq ⊢
      omega
    · unfold ulp
      rw [zpow_add_one₀ (by norm_num)]
      push_cast
      ring

/-- What rounds to a binary64 number is below the limit.  Beyond it the unit in the last
place is so large that the rounding stays above the largest number. -/
theorem lt_limit_of_rounds {q x : ℚ} (h : IsBinary64 q) (hx : 0 < x)
    (hround : nearestBinary64 x = q) : x < binary64Limit := by
  have hq := h.le_largest
  by_contra hge
  rw [not_lt, binary64Limit_eq] at hge
  have hunit : (0 : ℚ) < 2 ^ 971 := pow_pos (by norm_num) 971
  have hbits := lt_two_pow_mul_ulp hx
  have herror := abs_le.mp (roundHalfEven_error (x / ulp x))
  rw [nearestBinary64_eq hx.ne'] at hround
  obtain ⟨g, hg⟩ : ∃ g : ℤ, ulp x = 2 ^ g := ⟨_, rfl⟩
  have hpower : ∀ {i j : ℤ}, i ≤ j → (2 : ℚ) ^ i ≤ 2 ^ j :=
    fun hle => zpow_le_zpow_right₀ (by norm_num) hle
  have hstep := ulp_pos x
  rcases lt_trichotomy g 971 with hlt | rfl | hgt
  · have hle : ulp x ≤ 2 ^ (970 : ℤ) := by
      rw [hg]
      exact hpower (by omega)
    have htwo : (2 : ℚ) ^ 971 = 2 * 2 ^ (970 : ℤ) := by
      rw [← zpow_natCast, ← zpow_one_add₀ (by norm_num)]
      norm_num
    generalize (2 : ℚ) ^ 971 = unit at *
    generalize (2 : ℚ) ^ (970 : ℤ) = half at *
    linarith
  · -- the limit is a tie, which goes to the even side
    have hulp : ulp x = 2 ^ 971 := hg
    have hodd : roundHalfEven (x / ulp x) ≤ 2 ^ 53 - 1 := by
      have hle : (roundHalfEven (x / ulp x) : ℚ) ≤ 2 ^ 53 - 1 := by
        apply le_of_mul_le_mul_right _ hunit
        rw [← hulp, hround, hulp]
        exact hq
      exact_mod_cast hle
    have htie : 2 ^ 53 - 1 / 2 ≤ x / ulp x := by
      rw [le_div_iff₀ hstep, hulp]
      exact hge
    have hcast : (roundHalfEven (x / ulp x) : ℚ) ≤ 2 ^ 53 - 1 := by exact_mod_cast hodd
    have heven := even_of_roundHalfEven_tie (x := x / ulp x)
      (by rw [abs_of_nonneg] <;> linarith)
    have hlast : (2 ^ 53 - 1 : ℚ) ≤ roundHalfEven (x / ulp x) := by linarith
    have hint : (2 ^ 53 - 1 : ℤ) ≤ roundHalfEven (x / ulp x) := by exact_mod_cast hlast
    omega
  · have hnormal : (2 : ℚ) ^ (-1022 : ℤ) ≤ x := by
      have hone : (2 : ℚ) ^ (-1022 : ℤ) ≤ 2 ^ 971 := by
        rw [← zpow_natCast (2 : ℚ) 971]
        exact hpower (by decide)
      generalize (2 : ℚ) ^ (-1022 : ℤ) = least at *
      generalize (2 : ℚ) ^ 971 = unit at *
      linarith
    have hlow := two_pow_mul_ulp_le hnormal
    have hr : (2 ^ 52 : ℚ) ≤ roundHalfEven (x / ulp x) := by
      have hint : (2 ^ 52 : ℤ) ≤ roundHalfEven (x / ulp x) := by
        apply le_roundHalfEven
        push_cast
        rwa [le_div_iff₀ hstep]
      exact_mod_cast hint
    have hdouble : 2 * (2 : ℚ) ^ 971 ≤ ulp x := by
      rw [hg, ← zpow_natCast, ← zpow_one_add₀ (by norm_num)]
      exact hpower (by omega)
    have hbeyond : (2 ^ 52 : ℚ) * (2 * 2 ^ 971) ≤ roundHalfEven (x / ulp x) * ulp x :=
      mul_le_mul hr hdouble (by positivity) (by linarith)
    rw [hround] at hbeyond
    generalize (2 : ℚ) ^ 971 = unit at *
    linarith

/-! ## Reading a decimal -/

/-- The float that a decimal number is read as, `float(text)`: the nearest one, or an
infinity from the limit of the range on. -/
def ofDecimal (d : ℚ) : PyFloat :=
  if binary64Limit ≤ |d| then (if d < 0 then negInf else posInf)
  else finite (nearestBinary64 d)

theorem ofDecimal_zero : ofDecimal 0 = finite 0 := by
  have hlimit : (0 : ℚ) < binary64Limit :=
    (pow_pos (by norm_num) 0).trans (two_pow_lt_limit (n := 0) (by decide))
  rw [ofDecimal, abs_zero, if_neg (not_le.mpr hlimit), nearestBinary64_zero]

/-- What is read as a finite float is a binary64 number. -/
theorem isBinary64_of_ofDecimal {d q : ℚ} (h : ofDecimal d = finite q) : IsBinary64 q := by
  unfold ofDecimal at h
  split at h
  · split at h <;> cases h
  · next hlimit =>
    obtain rfl := finite.inj h
    exact nearestBinary64_isBinary64 (not_le.mp hlimit)

/-- What rounds to a binary64 number is read as it, with either sign. -/
theorem ofDecimal_of_rounds {q x : ℚ} (h : IsBinary64 q) (hx : 0 < x)
    (hround : nearestBinary64 x = q) :
    ofDecimal x = finite q ∧ ofDecimal (-x) = finite (-q) := by
  have hlimit : ¬binary64Limit ≤ |x| := by
    rw [abs_of_pos hx]
    exact not_le.mpr (lt_limit_of_rounds h hx hround)
  constructor
  · rw [ofDecimal, if_neg hlimit, hround]
  · rw [ofDecimal, abs_neg, if_neg hlimit, nearestBinary64_neg, hround]

/-! ## Counting -/

/-- The integers up to `2 ^ 53` are binary64 numbers, so counts are exact. -/
theorem isBinary64_natCast {n : ℕ} (h : n ≤ 2 ^ 53) : IsBinary64 n := by
  rcases h.lt_or_eq with hlt | rfl
  · refine ⟨n, 0, ?_, by norm_num, by norm_num, by simp⟩
    rw [abs_of_nonneg (Int.natCast_nonneg n)]
    exact_mod_cast hlt
  · refine ⟨1, 53, by norm_num, by norm_num, by norm_num, ?_⟩
    norm_num

/-- The least integer that is no binary64 number is a tie, and rounds down. -/
theorem nearestBinary64_tie : nearestBinary64 (2 ^ 53 + 1) = 2 ^ 53 := by
  have hpos : (0 : ℚ) < 2 ^ 53 + 1 := by norm_num
  have hlog : Int.log 2 (2 ^ 53 + 1 : ℚ) = 53 := by
    have hlow : 53 ≤ Int.log 2 (2 ^ 53 + 1 : ℚ) :=
      (Int.zpow_le_iff_le_log (by norm_num) hpos).mp (by norm_num)
    have hhigh : Int.log 2 (2 ^ 53 + 1 : ℚ) < 54 :=
      (Int.lt_zpow_iff_log_lt (by norm_num) hpos).mp (by norm_num)
    omega
  have hulp : ulp (2 ^ 53 + 1) = 2 := by
    unfold ulp
    rw [abs_of_pos hpos, hlog]
    norm_num
  have hround : roundHalfEven ((2 ^ 53 + 1) / 2) = 2 ^ 52 := by
    apply roundHalfEven_tie (by norm_num)
    rw [abs_of_pos (by norm_num)]
    norm_num
  rw [nearestBinary64_eq hpos.ne', hulp, hround]
  norm_num

/-- **Counting by ones** is exact up to `2 ^ 53`, where it stops. -/
theorem nearestBinary64_count (n : ℕ) :
    nearestBinary64 ((Min.min n (2 ^ 53) : ℕ) + 1) = (Min.min (n + 1) (2 ^ 53) : ℕ) := by
  rcases lt_or_ge n (2 ^ 53) with hlt | hge
  · have hround := nearestBinary64_above (isBinary64_natCast (Nat.succ_le_of_lt hlt))
      (by positivity) le_rfl (by rw [sub_self]; exact half_pos (ulp_pos _))
    rw [min_eq_left hlt.le, min_eq_left (Nat.succ_le_of_lt hlt)]
    simpa using hround
  · rw [min_eq_right hge, min_eq_right (hge.trans (Nat.le_succ n))]
    exact_mod_cast nearestBinary64_tie

end PyFloat

import Mathlib.Tactic.Linarith
import Mathlib.Tactic.NormNum
import Mathlib.Tactic.Positivity
import OrderPipeline.Foundation.RunningMean

/-!
# Streaming statistics with rounding

The streaming mean when each of its operations is rounded.  A rounding is a monotone map
with a relative and, near zero, an absolute error, under which the half of a rounded
number is not above the number (`Rounding.half`).

* The corrected mean does not leave the interval between the old mean and the new value
  (`correct_between`), so that it always lies between the extremes (`average_between`),
  which the quotient of a rounded sum does not.
* Each correction forgets a part of the earlier errors, so that they add up to no more than
  half the number of the values times the error of one correction (`average_error`).
-/

/-- A rounding to representable numbers. -/
structure Rounding (K : Type*) [Field K] [LinearOrder K] where
  fl : K → K
  /-- The relative error. -/
  unit : K
  /-- The absolute error near zero. -/
  tiny : K
  mono : Monotone fl
  idem : ∀ x, fl (fl x) = fl x
  neg : ∀ x, fl (-x) = -fl x
  one : fl 1 = 1
  two : fl 2 = 2
  error : ∀ x, |fl x - x| ≤ max (unit * |x|) tiny
  half : ∀ x, 0 ≤ x → fl (fl x / 2) ≤ x
  unit_small : unit ≤ 1 / 16
  tiny_nonneg : 0 ≤ tiny
  tiny_le : tiny ≤ unit

namespace Rounding

section Definitions

variable {K : Type*} [Field K] [LinearOrder K] (R : Rounding K)

/-- The numbers that rounding leaves alone. -/
def Representable (x : K) : Prop := R.fl x = x

/-- The corrected mean: the difference, the quotient and the sum are rounded, and so is
the count. -/
def correct (a x : K) (n : ℕ) : K := R.fl (a + R.fl (R.fl (x - a) / R.fl n))

/-- Take one more value into account; count and extremes are exact. -/
def update (r : Running K) (x : K) : Running K where
  count := r.count + 1
  total := R.fl (r.total + x)
  average := R.correct r.average x (r.count + 1)
  minimum := some (r.minimum.elim x (· ⊓ x))
  maximum := some (r.maximum.elim x (· ⊔ x))

/-- The statistics of a stream. -/
def stream (xs : List K) : Running K := xs.foldl R.update Running.empty

variable {R}

/-- The unit of relative error is not negative: the error of rounding one is bounded by
it. -/
theorem unit_nonneg : 0 ≤ R.unit := R.tiny_nonneg.trans R.tiny_le

/-- The grid is symmetric. -/
theorem Representable.neg {x : K} (h : R.Representable x) : R.Representable (-x) := by
  unfold Representable
  rw [R.neg, h]

/-- What is rounded is on the grid. -/
theorem representable_fl (x : K) : R.Representable (R.fl x) := R.idem x

/-- The correction commutes with the sign, so the case of a smaller value follows from
that of a larger one. -/
theorem correct_neg (a x : K) (n : ℕ) : R.correct (-a) (-x) n = -R.correct a x n := by
  have hdiff : -x - -a = -(x - a) := by ring
  unfold correct
  rw [hdiff, R.neg, neg_div, R.neg, ← neg_add, R.neg]

/-- The first value replaces the mean. -/
theorem correct_one {x : K} (hx : R.Representable x) : R.correct 0 x 1 = x := by
  unfold correct
  rw [sub_zero, hx, Nat.cast_one, R.one, div_one, hx, zero_add, hx]

/-- The rounded stream takes one value at a time. -/
theorem stream_concat (xs : List K) (x : K) : R.stream (xs ++ [x]) = R.update (R.stream xs) x := by
  simp [stream]

/-- The count and the extremes are not rounded: they are those of the list. -/
theorem stream_exact (xs : List K) : (R.stream xs).count = xs.length ∧
    (R.stream xs).minimum = xs.min? ∧ (R.stream xs).maximum = xs.max? := by
  induction xs using List.reverseRecOn with
  | nil => exact ⟨rfl, rfl, rfl⟩
  | append_singleton xs x ih =>
      obtain ⟨hcount, hminimum, hmaximum⟩ := ih
      rw [stream_concat, Running.min?_concat, Running.max?_concat]
      simp [update, hcount, hminimum, hmaximum]

/-- The next average is the last one, corrected. -/
theorem stream_average_concat (xs : List K) (x : K) : (R.stream (xs ++ [x])).average =
    R.correct (R.stream xs).average x (xs.length + 1) := by
  rw [stream_concat, ← (stream_exact (R := R) xs).1]
  rfl

end Definitions

variable {K : Type*} [Field K] [LinearOrder K] [IsStrictOrderedRing K] {R : Rounding K}

/-- Zero is on the grid, by symmetry. -/
theorem fl_zero : R.fl 0 = 0 := by
  have hneg := R.neg 0
  rw [neg_zero] at hneg
  linarith

/-- The error of one rounding is relative, apart from underflow. -/
theorem error_le (x : K) : |R.fl x - x| ≤ R.unit * |x| + R.tiny := by
  have hproduct : 0 ≤ R.unit * |x| := mul_nonneg unit_nonneg (abs_nonneg x)
  refine (R.error x).trans (max_le ?_ ?_)
  · linarith [R.tiny_nonneg]
  · linarith

/-- A count is rounded with a relative error. -/
theorem error_count {n : ℕ} (hn : 1 ≤ n) : |R.fl n - n| ≤ R.unit * n := by
  have hone : (1 : K) ≤ n := by exact_mod_cast hn
  have hle : R.tiny ≤ R.unit * n :=
    R.tiny_le.trans (le_mul_of_one_le_right unit_nonneg hone)
  have herror := R.error n
  rwa [Nat.abs_cast, max_eq_left hle] at herror

/-- Rounding keeps bounds on the absolute value. -/
theorem abs_fl_le {x B : K} (h : |x| ≤ B) : |R.fl x| ≤ R.fl B := by
  obtain ⟨hlow, hhigh⟩ := abs_le.mp h
  rw [abs_le]
  constructor
  · rw [← R.neg]
    exact R.mono hlow
  · exact R.mono hhigh

/-- The rounded count is at least two from the second value on; this is what keeps a
correction between the old mean and the value. -/
theorem two_le_count {n : ℕ} (hn : 2 ≤ n) : 2 ≤ R.fl n := by
  rw [← R.two]
  exact R.mono (by exact_mod_cast hn)

/-! ## One correction -/

/-- A correction towards a larger value goes up, and not beyond that value. The quotient
is at most half of the rounded difference, so rounding twice more cannot carry the mean
across. -/
theorem correct_between_of_le {a x : K} {n : ℕ} (ha : R.Representable a)
    (hx : R.Representable x) (hn : 2 ≤ n) (h : a ≤ x) :
    a ≤ R.correct a x n ∧ R.correct a x n ≤ x := by
  have hcount : 2 ≤ R.fl n := two_le_count hn
  have hdiff : 0 ≤ R.fl (x - a) := by
    rw [← fl_zero]
    exact R.mono (sub_nonneg.mpr h)
  have hlow : 0 ≤ R.fl (R.fl (x - a) / R.fl n) := by
    rw [← fl_zero]
    exact R.mono (div_nonneg hdiff (by linarith))
  have hhigh : R.fl (R.fl (x - a) / R.fl n) ≤ x - a := by
    refine le_trans (R.mono ?_) (R.half (x - a) (sub_nonneg.mpr h))
    exact div_le_div_of_nonneg_left hdiff (by norm_num) hcount
  constructor
  · calc a = R.fl a := ha.symm
      _ ≤ R.correct a x n := R.mono (by linarith)
  · calc R.correct a x n ≤ R.fl x := R.mono (by linarith)
      _ = x := hx

/-- **A corrected mean lies between the old mean and the new value.** -/
theorem correct_between {a x : K} {n : ℕ} (ha : R.Representable a) (hx : R.Representable x)
    (hn : 2 ≤ n) : a ⊓ x ≤ R.correct a x n ∧ R.correct a x n ≤ a ⊔ x := by
  rcases le_total a x with h | h
  · rw [inf_eq_left.mpr h, sup_eq_right.mpr h]
    exact correct_between_of_le ha hx hn h
  · obtain ⟨hlow, hhigh⟩ := correct_between_of_le ha.neg hx.neg hn (neg_le_neg h)
    rw [correct_neg] at hlow hhigh
    rw [inf_eq_right.mpr h, sup_eq_left.mpr h]
    exact ⟨neg_le_neg_iff.mp hhigh, neg_le_neg_iff.mp hlow⟩

/-- The error of one correction, of numbers up to `M`. -/
def stepError (R : Rounding K) (M : K) : K := 5 * (R.unit * M) + 3 * R.tiny

/-- The error of a step is a bound. -/
theorem stepError_nonneg {M : K} (hM : 0 ≤ M) : 0 ≤ R.stepError M := by
  have hproduct : 0 ≤ R.unit * M := mul_nonneg unit_nonneg hM
  have htiny := R.tiny_nonneg
  unfold stepError
  positivity

/-- The rounded quotient in a correction, against the exact one.  Three roundings add up
here: that of the difference, that of the count and that of the quotient. -/
theorem quotient_error {a x M : K} {n : ℕ} (ha : |a| ≤ M) (hx : |x| ≤ M) (hn : 2 ≤ n) :
    |R.fl (R.fl (x - a) / R.fl n) - (x - a) / n| ≤
      (3 + 2 * R.unit) * (R.unit * M) + (3 / 2 + R.unit) * R.tiny := by
  have hu : 0 ≤ R.unit := unit_nonneg
  have htiny := R.tiny_nonneg
  have htwo : (2 : K) ≤ n := by exact_mod_cast hn
  have hcount : 2 ≤ R.fl n := two_le_count hn
  have hdist : |x - a| ≤ 2 * M := (abs_sub x a).trans (by linarith)
  have hdiff : |R.fl (x - a) - (x - a)| ≤ R.unit * (2 * M) + R.tiny :=
    (error_le _).trans (by linarith [mul_le_mul_of_nonneg_left hdist hu])
  generalize R.fl (x - a) = d at *
  have hd : |d| ≤ 2 * M + (R.unit * (2 * M) + R.tiny) := by
    calc |d| = |(x - a) + (d - (x - a))| := by ring_nf
      _ ≤ |x - a| + |d - (x - a)| := abs_add_le _ _
      _ ≤ _ := add_le_add hdist hdiff
  -- from the quotient by the exact count to the rounded one
  have hcounts : |d / R.fl n - d / n| ≤ R.unit * |d| / 2 := by
    have hpos : 0 < R.fl n * n := by positivity
    have hquotient : d / R.fl n - d / n = -(d * (R.fl n - n)) / (R.fl n * n) := by
      field_simp
      ring
    rw [hquotient, abs_div, abs_neg, abs_mul, abs_of_pos hpos, div_le_div_iff₀ hpos two_pos]
    have herror := mul_le_mul_of_nonneg_left (error_count (R := R) (by omega : 1 ≤ n))
      (abs_nonneg d)
    have hscaled := mul_le_mul_of_nonneg_left hcount
      (mul_nonneg (mul_nonneg (abs_nonneg d) hu) (by positivity : (0 : K) ≤ n))
    linarith
  have hexact : |d / n - (x - a) / n| ≤ (R.unit * (2 * M) + R.tiny) / 2 := by
    rw [← sub_div, abs_div, Nat.abs_cast]
    exact div_le_div₀ ((abs_nonneg _).trans hdiff) hdiff two_pos htwo
  have hsize : |d / R.fl n| ≤ |d| / 2 := by
    rw [abs_div, abs_of_pos (by linarith : 0 < R.fl n)]
    exact div_le_div_of_nonneg_left (abs_nonneg d) two_pos hcount
  have hround : |R.fl (d / R.fl n) - d / R.fl n| ≤ R.unit * (|d| / 2) + R.tiny :=
    (error_le _).trans (by linarith [mul_le_mul_of_nonneg_left hsize hu])
  have hscaled := mul_le_mul_of_nonneg_left hd hu
  calc |R.fl (d / R.fl n) - (x - a) / n|
      ≤ |R.fl (d / R.fl n) - d / R.fl n| + |d / R.fl n - (x - a) / n| := abs_sub_le _ _ _
    _ ≤ |R.fl (d / R.fl n) - d / R.fl n| +
          (|d / R.fl n - d / n| + |d / n - (x - a) / n|) := by
        linarith [abs_sub_le (d / R.fl n) (d / n) ((x - a) / n)]
    _ ≤ (3 + 2 * R.unit) * (R.unit * M) + (3 / 2 + R.unit) * R.tiny := by linarith

/-- The corrected mean against the exact correction of the same mean.  The exact one is
a convex combination, hence bounded by `M`, and the last rounding is relative to that. -/
theorem correct_error {a x M : K} {n : ℕ} (ha : |a| ≤ M) (hx : |x| ≤ M) (hn : 2 ≤ n) :
    |R.correct a x n - (a + (x - a) / n)| ≤ R.stepError M := by
  have hu : 0 ≤ R.unit := unit_nonneg
  have hsmall := R.unit_small
  have htiny := R.tiny_nonneg
  have hquotient := quotient_error (R := R) ha hx hn
  have htwo : (2 : K) ≤ n := by exact_mod_cast hn
  unfold correct
  generalize R.fl (R.fl (x - a) / R.fl n) = c at *
  -- the exact correction is a convex combination
  have hconvex : |a + (x - a) / n| ≤ M := by
    have hweight : (1 : K) / n ≤ 1 := (div_le_one (by linarith)).mpr (by linarith)
    have hnonneg : (0 : K) ≤ 1 / n := by positivity
    have hsplit : a + (x - a) / n = (1 - 1 / n) * a + 1 / n * x := by ring
    rw [hsplit]
    calc |(1 - 1 / n) * a + 1 / n * x| ≤ |(1 - 1 / n) * a| + |1 / n * x| := abs_add_le _ _
      _ = (1 - 1 / n) * |a| + 1 / n * |x| := by
        rw [abs_mul, abs_mul, abs_of_nonneg (sub_nonneg.mpr hweight), abs_of_nonneg hnonneg]
      _ ≤ (1 - 1 / n) * M + 1 / n * M :=
        add_le_add (mul_le_mul_of_nonneg_left ha (sub_nonneg.mpr hweight))
          (mul_le_mul_of_nonneg_left hx hnonneg)
      _ = M := by ring
  have hM : 0 ≤ M := (abs_nonneg a).trans ha
  have hsum : |a + c| ≤ M + ((3 + 2 * R.unit) * (R.unit * M) +
      (3 / 2 + R.unit) * R.tiny) := by
    calc |a + c| = |(a + (x - a) / n) + (c - (x - a) / n)| := by ring_nf
      _ ≤ |a + (x - a) / n| + |c - (x - a) / n| := abs_add_le _ _
      _ ≤ _ := add_le_add hconvex hquotient
  have hround := error_le (R := R) (a + c)
  have hscaled := mul_le_mul_of_nonneg_left hsum hu
  have hproduct : 0 ≤ R.unit * M := mul_nonneg hu hM
  have hsquare : R.unit * (R.unit * M) ≤ 1 / 16 * (R.unit * M) :=
    mul_le_mul_of_nonneg_right hsmall hproduct
  have hcube : R.unit * (R.unit * (R.unit * M)) ≤ 1 / 16 * (R.unit * M) := by
    have hinner := mul_le_mul_of_nonneg_left hsquare hu
    linarith
  have hut : R.unit * R.tiny ≤ 1 / 16 * R.tiny := mul_le_mul_of_nonneg_right hsmall htiny
  have huut : R.unit * (R.unit * R.tiny) ≤ 1 / 16 * R.tiny := by
    have hinner := mul_le_mul_of_nonneg_left hut hu
    linarith
  unfold stepError
  calc |R.fl (a + c) - (a + (x - a) / n)|
      ≤ |R.fl (a + c) - (a + c)| + |(a + c) - (a + (x - a) / n)| := abs_sub_le _ _ _
    _ = |R.fl (a + c) - (a + c)| + |c - (x - a) / n| := by ring_nf
    _ ≤ 5 * (R.unit * M) + 3 * R.tiny := by linarith

/-! ## Streams -/

/-- The average is on the grid after every update: the first value is, and every later
average was rounded. -/
theorem representable_average {xs : List K} (h : ∀ x ∈ xs, R.Representable x) :
    R.Representable (R.stream xs).average := by
  cases xs using List.reverseRecOn with
  | nil => exact fl_zero
  | append_singleton xs x =>
      rw [stream_average_concat]
      exact representable_fl _

/-- **The rounded mean keeps the bounds of the values**, although every single operation
may err: each correction stays between the old mean and the new value. -/
theorem average_between {xs : List K} {lo hi : K} (hne : xs ≠ [])
    (h : ∀ x ∈ xs, R.Representable x) (hbounds : ∀ x ∈ xs, lo ≤ x ∧ x ≤ hi) :
    lo ≤ (R.stream xs).average ∧ (R.stream xs).average ≤ hi := by
  induction xs using List.reverseRecOn with
  | nil => exact absurd rfl hne
  | append_singleton xs x ih =>
      simp only [List.forall_mem_append, List.forall_mem_singleton] at h hbounds
      obtain ⟨hxs, hx⟩ := h
      obtain ⟨hxsBounds, hlow, hhigh⟩ := hbounds
      rw [stream_average_concat]
      rcases eq_or_ne xs [] with rfl | hmore
      · have hfirst : R.correct (R.stream []).average x 1 = x := correct_one hx
        rw [List.length_nil, zero_add, hfirst]
        exact ⟨hlow, hhigh⟩
      · obtain ⟨ihLow, ihHigh⟩ := ih hmore hxs hxsBounds
        have hlength : 2 ≤ xs.length + 1 := by
          have hpos := List.length_pos_iff.mpr hmore
          omega
        obtain ⟨hbelow, habove⟩ := correct_between (representable_average hxs) hx hlength
        exact ⟨(le_inf ihLow hlow).trans hbelow, habove.trans (sup_le ihHigh hhigh)⟩

/-- **The errors of the corrections** add up to half the number of the values: the exact
correction shrinks an error that is already there by the factor `1 - 1 / n`, and each
step adds one of its own. -/
theorem average_error {xs : List K} {M : K} (hM : 0 ≤ M) (h : ∀ x ∈ xs, R.Representable x)
    (hbound : ∀ x ∈ xs, |x| ≤ M) :
    |(R.stream xs).average - (Running.batch xs).average| ≤
      (xs.length + 1) / 2 * R.stepError M := by
  have hstep : 0 ≤ R.stepError M := stepError_nonneg hM
  induction xs using List.reverseRecOn with
  | nil =>
      have hzero : (R.stream []).average - (Running.batch ([] : List K)).average = 0 := by
        simp [stream, Running.empty, Running.batch]
      rw [hzero, abs_zero]
      positivity
  | append_singleton xs x ih =>
      simp only [List.forall_mem_append, List.forall_mem_singleton] at h hbound
      obtain ⟨hxs, hx⟩ := h
      obtain ⟨hxsBound, hxBound⟩ := hbound
      have hexact : (Running.batch (xs ++ [x])).average = (Running.batch xs).average +
          (x - (Running.batch xs).average) / (xs.length + 1 : ℕ) := by
        rw [← Running.update_batch]
        rfl
      rw [stream_average_concat, hexact]
      rcases eq_or_ne xs [] with rfl | hmore
      · have hfirst : R.correct (R.stream []).average x 1 = x := correct_one hx
        have hzero : (Running.batch ([] : List K)).average = 0 := by simp [Running.batch]
        rw [List.length_nil, zero_add, hfirst, hzero]
        simp only [sub_zero, zero_add, Nat.cast_one, div_one, sub_self, abs_zero]
        positivity
      · have hlength : 2 ≤ xs.length + 1 := by
          have hpos := List.length_pos_iff.mpr hmore
          omega
        obtain ⟨hlow, hhigh⟩ := average_between hmore hxs
          fun y hy => abs_le.mp (hxsBound y hy)
        have hcorrect := correct_error (R := R) (abs_le.mpr ⟨hlow, hhigh⟩) hxBound hlength
        have ih := ih hxs hxsBound
        generalize (R.stream xs).average = a at *
        generalize (Running.batch xs).average = m at *
        have hn : (1 : K) ≤ (xs.length + 1 : ℕ) := by exact_mod_cast (by omega : 1 ≤ xs.length + 1)
        have hn0 : ((xs.length + 1 : ℕ) : K) ≠ 0 := by positivity
        have hlen : (xs.length : K) = (xs.length + 1 : ℕ) - 1 := by push_cast; ring
        rw [hlen] at ih
        simp only [List.length_append, List.length_singleton]
        generalize ((xs.length + 1 : ℕ) : K) = n at *
        have hforget : (0 : K) ≤ 1 - 1 / n := by
          rw [sub_nonneg, div_le_one (by linarith)]
          exact hn
        calc |R.correct a x (xs.length + 1) - (m + (x - m) / n)|
            = |(R.correct a x (xs.length + 1) - (a + (x - a) / n)) +
                (1 - 1 / n) * (a - m)| := by ring_nf
          _ ≤ R.stepError M + (1 - 1 / n) * |a - m| := by
            rw [← abs_of_nonneg hforget, ← abs_mul, abs_of_nonneg hforget]
            exact (abs_add_le _ _).trans (add_le_add_left hcorrect _)
          _ ≤ R.stepError M + (1 - 1 / n) * ((n - 1 + 1) / 2 * R.stepError M) :=
            add_le_add_right (mul_le_mul_of_nonneg_left ih hforget) _
          _ = (n + 1) / 2 * R.stepError M := by
            field_simp
            ring

/-- A sum does not leave a bound at which another value is rounded away. -/
theorem total_bounded {xs : List K} {M B : K} (hB : 0 ≤ B) (hbound : ∀ x ∈ xs, |x| ≤ M)
    (habsorbs : R.fl (B + M) ≤ B) : |(R.stream xs).total| ≤ B := by
  induction xs using List.reverseRecOn with
  | nil => simpa [stream, Running.empty] using hB
  | append_singleton xs x ih =>
      simp only [List.forall_mem_append, List.forall_mem_singleton] at hbound
      have hsum : |(R.stream xs).total + x| ≤ B + M :=
        (abs_add_le _ _).trans (add_le_add (ih hbound.1) hbound.2)
      rw [stream_concat]
      exact (abs_fl_le hsum).trans habsorbs

end Rounding

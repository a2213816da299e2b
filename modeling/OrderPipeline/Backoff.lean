import OrderPipeline.Foundation.ExponentialBackoff
import OrderPipeline.Retry

/-!
# The delay between two attempts

`backoff_for` with rational parameters is the exponential backoff of
`Backoff.wait`, unless the power overflows (`backoffFor_rational`).  The
multiplier of `main` is 2, and its power overflows from attempt 1025 on
(`backoffFor_doubling`); up to there the delay is a number
(`backoffFor_main_finite`).
-/

namespace OrderPipeline

/-- A policy with rational parameters. -/
def rationalPolicy (b : Backoff ℚ) (maxAttempts : ℤ) (rng : ℕ → Draw) : RetryPolicy where
  maxAttempts := maxAttempts
  baseDelay := .finite b.base
  multiplier := .finite b.multiplier
  maxDelay := .finite b.cap
  jitter := .finite b.jitter
  rng := rng

/-- `backoff_for` returns after every attempt that is followed by another one. -/
def RetryPolicy.BackoffReturns (policy : RetryPolicy) : Prop :=
  ∀ attempt drawn : ℕ, 1 ≤ attempt → (attempt : ℤ) < policy.maxAttempts →
    ∃ value, policy.backoffFor attempt drawn = .ok value

/-- The default policy is rational. -/
example (rng : ℕ → Draw) :
    { rng := rng : RetryPolicy } = rationalPolicy ⟨1 / 2, 2, 30, 1 / 4⟩ 3 rng := rfl

/-- `uniform(raw - spread, raw + spread)` stretches `raw` by a factor. -/
theorem uniform_spread (raw jitter u : ℚ) :
    PyFloat.uniform (.finite (raw - raw * jitter)) (.finite (raw + raw * jitter)) u =
      .finite (raw * (1 + jitter * (2 * u - 1))) := by
  unfold PyFloat.uniform
  simp only [PyFloat.sub_finite, PyFloat.mul_finite, PyFloat.add_finite]
  congr 1
  ring

/-- **`backoff_for` in rational arithmetic** returns the library's wait for the draw, as
long as the power of the multiplier does not overflow. -/
theorem backoffFor_rational (b : Backoff ℚ) (maxAttempts : ℤ) (rng : ℕ → Draw)
    (attempt drawn : ℕ) :
    (rationalPolicy b maxAttempts rng).backoffFor attempt drawn =
      if |b.multiplier ^ (attempt - 1)| < PyFloat.binary64Limit then
        .ok (.finite (b.wait (attempt - 1) (rng drawn).val),
          if b.jitter = 0 then drawn else drawn + 1)
      else .error overflowError := by
  simp only [RetryPolicy.backoffFor, rationalPolicy, PyFloat.pow]
  by_cases hlimit : |b.multiplier ^ (attempt - 1)| < PyFloat.binary64Limit
  · rw [if_pos hlimit, if_pos hlimit]
    by_cases hjitter : b.jitter = 0
    · have hfactor : b.factor (rng drawn).val = 1 := by simp [Backoff.factor, hjitter]
      simp [PyFloat.truthy, hjitter, Backoff.wait, Backoff.nominal, hfactor]
    · simp [PyFloat.truthy, hjitter, uniform_spread, Backoff.wait, Backoff.nominal,
        Backoff.factor]
  · rw [if_neg hlimit, if_neg hlimit]

/-- A rational delay that is returned is the wait of its attempt. -/
theorem backoffFor_rational_ok {b : Backoff ℚ} {maxAttempts : ℤ} {rng : ℕ → Draw}
    {attempt drawn drawn' : ℕ} {delay : PyFloat}
    (h : (rationalPolicy b maxAttempts rng).backoffFor attempt drawn = .ok (delay, drawn')) :
    delay = .finite (b.wait (attempt - 1) (rng drawn).val) := by
  rw [backoffFor_rational] at h
  split at h
  · cases h
    rfl
  · cases h

/-! ## The backoff of `main` -/

/-- The backoff that doubles overflows from attempt 1025 on: `2.0 ** 1024` raises,
before the comparison with `max_delay` is made. -/
theorem backoffFor_doubling {policy : RetryPolicy} (hdouble : policy.multiplier = .finite 2)
    (n drawn : ℕ) :
    if 1025 ≤ n then policy.backoffFor n drawn = .error overflowError
    else ∃ value, policy.backoffFor n drawn = .ok value := by
  have hpow := PyFloat.pow_two_eq_none_iff (n - 1)
  unfold RetryPolicy.backoffFor
  rw [hdouble]
  split
  · next hn =>
    rw [hpow.mpr (by omega)]
  · next hn =>
    cases h : (PyFloat.finite 2).pow (n - 1) with
    | none =>
        have hlarge := hpow.mp h
        omega
    | some factor =>
        simp only
        split
        · exact ⟨_, rfl⟩
        · exact ⟨_, rfl⟩

/-- A delay of the doubling backoff that was returned is one of the first 1024. -/
theorem lt_of_backoff_ok {policy : RetryPolicy} (hdouble : policy.multiplier = .finite 2)
    {attempt drawn : ℕ} {value : PyFloat × ℕ}
    (h : policy.backoffFor attempt drawn = .ok value) : attempt < 1025 := by
  have hdoubling := backoffFor_doubling hdouble attempt drawn
  by_contra hlarge
  rw [if_pos (not_lt.mp hlarge), h] at hdoubling
  cases hdoubling

/-- What escapes from the doubling backoff is `OverflowError`. -/
theorem overflow_of_backoff_error {policy : RetryPolicy}
    (hdouble : policy.multiplier = .finite 2) {attempt drawn : ℕ} {exc : Exn}
    (h : policy.backoffFor attempt drawn = .error exc) :
    1025 ≤ attempt ∧ exc = overflowError := by
  have hdoubling := backoffFor_doubling hdouble attempt drawn
  split at hdoubling
  · next hlarge =>
    rw [h] at hdoubling
    exact ⟨hlarge, Except.error.inj hdoubling⟩
  · obtain ⟨value, hvalue⟩ := hdoubling
    rw [h] at hvalue
    cases hvalue

/-- A budget within the range of the powers of two lets `backoff_for` return. -/
theorem backoffReturns_doubling {policy : RetryPolicy}
    (hdouble : policy.multiplier = .finite 2) (hbudget : policy.maxAttempts ≤ 1025) :
    policy.BackoffReturns := by
  intro attempt drawn _ hbefore
  have hdoubling := backoffFor_doubling hdouble attempt drawn
  rwa [if_neg (by omega)] at hdoubling

/-- A base delay that is not negative gives a finite capped delay, also when it
is infinite. -/
theorem capped_finite {baseDelay : PyFloat} (hbase : (PyFloat.finite 0).le baseDelay = true)
    {factor : ℚ} (hfactor : 0 < factor) (cap : ℚ) :
    ∃ raw, (baseDelay.mul (.finite factor)).min (.finite cap) = .finite raw := by
  cases baseDelay with
  | finite q => exact ⟨_, by rw [PyFloat.mul_finite, PyFloat.min_finite]⟩
  | posInf =>
      refine ⟨cap, ?_⟩
      have hmul : PyFloat.posInf.mul (.finite factor) = .posInf := by
        simp [PyFloat.mul, hfactor, hfactor.ne']
      rw [hmul]
      rfl
  | negInf => cases hbase
  | nan => cases hbase

/-- As long as the power of two does not overflow, the delay of `main` is a
number. -/
theorem backoffFor_main_finite {maxAttempts : ℤ} {baseDelay : PyFloat}
    (hbase : (PyFloat.finite 0).le baseDelay = true) (rng : ℕ → Draw) {attempt : ℕ}
    (hattempt : attempt < 1025) (drawn : ℕ) :
    ∃ delay drawn',
      { maxAttempts := maxAttempts, baseDelay := baseDelay, rng := rng :
        RetryPolicy }.backoffFor attempt drawn = .ok (.finite delay, drawn') := by
  have hpow : (PyFloat.finite 2).pow (attempt - 1) = some (.finite (2 ^ (attempt - 1))) := by
    have habs : |(2 : ℚ) ^ (attempt - 1)| = 2 ^ (attempt - 1) :=
      abs_of_pos (pow_pos (by decide +kernel) _)
    simp only [PyFloat.pow, habs]
    exact if_pos (PyFloat.two_pow_lt_limit (by omega))
  obtain ⟨raw, hraw⟩ := capped_finite hbase
    (pow_pos (by decide +kernel : (0 : ℚ) < 2) (attempt - 1)) 30
  have hjitter : (PyFloat.finite (1 / 4)).truthy = true := by decide +kernel
  refine ⟨max 0 (raw * (1 + 1 / 4 * (2 * (rng drawn).val - 1))), drawn + 1, ?_⟩
  simp only [RetryPolicy.backoffFor, hpow, hraw, hjitter, if_true, PyFloat.mul_finite,
    PyFloat.sub_finite, PyFloat.add_finite, uniform_spread, PyFloat.max_finite]

end OrderPipeline

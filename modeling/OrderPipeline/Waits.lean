import OrderPipeline.RetryTrace

/-!
# The waits of the retry loop

Three properties of the waits that `execute` makes between two attempts:

* `execute_returns_iff`: the power behind a wait overflows exactly when a budget
  of more than 1025 attempts meets 1025 transient errors, and then the
  exception leaves `execute`;
* `max_delay_caps_iff`: jitter is applied after the cap, so `max_delay` bounds a
  wait exactly when the draw does not lengthen it beyond;
* `jitter_keeps_shape`: jitter keeps every wait in its band around the capped
  exponential, and the waits grow as long as neighbouring bands are apart.
-/

namespace OrderPipeline

variable {S : Type}

/-! ## The power overflows -/

section Overflow

variable {policy : RetryPolicy} (hdouble : policy.multiplier = .finite 2)

include hdouble

/-- No call gets beyond invocation 1025: the delay before the next one is not
returned. -/
theorem Course.last_le {fn : S → Except Exn Unit × S} {remaining drawn last : ℕ} {s : S}
    {e : Execution S} {delays : ℕ → PyFloat} {draws : ℕ → ℕ}
    (hcourse : Course policy fn remaining 1 drawn s e last delays draws) : last ≤ 1024 := by
  by_contra hlarge
  have hdelay := lt_of_backoff_ok hdouble (hcourse.backoff 1024 (by omega))
  omega

/-- 1025 transient errors within a larger budget let `OverflowError` out: the wait after
the last of them cannot be computed. -/
theorem execute_overflows (fn : S → Except Exn Unit × S) (drawn : ℕ) (s : S)
    (hbudget : 1025 < policy.maxAttempts)
    (htransient : ∀ i < 1025, transient (resultAt fn s i) = true) :
    (policy.execute fn drawn s).result = .error overflowError := by
  obtain ⟨last, delays, draws, hcourse⟩ := policy.execute_course fn (by omega) drawn s
  have hlast := hcourse.last_le hdouble
  have hlastTransient := htransient last (by omega)
  rcases hcourse.wayOut with ⟨hok, -⟩ | ⟨exc, hexc, hpermanent | hexhausted, -⟩ |
    ⟨exc, escaping, -, -, -, hescapes, hresult⟩
  · rw [hok] at hlastTransient
    cases hlastTransient
  · rw [hexc] at hlastTransient
    simp [transient, hpermanent] at hlastTransient
  · omega
  · rw [hresult, (overflow_of_backoff_error hdouble hescapes).2]

/-- A smaller budget, or another result among the first 1025, lets `execute`
return. -/
theorem execute_returns (fn : S → Except Exn Unit × S) (drawn : ℕ) (s : S)
    (h : policy.maxAttempts ≤ 1025 ∨ ∃ i < 1025, transient (resultAt fn s i) = false) :
    ∃ outcome, (policy.execute fn drawn s).result = .ok outcome := by
  by_cases hbudget : 1 ≤ policy.maxAttempts
  · obtain ⟨last, delays, draws, hcourse⟩ := policy.execute_course fn hbudget drawn s
    rcases hcourse.wayOut with ⟨-, hresult⟩ | ⟨exc, -, -, hresult⟩ |
      ⟨exc, escaping, hexc, hkind, hbefore, hescapes, -⟩
    · exact ⟨_, hresult⟩
    · exact ⟨_, hresult⟩
    · have hattempt := (overflow_of_backoff_error hdouble hescapes).1
      rcases h with hsmall | ⟨i, hi, hother⟩
      · omega
      · have htransient : transient (resultAt fn s i) = true := by
          rcases Nat.lt_or_ge i last with hlt | hge
          · exact hcourse.transient_before i hlt
          · have heq : i = last := by omega
            rw [heq, hexc]
            simp [transient, hkind]
        rw [htransient] at hother
        cases hother
  · refine ⟨policy.failure none, ?_⟩
    rw [policy.execute_without_budget fn (by omega)]

end Overflow

/-- **When `execute` returns.**  With the default multiplier, cap and jitter and
a base delay that is not negative, `execute` returns an outcome unless the
budget is above 1025 and the first 1025 results are transient; and the capped
delay is a number for every attempt below the budget exactly when the budget is
at most 1025. -/
theorem execute_returns_iff (maxAttempts : ℤ) {baseDelay : PyFloat}
    (hbase : (PyFloat.finite 0).le baseDelay = true) (rng : ℕ → Draw) :
    let policy : RetryPolicy :=
      { maxAttempts := maxAttempts, baseDelay := baseDelay, rng := rng }
    (∀ (S : Type) (fn : S → Except Exn Unit × S) (drawn : ℕ) (s : S),
      (∃ outcome, (policy.execute fn drawn s).result = .ok outcome) ↔
        (maxAttempts ≤ 1025 ∨ ∃ i < 1025, transient (resultAt fn s i) = false)) ∧
    ((∀ attempt drawn : ℕ, 1 ≤ attempt → (attempt : ℤ) < maxAttempts →
        ∃ delay drawn', policy.backoffFor attempt drawn = .ok (.finite delay, drawn')) ↔
      maxAttempts ≤ 1025) := by
  intro policy
  have hdouble : policy.multiplier = .finite 2 := rfl
  refine ⟨?_, ?_⟩
  · intro S fn drawn s
    refine ⟨?_, execute_returns hdouble fn drawn s⟩
    rintro ⟨outcome, houtcome⟩
    by_contra hnone
    push Not at hnone
    have hoverflows := execute_overflows hdouble fn drawn s hnone.1
      fun i hi => by simpa using hnone.2 i hi
    rw [houtcome] at hoverflows
    cases hoverflows
  · constructor
    · intro hnumbers
      by_contra hlarge
      obtain ⟨delay, drawn', hok⟩ := hnumbers 1025 0 (by omega) (by push_cast; omega)
      have hsmall := lt_of_backoff_ok hdouble hok
      omega
    · intro hsmall attempt drawn _ hbefore
      exact backoffFor_main_finite hbase rng (by omega) drawn

/-- A callable that always times out. -/
def alwaysTimesOut : Unit → Except Exn Unit × Unit :=
  fun _ => (.error (transientError "timeout"), ())

/-- With the defaults of `parse_args` a call of such a callable returns. -/
theorem default_execute_returns :
    ∃ outcome, ({ rng := fun _ => Draw.half : RetryPolicy }.execute alwaysTimesOut 0 ()).result =
      .ok outcome :=
  ((execute_returns_iff 3 (by decide +kernel) (fun _ => Draw.half)).1 Unit alwaysTimesOut 0
    ()).mpr (Or.inl (by decide))

/-- With a budget of 1026 attempts the same callable makes `OverflowError` leave
`execute`. -/
theorem overflow_leaves_execute :
    ({ maxAttempts := 1026, rng := fun _ => Draw.half : RetryPolicy }.execute
      alwaysTimesOut 0 ()).result = .error overflowError :=
  execute_overflows rfl alwaysTimesOut 0 () (by decide) fun _ _ => rfl

/-! ## The waits of a call -/

/-- The waits of a call under a rational policy: one for each attempt before the
last one, each with a draw of its own. -/
theorem sleeps_rational (b : Backoff ℚ) (maxAttempts : ℤ) (rng : ℕ → Draw)
    (fn : S → Except Exn Unit × S) (drawn : ℕ) (s : S) :
    ∃ (n : ℕ) (u : ℕ → Draw), n ≤ (maxAttempts - 1).toNat ∧
      sleeps ((rationalPolicy b maxAttempts rng).execute fn drawn s).calls =
        (List.range n).map fun k => .finite (b.wait k (u k).val) := by
  by_cases hbudget : 1 ≤ maxAttempts
  · obtain ⟨last, delays, draws, hcourse⟩ :=
      (rationalPolicy b maxAttempts rng).execute_course fn hbudget drawn s
    have hwithin : last < maxAttempts.toNat := hcourse.within
    refine ⟨last, fun k => rng (draws k), by omega, ?_⟩
    rw [hcourse.calls, sleeps_callTrace]
    apply List.map_congr_left
    intro k hk
    have hdelay := backoffFor_rational_ok (hcourse.backoff k (List.mem_range.mp hk))
    rwa [Nat.add_sub_cancel_left] at hdelay
  · have hnone : (rationalPolicy b maxAttempts rng).maxAttempts < 1 := not_le.mp hbudget
    refine ⟨0, fun _ => Draw.half, Nat.zero_le _, ?_⟩
    rw [RetryPolicy.execute_without_budget _ fn hnone]
    rfl

/-- A callable that always times out makes every wait that the budget allows; the bound
of the total is reached by such a call. -/
theorem sleeps_of_timeouts (b : Backoff ℚ) {maxAttempts : ℤ} (hbudget : 1 ≤ maxAttempts)
    (rng : ℕ → Draw) (hlimit : ∀ k < (maxAttempts - 1).toNat,
      |b.multiplier ^ k| < PyFloat.binary64Limit) :
    ∃ draws : ℕ → ℕ,
      sleeps ((rationalPolicy b maxAttempts rng).execute alwaysTimesOut 0 ()).calls =
        (List.range (maxAttempts - 1).toNat).map fun k =>
          .finite (b.wait k (rng (draws k)).val) := by
  have hback : (rationalPolicy b maxAttempts rng).BackoffReturns := by
    intro attempt drawn hattempt hbefore
    have hbefore : (attempt : ℤ) < maxAttempts := hbefore
    rw [backoffFor_rational, if_pos (hlimit (attempt - 1) (by omega))]
    exact ⟨_, rfl⟩
  obtain ⟨last, delays, draws, hcourse⟩ :=
    (rationalPolicy b maxAttempts rng).execute_course alwaysTimesOut hbudget 0 ()
  have hlast : last = (maxAttempts - 1).toNat := by
    have hall : (rationalPolicy b maxAttempts rng).maxAttempts = maxAttempts := rfl
    rcases hcourse.returned hback with ⟨hok, -⟩ | ⟨exc, hexc, hpermanent | hexhausted, -⟩
    · cases hok
    · obtain rfl := Except.error.inj hexc
      cases hpermanent
    · omega
  refine ⟨draws, ?_⟩
  rw [hcourse.calls, sleeps_callTrace, hlast]
  apply List.map_congr_left
  intro k hk
  have hdelay := backoffFor_rational_ok
    (hcourse.backoff k (hlast ▸ List.mem_range.mp hk))
  rwa [Nat.add_sub_cancel_left] at hdelay

/-! ## The cap -/

theorem Draw.one_nonneg : (0 : ℚ) ≤ 1 := zero_le_one

/-- The draw at the right end. -/
def Draw.one : Draw := ⟨1, Draw.one_nonneg, le_refl 1⟩

/-- **What `max_delay` bounds.**  A delay is never negative, and it is at most
`max_delay` exactly when there is no jitter, `max_delay` is zero, the draw does
not lengthen the delay, or the lengthened exponential is below `max_delay`.  The
waits of all calls sum to at most `(max_attempts - 1) * max_delay` exactly when
the longest waits of all attempts do. -/
theorem max_delay_caps_iff (b : Backoff ℚ) (maxAttempts : ℤ) (hcap : 0 ≤ b.cap)
    (hmultiplier : 0 ≤ b.multiplier) (hjitter : 0 ≤ b.jitter) (hone : b.jitter ≤ 1) :
    (∀ (rng : ℕ → Draw) (attempt drawn : ℕ), 1 ≤ attempt →
      b.multiplier ^ (attempt - 1) < PyFloat.binary64Limit →
      ∃ delay drawn', (rationalPolicy b maxAttempts rng).backoffFor attempt drawn =
          .ok (.finite delay, drawn') ∧ 0 ≤ delay ∧
        (delay ≤ b.cap ↔ b.jitter = 0 ∨ b.cap = 0 ∨ 2 * (rng drawn).val ≤ 1 ∨
          b.base * b.multiplier ^ (attempt - 1) *
            (1 + b.jitter * (2 * (rng drawn).val - 1)) ≤ b.cap)) ∧
    (1 ≤ maxAttempts →
      (∀ k < (maxAttempts - 1).toNat, b.multiplier ^ k < PyFloat.binary64Limit) →
      ((∀ (rng : ℕ → Draw) (S : Type) (fn : S → Except Exn Unit × S) (drawn : ℕ) (s : S)
          (waits : List ℚ),
          sleeps ((rationalPolicy b maxAttempts rng).execute fn drawn s).calls =
            waits.map .finite → waits.sum ≤ (maxAttempts - 1) * b.cap) ↔
        ((List.range (maxAttempts - 1).toNat).map fun k =>
          (1 + b.jitter) * max 0 (min (b.base * b.multiplier ^ k) b.cap)).sum ≤
            (maxAttempts - 1) * b.cap)) := by
  have habs : ∀ k, |b.multiplier ^ k| = b.multiplier ^ k :=
    fun k => abs_of_nonneg (pow_nonneg hmultiplier k)
  refine ⟨?_, ?_⟩
  · intro rng attempt drawn _ hlimit
    refine ⟨b.wait (attempt - 1) (rng drawn).val, if b.jitter = 0 then drawn else drawn + 1,
      ?_, b.wait_nonneg _ _, ?_⟩
    · rw [backoffFor_rational, habs, if_pos hlimit]
    · exact Backoff.wait_le_cap_iff hjitter (rng drawn).nonneg (rng drawn).le_one hone hcap _
  · intro hbudget hlimit
    have hinjective : Function.Injective PyFloat.finite := fun _ _ h => PyFloat.finite.inj h
    constructor
    · intro hall
      obtain ⟨draws, hsleeps⟩ := sleeps_of_timeouts b hbudget (fun _ => Draw.one)
        (fun k hk => by rw [habs]; exact hlimit k hk)
      have hlongest : ∀ k, b.wait k Draw.one.val = b.longest k :=
        fun k => Backoff.wait_one hjitter k
      simp only [hlongest] at hsleeps
      refine hall (fun _ => Draw.one) Unit alwaysTimesOut 0 ()
        ((List.range (maxAttempts - 1).toNat).map b.longest) ?_
      rw [hsleeps, List.map_map]
      rfl
    · intro hworst rng S fn drawn s waits hwaits
      obtain ⟨n, u, hn, hsleeps⟩ := sleeps_rational b maxAttempts rng fn drawn s
      have hmap : waits = (List.range n).map fun k => b.wait k (u k).val := by
        apply List.map_injective_iff.mpr hinjective
        rw [← hwaits, hsleeps, List.map_map]
        rfl
      calc waits.sum
          ≤ b.worstTotal n := by
            rw [hmap]
            exact Backoff.sum_wait_le hjitter hone
              (fun k => ⟨(u k).nonneg, (u k).le_one⟩) n
        _ ≤ b.worstTotal (maxAttempts - 1).toNat := Backoff.worstTotal_mono hjitter hn
        _ ≤ (maxAttempts - 1) * b.cap := hworst

/-- With the defaults and the longest draws, the delay of attempt 1 is below
`max_delay`, and the two waits of three attempts stay within a minute. -/
theorem default_waits_within_cap :
    let policy := rationalPolicy ⟨1 / 2, 2, 30, 1 / 4⟩ 3 fun _ => Draw.one
    (∃ delay drawn', policy.backoffFor 1 0 = .ok (.finite delay, drawn') ∧ 0 ≤ delay ∧
      delay ≤ 30) ∧
    sleeps (policy.execute alwaysTimesOut 0 ()).calls = [.finite (5 / 8), .finite (5 / 4)] ∧
    ([5 / 8, 5 / 4] : List ℚ).sum ≤ ((3 : ℤ) - 1) * 30 := by
  intro policy
  have hwaits : sleeps (policy.execute alwaysTimesOut 0 ()).calls =
      [.finite (5 / 8), .finite (5 / 4)] := by
    decide +kernel
  have hlimit : ∀ k < ((3 : ℤ) - 1).toNat, (2 : ℚ) ^ k < PyFloat.binary64Limit := by
    intro k hk
    exact PyFloat.two_pow_lt_limit (by omega)
  obtain ⟨hdelay, htotal⟩ := max_delay_caps_iff ⟨1 / 2, 2, 30, 1 / 4⟩ 3 (by norm_num)
    (by norm_num) (by norm_num) (by norm_num)
  obtain ⟨delay, drawn', hok, hnonneg, hiff⟩ :=
    hdelay (fun _ => Draw.one) 1 0 le_rfl (PyFloat.two_pow_lt_limit (by omega))
  refine ⟨⟨delay, drawn', hok, hnonneg, hiff.mpr ?_⟩, hwaits, ?_⟩
  · exact Or.inr (Or.inr (Or.inr (by decide +kernel)))
  · have hworst := (htotal (by norm_num) hlimit).mpr (by decide +kernel)
    exact hworst (fun _ => Draw.one) Unit alwaysTimesOut 0 () [5 / 8, 5 / 4] hwaits

/-- A draw of nine tenths lengthens the capped delay of attempt 7, and a first
delay beyond the cap, to 36 seconds. -/
theorem wait_beyond_max_delay :
    let rng : ℕ → Draw := fun _ => ⟨9 / 10, by decide +kernel, by decide +kernel⟩
    (rationalPolicy ⟨1 / 2, 2, 30, 1 / 4⟩ 8 rng).backoffFor 7 0 = .ok (.finite 36, 1) ∧
      sleeps ((rationalPolicy ⟨60, 2, 30, 1 / 4⟩ 2 rng).execute alwaysTimesOut 0 ()).calls =
        [.finite 36] ∧
      ¬(36 : ℚ) ≤ (2 - 1) * 30 := by
  intro rng
  refine ⟨?_, ?_, by norm_num⟩
  · decide +kernel
  · decide +kernel

/-! ## The shape -/

/-- **Jitter keeps the exponential shape.**  Every wait of every call lies in the
band around its capped exponential, and if neighbouring bands are apart the next
wait is strictly longer as long as it is not capped. -/
theorem jitter_keeps_shape {b : Backoff ℚ} (hbase : 0 < b.base)
    (hmultiplier : 0 < b.multiplier) (hcap : 0 < b.cap) (hjitter : 0 ≤ b.jitter)
    (hone : b.jitter < 1) (maxAttempts : ℤ) (rng : ℕ → Draw)
    (fn : S → Except Exn Unit × S) (drawn : ℕ) (s : S) :
    let waits := sleeps ((rationalPolicy b maxAttempts rng).execute fn drawn s).calls
    (∀ (k : ℕ) (w : PyFloat), waits[k]? = some w → ∃ q, w = .finite q ∧
      (1 - b.jitter) * min (b.base * b.multiplier ^ k) b.cap ≤ q ∧
      q ≤ (1 + b.jitter) * min (b.base * b.multiplier ^ k) b.cap) ∧
    (1 + b.jitter < b.multiplier * (1 - b.jitter) →
      ∀ (k : ℕ) (q q' : ℚ), waits[k]? = some (.finite q) →
        waits[k + 1]? = some (.finite q') →
        b.base * b.multiplier ^ (k + 1) ≤ b.cap → q < q') := by
  intro waits
  obtain ⟨n, u, -, hwaits⟩ := sleeps_rational b maxAttempts rng fn drawn s
  have hwait : ∀ (k : ℕ) (w : PyFloat), waits[k]? = some w →
      w = .finite (b.wait k (u k).val) := by
    intro k w hw
    have hw : ((List.range n).map fun k => PyFloat.finite (b.wait k (u k).val))[k]? =
        some w := hwaits ▸ hw
    rw [List.getElem?_map, Option.map_eq_some_iff] at hw
    obtain ⟨i, hi, rfl⟩ := hw
    obtain ⟨hk, rfl⟩ := List.getElem?_eq_some_iff.mp hi
    rw [List.getElem_range]
  refine ⟨?_, ?_⟩
  · intro k w hw
    have hnominal := (Backoff.nominal_pos hbase hmultiplier hcap k).le
    exact ⟨_, hwait k w hw,
      Backoff.wait_band hjitter (u k).nonneg (u k).le_one hone.le hnominal⟩
  · intro hapart k q q' hq hq' huncapped
    obtain rfl := PyFloat.finite.inj (hwait k _ hq)
    obtain rfl := PyFloat.finite.inj (hwait (k + 1) _ hq')
    exact Backoff.wait_lt_wait hbase hmultiplier hcap hjitter hone.le hapart huncapped
      ⟨(u k).nonneg, (u k).le_one⟩ ⟨(u (k + 1)).nonneg, (u (k + 1)).le_one⟩

/-- With the defaults, the second wait of a call is longer than the first one:
here the first draw is 1 and the second one 0. -/
theorem default_waits_grow :
    let rng : ℕ → Draw := fun n => if n = 0 then Draw.one else ⟨0, le_rfl, zero_le_one⟩
    sleeps ((rationalPolicy ⟨1 / 2, 2, 30, 1 / 4⟩ 3 rng).execute alwaysTimesOut 0 ()).calls =
        [.finite (5 / 8), .finite (3 / 4)] ∧ (5 / 8 : ℚ) < 3 / 4 := by
  intro rng
  have hwaits : sleeps ((rationalPolicy ⟨1 / 2, 2, 30, 1 / 4⟩ 3 rng).execute alwaysTimesOut
      0 ()).calls = [.finite (5 / 8), .finite (3 / 4)] := by
    decide +kernel
  have hshape := jitter_keeps_shape (b := ⟨1 / 2, 2, 30, 1 / 4⟩) (by norm_num) (by norm_num)
    (by norm_num) (by norm_num) (by norm_num) 3 rng alwaysTimesOut 0 ()
  exact ⟨hwaits, hshape.2 (by norm_num) 0 (5 / 8) (3 / 4) (by rw [hwaits]; rfl)
    (by rw [hwaits]; rfl) (by norm_num)⟩

end OrderPipeline

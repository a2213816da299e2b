import OrderPipeline.Consumer
import OrderPipeline.RetryTrace

/-!
# The attempt count that is reported

The outcome of a failure does not carry the loop counter: its attempt count is
rebuilt from the classification of the last error, and a permanent error counts
as one attempt.  So the outcome, and with it the `x-retry-count` header, reports
the effort spent unless a permanent error came after transient ones
(`reported_effort_iff`).
-/

namespace OrderPipeline

/-- The outcome reports the number of invocations, and so does the retry header
of the record that `main` publishes for a failed message. -/
def ReportsEffort (calls : List Call) (outcome : RetryOutcome) : Prop :=
  outcome.attempts = (invocations calls).length ∧
    ∀ dlqTopic m order failedAt r, outcome.succeeded = false →
      dlqRecordOf dlqTopic m order outcome failedAt = .ok r →
      r.headers.lookup hdrRetryCount =
        some (PyStr.encodeString (toString ((invocations calls).length : ℤ)))

/-- A permanent error within the budget comes after transient ones. -/
def PermanentAfterTransient (results : ℕ → Except Exn Unit) (budget : ℕ) : Prop :=
  ∃ k, 1 ≤ k ∧ k < budget ∧ (∀ i < k, transient (results i) = true) ∧
    permanent (results k) = true

/-- The header follows the attempt count of the outcome. -/
theorem reportsEffort_iff {calls : List Call} {outcome : RetryOutcome} :
    ReportsEffort calls outcome ↔ outcome.attempts = (invocations calls).length := by
  refine ⟨And.left, fun hattempts => ⟨hattempts, ?_⟩⟩
  intro dlqTopic m order failedAt r _ hrecord
  rw [← hattempts]
  exact buildRecord_retryCount hrecord

section Returned

variable {S : Type} {policy : RetryPolicy} {fn : S → Except Exn Unit × S}
  {drawn last : ℕ} {s : S} {e : Execution S} {delays : ℕ → PyFloat} {draws : ℕ → ℕ}

/-- No result is both. -/
theorem not_transient_of_permanent {r : Except Exn Unit} (h : permanent r = true) :
    transient r = false := by
  cases r with
  | ok _ => cases h
  | error exc =>
      have hkind : classify exc = .permanent := by simpa [permanent] using h
      simp [transient, hkind]

/-- Only the last result of a course can be permanent, so it comes after a transient one
exactly if there was more than one invocation. -/
theorem Course.permanentAfterTransient_iff
    (hcourse : Course policy fn policy.maxAttempts.toNat 1 drawn s e last delays draws)
    (hback : policy.BackoffReturns) :
    PermanentAfterTransient (resultAt fn s) policy.maxAttempts.toNat ↔
      1 ≤ last ∧ permanent (resultAt fn s last) = true := by
  constructor
  · rintro ⟨k, hpositive, hwithin, hbefore, hpermanent⟩
    have hother := not_transient_of_permanent hpermanent
    rcases Nat.lt_trichotomy k last with hlt | rfl | hgt
    · rw [hcourse.transient_before k hlt] at hother
      cases hother
    · exact ⟨hpositive, hpermanent⟩
    · -- a transient last result has spent the budget, so `k` is beyond it
      have htransient := hbefore last hgt
      rcases hcourse.returned hback with ⟨hok, -⟩ | ⟨exc, hexc, hkind | hspent, -⟩
      · rw [hok] at htransient
        cases htransient
      · rw [hexc] at htransient
        simp [transient, hkind] at htransient
      · omega
  · rintro ⟨hpositive, hpermanent⟩
    exact ⟨last, hpositive, hcourse.within, hcourse.transient_before, hpermanent⟩

end Returned

/-- **The reported effort.**  With a positive budget and a backoff that returns,
`execute` reports the number of invocations exactly when no permanent error comes
after transient ones. -/
theorem reported_effort_iff {S : Type} {policy : RetryPolicy}
    (hbudget : 1 ≤ policy.maxAttempts) (hback : policy.BackoffReturns)
    (fn : S → Except Exn Unit × S) (drawn : ℕ) (s : S) :
    ∃ outcome, (policy.execute fn drawn s).result = .ok outcome ∧
      (ReportsEffort (policy.execute fn drawn s).calls outcome ↔
        ¬PermanentAfterTransient (resultAt fn s) policy.maxAttempts.toNat) := by
  obtain ⟨last, delays, draws, hcourse⟩ := policy.execute_course fn hbudget drawn s
  have hwithin := hcourse.within
  rcases hcourse.returned hback with ⟨hok, hresult⟩ | ⟨exc, hexc, hends, hresult⟩
  · refine ⟨_, hresult, ?_⟩
    rw [reportsEffort_iff, hcourse.invocations_length,
      hcourse.permanentAfterTransient_iff hback, hok]
    refine iff_of_true ?_ (fun h => Bool.false_ne_true h.2)
    show ((1 + last : ℕ) : ℤ) = (last + 1 : ℕ)
    omega
  · refine ⟨_, hresult, ?_⟩
    rw [reportsEffort_iff, hcourse.invocations_length,
      hcourse.permanentAfterTransient_iff hback, hexc]
    cases hkind : classify exc with
    | permanent =>
        have hone : (policy.failure (some exc)).attempts = 1 := by
          simp [RetryPolicy.failure, hkind]
        have hpermanent : permanent (.error exc) = true := by simp [permanent, hkind]
        rw [hone]
        simp only [hpermanent, and_true]
        omega
    | transient =>
        have hspent : last + 1 = policy.maxAttempts.toNat := by
          rcases hends with hpermanent | hspent
          · rw [hkind] at hpermanent
            cases hpermanent
          · exact hspent
        have hall : (policy.failure (some exc)).attempts = policy.maxAttempts := by
          simp [RetryPolicy.failure, hkind]
        have hpermanent : permanent (.error exc) = false := by simp [permanent, hkind]
        refine iff_of_true (by rw [hall]; omega) ?_
        rintro ⟨-, h⟩
        rw [hpermanent] at h
        cases h

/-- Two transient errors and a success: the effort of three is reported. -/
theorem recovered_effort_reported :
    let policy : RetryPolicy := { rng := fun _ => Draw.half }
    let fn := scripted [.error (transientError "a"), .error (transientError "b")]
    ∃ outcome, (policy.execute fn 0 0).result = .ok outcome ∧
      ReportsEffort (policy.execute fn 0 0).calls outcome := by
  intro policy fn
  have hback : policy.BackoffReturns := backoffReturns_doubling rfl (by decide)
  obtain ⟨outcome, hresult, hreports⟩ := reported_effort_iff (by decide) hback fn 0 0
  refine ⟨outcome, hresult, hreports.mpr ?_⟩
  rintro ⟨k, hpositive, hwithin, -, hpermanent⟩
  have hthree : k < 3 := hwithin
  obtain rfl | rfl : k = 1 ∨ k = 2 := by omega
  · cases hpermanent
  · cases hpermanent

/-- A transient error and then a permanent one: two invocations, and the outcome
reports one. -/
theorem permanent_after_transient_reports_one :
    let policy : RetryPolicy := { rng := fun _ => Draw.half }
    let fn := scripted [.error (transientError "a"), .error (permanentError "b")]
    let e := policy.execute fn 0 0
    (invocations e.calls).length = 2 ∧
      ∃ outcome, e.result = .ok outcome ∧ outcome.attempts = 1 ∧
        ¬ReportsEffort e.calls outcome := by
  intro policy fn e
  have hlength : (invocations e.calls).length = 2 := by decide +kernel
  refine ⟨hlength, policy.failure (some (permanentError "b")), by decide +kernel, rfl, ?_⟩
  rintro ⟨hattempts, -⟩
  rw [hlength] at hattempts
  cases hattempts

end OrderPipeline

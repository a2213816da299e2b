import OrderPipeline.Ledger
import OrderPipeline.RetryTrace

/-!
# One unit of work with the failure simulator

What `execute(process)` does to an order is a function of the order, the budget,
the threshold of the simulator and the attempts counted so far for the order id:
`unitEffect` gives the outcome, the number of invocations and the number of
attempts that the simulator counts.  `attempt_effect` proves it of the retry
loop, unless the backoff overflows; `Overflows` says when that happens.
-/

namespace OrderPipeline

/-- What one call of `execute` does to an order. -/
structure UnitEffect where
  outcome : RetryOutcome
  invocations : ℕ
  counted : ℕ

/-- The invocations after which a FLAKY order gets through. -/
def attemptsToRecover (flakyAttemptsNeeded : ℤ) (seen : ℕ) : ℕ :=
  (flakyAttemptsNeeded - seen).toNat + 1

/-- The effect of `execute(process)`, by the kind of the order. -/
def unitEffect (policy : RetryPolicy) (flakyAttemptsNeeded : ℤ) (order : Order)
    (seen : ℕ) : UnitEffect :=
  let budget := policy.maxAttempts.toNat
  if budget = 0 then ⟨policy.failure none, 0, 0⟩
  else
    match validate order with
    | .error exc => ⟨policy.failure (some exc), 1, 0⟩
    | .ok () =>
      if order.product = some poisonProduct then
        ⟨policy.failure (some FailureSimulator.poisonError), 1, 0⟩
      else if order.product = some flakyProduct then
        let needed := attemptsToRecover flakyAttemptsNeeded seen
        if needed ≤ budget then ⟨RetryPolicy.success needed, needed, needed⟩
        else
          ⟨policy.failure (some
            (FailureSimulator.flakyError (seen + budget) flakyAttemptsNeeded)),
            budget, budget⟩
      else ⟨RetryPolicy.success 1, 1, 0⟩

/-- Whether `validate` lets an order pass. -/
def Order.passes (order : Order) : Bool :=
  match validate order with
  | .ok () => true
  | .error _ => false

/-- The simulator after counting attempts; it is touched only if there are any. -/
def FailureSimulator.countIfAny (sim : FailureSimulator) (orderId : String) (n : ℕ) :
    FailureSimulator :=
  if n = 0 then sim else sim.count orderId n

/-! ## The kinds of orders -/

/-- `validate` raises nothing but `ValidationError`. -/
theorem validate_error_text {order : Order} {exc : Exn}
    (h : validate order = .error exc) : ∃ text, exc = validationError text := by
  unfold validate at h
  split at h
  · cases h
    exact ⟨_, rfl⟩
  · split at h
    · cases h
      exact ⟨_, rfl⟩
    · split at h
      · cases h
        exact ⟨_, rfl⟩
      · split at h
        · cases h
          exact ⟨_, rfl⟩
        · cases h

/-- Whatever `validate` finds, a further attempt would find again. -/
theorem validate_error_permanent {order : Order} {exc : Exn}
    (h : validate order = .error exc) : classify exc = .permanent := by
  obtain ⟨text, rfl⟩ := validate_error_text h
  rfl

/-- The decidable form of the checks. -/
theorem passes_iff {order : Order} : order.passes = true ↔ validate order = .ok () := by
  unfold Order.passes
  cases h : validate order with
  | error exc => simp
  | ok _ => simp

/-- Enough attempts are left exactly when the threshold is within them. -/
theorem attemptsToRecover_le_iff {flakyAttemptsNeeded maxAttempts : ℤ} {seen : ℕ}
    (hbudget : 1 ≤ maxAttempts) :
    attemptsToRecover flakyAttemptsNeeded seen ≤ maxAttempts.toNat ↔
      flakyAttemptsNeeded < seen + maxAttempts := by
  unfold attemptsToRecover
  omega

/-- Which orders succeed within the budget: those that pass the checks, are no POISON,
and need no more attempts than there are. -/
theorem unitEffect_succeeded_iff {policy : RetryPolicy} (hbudget : 1 ≤ policy.maxAttempts)
    (flakyAttemptsNeeded : ℤ) (order : Order) (seen : ℕ) :
    (unitEffect policy flakyAttemptsNeeded order seen).outcome.succeeded = true ↔
      order.passes = true ∧ order.product ≠ some poisonProduct ∧
        (order.product = some flakyProduct →
          flakyAttemptsNeeded < seen + policy.maxAttempts) := by
  have hpositive : policy.maxAttempts.toNat ≠ 0 := by omega
  have hpoison : ¬flakyProduct = poisonProduct := by decide
  have hfailure : ∀ error, (policy.failure error).succeeded = false := fun _ => rfl
  unfold unitEffect
  simp only [hpositive, if_false]
  cases hvalid : validate order with
  | error exc => simp [Order.passes, hvalid, hfailure]
  | ok _ =>
      have hpasses : order.passes = true := passes_iff.mpr hvalid
      by_cases hproduct : order.product = some poisonProduct
      · simp [hproduct, hfailure]
      · by_cases hflaky : order.product = some flakyProduct
        · rw [← attemptsToRecover_le_iff hbudget]
          by_cases henough : attemptsToRecover flakyAttemptsNeeded seen ≤
              policy.maxAttempts.toNat
          · simp [hflaky, hpoison, henough, hpasses, RetryPolicy.success]
          · simp [hflaky, hpoison, henough, hfailure]
        · simp [hproduct, hflaky, hpasses, RetryPolicy.success]

/-- Only the attempts of a valid FLAKY order are counted, up to its recovery or to the
end of the budget. -/
theorem unitEffect_counted {policy : RetryPolicy} (hbudget : 1 ≤ policy.maxAttempts)
    (flakyAttemptsNeeded : ℤ) (order : Order) (seen : ℕ) :
    (unitEffect policy flakyAttemptsNeeded order seen).counted =
      if order.passes = true ∧ order.product = some flakyProduct then
        min (attemptsToRecover flakyAttemptsNeeded seen) policy.maxAttempts.toNat
      else 0 := by
  have hpositive : policy.maxAttempts.toNat ≠ 0 := by omega
  have hpoison : ¬flakyProduct = poisonProduct := by decide
  have hpoison' : ¬poisonProduct = flakyProduct := by decide
  unfold unitEffect
  simp only [hpositive, if_false]
  cases hvalid : validate order with
  | error exc => simp [Order.passes, hvalid]
  | ok _ =>
      have hpasses : order.passes = true := passes_iff.mpr hvalid
      by_cases hproduct : order.product = some poisonProduct
      · simp [hproduct, hpoison']
      · by_cases hflaky : order.product = some flakyProduct
        · by_cases henough : attemptsToRecover flakyAttemptsNeeded seen ≤
              policy.maxAttempts.toNat
          · simp [hflaky, hpoison, henough, hpasses]
          · have hmin : min (attemptsToRecover flakyAttemptsNeeded seen)
                policy.maxAttempts.toNat = policy.maxAttempts.toNat :=
              min_eq_right (by omega)
            simp [hflaky, hpoison, henough, hpasses, hmin]
        · simp [hproduct, hflaky]

section Kinds

variable {order : Order} (w : Work FailureSimulator)

/-- An order that fails a check reaches neither the side effect nor the aggregator. -/
theorem process_rejected {exc : Exn} (h : validate order = .error exc) :
    process FailureSimulator.process order w = (.error exc, w) := by
  unfold process
  rw [h]

/-- A poison order that passes the checks fails in the side effect, before the
aggregator. -/
theorem process_of_poison (hvalid : validate order = .ok ())
    (hpoison : order.product = some poisonProduct) :
    process FailureSimulator.process order w =
      (.error FailureSimulator.poisonError, w) := by
  unfold process
  rw [hvalid]
  simp only [FailureSimulator.process_poison hpoison]

/-- An attempt of a FLAKY order within the threshold fails and is counted. -/
theorem process_of_flaky_failing (hvalid : validate order = .ok ())
    (hflaky : order.product = some flakyProduct)
    (hseen : (w.effect.seen (FailureSimulator.keyOf order) + 1 : ℤ) ≤
      w.effect.flakyAttemptsNeeded) :
    process FailureSimulator.process order w =
      (.error (FailureSimulator.flakyError
          (w.effect.seen (FailureSimulator.keyOf order) + 1) w.effect.flakyAttemptsNeeded),
        { w with effect := w.effect.count (FailureSimulator.keyOf order) 1 }) := by
  unfold process
  rw [hvalid]
  simp only [FailureSimulator.process_flaky hflaky, Nat.cast_add, Nat.cast_one, hseen,
    if_true]

/-- An attempt beyond the threshold succeeds and is counted. -/
theorem process_of_flaky_recovered (hvalid : validate order = .ok ())
    (hflaky : order.product = some flakyProduct)
    (hseen : ¬(w.effect.seen (FailureSimulator.keyOf order) + 1 : ℤ) ≤
      w.effect.flakyAttemptsNeeded) :
    ∃ w', process FailureSimulator.process order w = (.ok (), w') ∧
      w'.effect = w.effect.count (FailureSimulator.keyOf order) 1 := by
  rcases process_cases FailureSimulator.process order w with
    ⟨exc, hexc, -⟩ | ⟨-, product, price, -, -, ⟨exc, effect, hside, -⟩ | ⟨effect, hside, h⟩⟩
  · rw [hvalid] at hexc
    cases hexc
  · rw [FailureSimulator.process_flaky hflaky] at hside
    simp [hseen] at hside
  · rw [FailureSimulator.process_flaky hflaky] at hside
    simp only [Prod.mk.injEq] at hside
    exact ⟨_, h, hside.2.symm⟩

/-- An order that is neither poison nor flaky is aggregated at its first attempt, and
the counts of the simulator stay. -/
theorem process_of_plain (hvalid : validate order = .ok ())
    (hpoison : order.product ≠ some poisonProduct)
    (hflaky : order.product ≠ some flakyProduct) :
    ∃ w', process FailureSimulator.process order w = (.ok (), w') ∧
      w'.effect = w.effect := by
  have hplain := FailureSimulator.process_other hpoison hflaky w.effect
  rcases process_cases FailureSimulator.process order w with
    ⟨exc, hexc, -⟩ | ⟨-, product, price, -, -, ⟨exc, effect, hside, -⟩ | ⟨effect, hside, h⟩⟩
  · rw [hvalid] at hexc
    cases hexc
  · rw [hplain] at hside
    cases hside
  · rw [hplain] at hside
    cases hside
    exact ⟨_, h, rfl⟩

end Kinds

/-! ## The retry loop on a FLAKY order -/

/-- The loop asks for the backoff after attempt `n`: it fails and is not the
last one. -/
def BacksOff (attempt remaining needed n : ℕ) : Prop :=
  attempt ≤ n ∧ n + 1 < attempt + needed ∧ n + 1 < attempt + remaining

/-- What `executeFrom` does to a FLAKY order: a backoff that it asks for raises,
or every attempt is counted and the loop gets through or is exhausted. -/
def FlakyEffect (policy : RetryPolicy) (order : Order) (attempt remaining : ℕ)
    (w : Work FailureSimulator) (e : Execution (Work FailureSimulator)) : Prop :=
  let key := FailureSimulator.keyOf order
  let needed := attemptsToRecover w.effect.flakyAttemptsNeeded (w.effect.seen key)
  (∃ n drawn escaping, BacksOff attempt remaining needed n ∧
      policy.backoffFor n drawn = .error escaping ∧ e.result = .error escaping) ∨
    (∀ n, BacksOff attempt remaining needed n →
        ∃ drawn value, policy.backoffFor n drawn = .ok value) ∧
      e.result = .ok (if needed ≤ remaining then RetryPolicy.success (attempt + needed - 1)
        else policy.failure (some (FailureSimulator.flakyError
          (w.effect.seen key + remaining) w.effect.flakyAttemptsNeeded))) ∧
      e.state.effect = w.effect.count key (min needed remaining) ∧
      (invocations e.calls).length = min needed remaining

section Flaky

variable (policy : RetryPolicy) {order : Order} (hvalid : validate order = .ok ())
  (hflaky : order.product = some flakyProduct)

include hvalid hflaky

/-- Invocation `i`, counted from 0, fails unless it is the first one beyond the
threshold, and it is counted.  The induction is on the invocations before. -/
theorem flaky_invocation (i : ℕ) (w : Work FailureSimulator)
    (hi : i < attemptsToRecover w.effect.flakyAttemptsNeeded
      (w.effect.seen (FailureSimulator.keyOf order))) :
    resultAt (process FailureSimulator.process order) w i =
        (if i + 1 = attemptsToRecover w.effect.flakyAttemptsNeeded
            (w.effect.seen (FailureSimulator.keyOf order)) then .ok ()
          else .error (FailureSimulator.flakyError
            (w.effect.seen (FailureSimulator.keyOf order) + (i + 1))
            w.effect.flakyAttemptsNeeded)) ∧
      (stateAfter (process FailureSimulator.process order) w (i + 1)).effect =
        w.effect.count (FailureSimulator.keyOf order) (i + 1) := by
  obtain ⟨key, hkey⟩ : ∃ key, FailureSimulator.keyOf order = key := ⟨_, rfl⟩
  induction i generalizing w with
  | zero =>
      by_cases hseen : (w.effect.seen (FailureSimulator.keyOf order) + 1 : ℤ) ≤
          w.effect.flakyAttemptsNeeded
      · have hfn := process_of_flaky_failing w hvalid hflaky hseen
        have hmore : ¬0 + 1 = attemptsToRecover w.effect.flakyAttemptsNeeded
            (w.effect.seen (FailureSimulator.keyOf order)) := by
          unfold attemptsToRecover
          omega
        rw [resultAt_zero hfn, stateAfter_succ hfn, if_neg hmore]
        exact ⟨rfl, rfl⟩
      · obtain ⟨w', hfn, hw'⟩ := process_of_flaky_recovered w hvalid hflaky hseen
        have hfirst : 0 + 1 = attemptsToRecover w.effect.flakyAttemptsNeeded
            (w.effect.seen (FailureSimulator.keyOf order)) := by
          unfold attemptsToRecover
          omega
        rw [resultAt_zero hfn, stateAfter_succ hfn, if_pos hfirst]
        exact ⟨rfl, hw'⟩
  | succ i ih =>
      rw [hkey] at hi ⊢
      have hseen : (w.effect.seen key + 1 : ℤ) ≤ w.effect.flakyAttemptsNeeded := by
        unfold attemptsToRecover at hi
        omega
      have hneeded : attemptsToRecover w.effect.flakyAttemptsNeeded (w.effect.seen key) =
          attemptsToRecover w.effect.flakyAttemptsNeeded (w.effect.seen key + 1) + 1 := by
        unfold attemptsToRecover
        push_cast
        omega
      have hfn := process_of_flaky_failing w hvalid hflaky (hkey ▸ hseen)
      have hrest := ih { w with effect := w.effect.count key 1 }
      simp only [hkey, FailureSimulator.seen_count_self,
        FailureSimulator.count_flakyAttemptsNeeded] at hfn hrest
      obtain ⟨hresult, hstate⟩ := hrest (by omega)
      have hnumber : w.effect.seen key + 1 + (i + 1) = w.effect.seen key + (i + 1 + 1) := by
        omega
      rw [resultAt_succ hfn, stateAfter_succ hfn, hresult, hstate, hneeded, hnumber,
        FailureSimulator.count_count, Nat.add_comm 1 (i + 1)]
      simp only [Nat.add_right_cancel_iff, and_true]

/-- No invocation follows the first one beyond the threshold. -/
theorem Course.last_lt_attemptsToRecover {policy : RetryPolicy}
    {remaining attempt drawn last : ℕ} {w : Work FailureSimulator}
    {e : Execution (Work FailureSimulator)} {delays : ℕ → PyFloat} {draws : ℕ → ℕ}
    (hcourse : Course policy (process FailureSimulator.process order) remaining attempt drawn
      w e last delays draws) :
    last < attemptsToRecover w.effect.flakyAttemptsNeeded
      (w.effect.seen (FailureSimulator.keyOf order)) := by
  have hneeded : 0 < attemptsToRecover w.effect.flakyAttemptsNeeded
      (w.effect.seen (FailureSimulator.keyOf order)) := Nat.succ_pos _
  have hinvocation := fun i => flaky_invocation hvalid hflaky i w
  generalize attemptsToRecover w.effect.flakyAttemptsNeeded
    (w.effect.seen (FailureSimulator.keyOf order)) = needed at hinvocation hneeded ⊢
  by_contra hbeyond
  have hok := (hinvocation (needed - 1) (by omega)).1
  have htransient := hcourse.transient_before (needed - 1) (by omega)
  rw [hok, if_pos (by omega)] at htransient
  cases htransient

/-- **A FLAKY order in the retry loop**, read off the course of the call: the invocation
beyond the threshold, if the budget reaches it, is the last one. -/
theorem executeFrom_flaky (attempt : ℕ) (lastExc : Option Exn) (drawn : ℕ)
    (w : Work FailureSimulator) (remaining : ℕ) (hpositive : 0 < remaining)
    (hbudget : (attempt + remaining : ℤ) = policy.maxAttempts + 1) :
    FlakyEffect policy order attempt remaining w
      (policy.executeFrom (process FailureSimulator.process order) remaining attempt
        lastExc drawn w) := by
  obtain ⟨last, delays, draws, hcourse⟩ := policy.executeFrom_course
    (process FailureSimulator.process order) remaining attempt lastExc drawn w hpositive
    hbudget
  have hwithin := hcourse.within
  have hrecovers := hcourse.last_lt_attemptsToRecover hvalid hflaky
  obtain ⟨hresult, hstate⟩ := flaky_invocation hvalid hflaky last w hrecovers
  have hlength := hcourse.invocations_length
  have hcounted := hcourse.state ▸ hstate
  simp only [FlakyEffect]
  generalize attemptsToRecover w.effect.flakyAttemptsNeeded
    (w.effect.seen (FailureSimulator.keyOf order)) = needed at hrecovers hresult ⊢
  have hbacks : last + 1 = min needed remaining → ∀ n, BacksOff attempt remaining needed n →
      ∃ drawn value, policy.backoffFor n drawn = .ok value := by
    rintro hstop n ⟨hn, hneeded, hremaining⟩
    exact hcourse.backoff_returns hn (by omega)
  rcases hcourse.wayOut with ⟨hok, hout⟩ | ⟨exc, hexc, hends, hout⟩ |
    ⟨exc, escaping, hexc, -, hbefore, hescapes, hout⟩
  · have henough : last + 1 = needed := by
      by_contra hmore
      rw [hok, if_neg hmore] at hresult
      cases hresult
    have hstop : last + 1 = min needed remaining := by omega
    refine Or.inr ⟨hbacks hstop, ?_, hstop ▸ hcounted, hlength.trans hstop⟩
    rw [hout, if_pos (by omega), ← henough, Nat.add_succ_sub_one]
  · have hmore : ¬last + 1 = needed := by
      intro henough
      rw [hexc, if_pos henough] at hresult
      cases hresult
    rw [hexc, if_neg hmore] at hresult
    obtain rfl := Except.error.inj hresult
    have hspent : last + 1 = remaining := hends.resolve_left (by intro h; cases h)
    have hstop : last + 1 = min needed remaining := by omega
    refine Or.inr ⟨hbacks hstop, ?_, hstop ▸ hcounted, hlength.trans hstop⟩
    rw [hout, if_neg (by omega), hspent]
  · have hmore : ¬last + 1 = needed := by
      intro henough
      rw [hexc, if_pos henough] at hresult
      cases hresult
    exact Or.inl ⟨attempt + last, draws last, escaping, ⟨by omega, by omega, by omega⟩,
      hescapes, hout⟩

end Flaky

/-! ## The whole unit of work of `main` -/

/-- The retries of an order run into the overflow: it is FLAKY, and it is still
failing, with attempts left, when the power leaves the float range. -/
def Overflows (maxAttempts flakyAttemptsNeeded : ℤ) (order : Order) (seen : ℕ) : Prop :=
  validate order = .ok () ∧ order.product = some flakyProduct ∧
    1025 < maxAttempts ∧ (seen + 1025 : ℤ) ≤ flakyAttemptsNeeded

/-- What `execute(process)` does when it returns. -/
structure HasEffect (e : Execution (Work FailureSimulator)) (sim : FailureSimulator)
    (orderId : String) (u : UnitEffect) : Prop where
  result : e.result = .ok u.outcome
  effect : e.state.effect = sim.countIfAny orderId u.counted
  invocations : (invocations e.calls).length = u.invocations

/-- The outcome and the counters of a FLAKY order, and when it overflows: it needs a
wait that `backoff_for` cannot compute. -/
theorem execute_flaky_effect {policy : RetryPolicy}
    (hdouble : policy.multiplier = .finite 2) {order : Order}
    (hvalid : validate order = .ok ()) (hflaky : order.product = some flakyProduct)
    (hbudget : 0 < policy.maxAttempts.toNat) (drawn : ℕ) (w : Work FailureSimulator)
    {seen : ℕ} (hseen : w.effect.seen (FailureSimulator.keyOf order) = seen) :
    let e := policy.execute (process FailureSimulator.process order) drawn w
    (Overflows policy.maxAttempts w.effect.flakyAttemptsNeeded order seen ∧
        e.result = .error overflowError) ∨
      (¬Overflows policy.maxAttempts w.effect.flakyAttemptsNeeded order seen ∧
        HasEffect e w.effect (FailureSimulator.keyOf order)
          (unitEffect policy w.effect.flakyAttemptsNeeded order seen)) := by
  intro e
  have hrun := executeFrom_flaky policy hvalid hflaky 1 none drawn w
    policy.maxAttempts.toNat hbudget (by push_cast; omega)
  simp only [FlakyEffect, hseen] at hrun
  rcases hrun with ⟨n, d, escaping, ⟨hn, hlt, hlt'⟩, hback, hresult⟩ |
    ⟨hbacks, hresult, heffect, hlength⟩
  · obtain ⟨hlarge, rfl⟩ := overflow_of_backoff_error hdouble hback
    unfold attemptsToRecover at hlt
    exact Or.inl ⟨⟨hvalid, hflaky, by omega, by omega⟩, hresult⟩
  · refine Or.inr ⟨?_, ?_⟩
    · rintro ⟨-, -, hlarge, hthreshold⟩
      have hbacksOff : BacksOff 1 policy.maxAttempts.toNat
          (attemptsToRecover w.effect.flakyAttemptsNeeded seen) 1025 := by
        unfold BacksOff attemptsToRecover
        omega
      obtain ⟨d, value, hok⟩ := hbacks 1025 hbacksOff
      exact absurd (lt_of_backoff_ok hdouble hok) (lt_irrefl 1025)
    · have hpoison : ¬flakyProduct = poisonProduct := by decide
      have hneeded : attemptsToRecover w.effect.flakyAttemptsNeeded seen ≠ 0 := by
        unfold attemptsToRecover
        omega
      have hone : ∀ n, 1 + n - 1 = n := by omega
      simp only [hone] at hresult
      simp only [unitEffect, hbudget.ne', if_false, hvalid, hflaky, Option.some.injEq,
        hpoison, if_true]
      by_cases henough : attemptsToRecover w.effect.flakyAttemptsNeeded seen ≤
          policy.maxAttempts.toNat
      · rw [if_pos henough] at hresult ⊢
        rw [min_eq_left henough] at heffect hlength
        refine ⟨hresult, heffect.trans ?_, hlength⟩
        simp [FailureSimulator.countIfAny, hneeded]
      · rw [if_neg henough] at hresult ⊢
        rw [min_eq_right (by omega)] at heffect hlength
        refine ⟨hresult, heffect.trans ?_, hlength⟩
        simp [FailureSimulator.countIfAny, hbudget.ne']

/-- **One unit of work.**  `execute(process)` has exactly the effect that
`unitEffect` computes, unless the backoff overflows. -/
theorem execute_process_effect {policy : RetryPolicy}
    (hdouble : policy.multiplier = .finite 2) (order : Order) (drawn : ℕ)
    (w : Work FailureSimulator) {seen : ℕ}
    (hseen : w.effect.seen (FailureSimulator.keyOf order) = seen) :
    let e := policy.execute (process FailureSimulator.process order) drawn w
    (Overflows policy.maxAttempts w.effect.flakyAttemptsNeeded order seen ∧
        e.result = .error overflowError) ∨
      (¬Overflows policy.maxAttempts w.effect.flakyAttemptsNeeded order seen ∧
        HasEffect e w.effect (FailureSimulator.keyOf order)
          (unitEffect policy w.effect.flakyAttemptsNeeded order seen)) := by
  intro e
  by_cases hbudget : policy.maxAttempts.toNat = 0
  · have he : e = ⟨.ok (policy.failure none), w, drawn, []⟩ :=
      policy.execute_without_budget _ (by omega) drawn w
    refine Or.inr ⟨?_, ?_⟩
    · rintro ⟨-, -, hlarge, -⟩
      omega
    · rw [he]
      simp only [unitEffect, hbudget, if_true]
      exact ⟨rfl, rfl, rfl⟩
  obtain ⟨remaining, he⟩ : ∃ remaining, e = policy.executeFrom
      (process FailureSimulator.process order) (remaining + 1) 1 none drawn w := by
    obtain ⟨remaining, -, he⟩ := policy.execute_with_budget
      (process FailureSimulator.process order) (by omega) drawn w
    exact ⟨remaining, he⟩
  cases hvalid : validate order with
  | error exc =>
      refine Or.inr ⟨?_, ?_⟩
      · rintro ⟨hok, -⟩
        rw [hvalid] at hok
        cases hok
      · rw [he, policy.executeFrom_permanent _ (process_rejected w hvalid)
          (validate_error_permanent hvalid)]
        simp only [unitEffect, hbudget, if_false, hvalid]
        exact ⟨rfl, rfl, rfl⟩
  | ok _ =>
      by_cases hflaky : order.product = some flakyProduct
      · exact execute_flaky_effect hdouble hvalid hflaky (by omega) drawn w hseen
      have hnone : ¬Overflows policy.maxAttempts w.effect.flakyAttemptsNeeded order seen :=
        fun hoverflows => hflaky hoverflows.2.1
      by_cases hpoison : order.product = some poisonProduct
      · refine Or.inr ⟨hnone, ?_⟩
        rw [he, policy.executeFrom_permanent _ (process_of_poison w hvalid hpoison) rfl]
        simp only [unitEffect, hbudget, if_false, hvalid, hpoison, if_true]
        exact ⟨rfl, rfl, rfl⟩
      · refine Or.inr ⟨hnone, ?_⟩
        obtain ⟨w', hfn, hw'⟩ := process_of_plain w hvalid hpoison hflaky
        rw [he, policy.executeFrom_ok _ hfn]
        simp only [unitEffect, hbudget, if_false, hvalid, hpoison, hflaky]
        exact ⟨rfl, hw', rfl⟩

/-- One unit of work in `main`. -/
theorem attempt_effect (args : Args) (rng : ℕ → Draw) (dlqTopic : String) (order : Order)
    (c : Consumer FailureSimulator)
    (hneeded : c.work.effect.flakyAttemptsNeeded = args.flakyAttempts) :
    let e := (mainSetup args rng dlqTopic).attempt order c
    let seen := c.work.effect.seen (FailureSimulator.keyOf order)
    (Overflows args.maxAttempts args.flakyAttempts order seen ∧
        e.result = .error overflowError) ∨
      (¬Overflows args.maxAttempts args.flakyAttempts order seen ∧
        HasEffect e c.work.effect (FailureSimulator.keyOf order)
          (unitEffect (mainSetup args rng dlqTopic).policy args.flakyAttempts order
            seen)) := by
  have hdouble : (mainSetup args rng dlqTopic).policy.multiplier = .finite 2 := rfl
  rw [← hneeded]
  exact execute_process_effect hdouble order c.drawn c.work rfl

end OrderPipeline

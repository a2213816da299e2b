import OrderPipeline.Failures

/-!
# The retry policy

`consumer/retry.py`.  The callable is a function on a state `S`, so that what
one attempt leaves behind is there for the next one.  `execute` returns the
outcome, or the exception that escapes from the handler, together with the
state and the calls it made: the invocations with their results and the sleeps
with their delays.

The `for` loop is `executeFrom`, and `attemptOnce` is its body.  The rules at
the end are what the rest of the development uses of it:

* `execute_preserves` follows a property of the state through the attempts;
* `execute_outcome` relates the outcome to the last invocation.
-/

namespace OrderPipeline

/-- The two strings that `classify` returns. -/
inductive Kind
  | transient
  | permanent
  deriving DecidableEq

/-- `classify`: whether an exception is worth another attempt. -/
def classify (exc : Exn) : Kind :=
  if exc.isInstance .transientError then .transient
  else if exc.isInstance .permanentError then .permanent
  else if exc.isInstance .timeoutError || exc.isInstance .connectionError then .transient
  else .permanent

/-- `RetryOutcome`: what `execute` returns when it returns. -/
structure RetryOutcome where
  succeeded : Bool
  attempts : ℤ
  error : Option Exn := none
  classification : Option Kind := none
  deriving DecidableEq

/-- `RetryPolicy`, with the stream of values that `rng.random()` draws. -/
structure RetryPolicy where
  maxAttempts : ℤ := 3
  baseDelay : PyFloat := .finite (1 / 2)
  multiplier : PyFloat := .finite 2
  maxDelay : PyFloat := .finite 30
  jitter : PyFloat := .finite (1 / 4)
  rng : ℕ → Draw

/-- What the body of the loop decides: return, sleep and go on, or let an
exception out of the handler. -/
inductive Verdict
  | returned (outcome : RetryOutcome)
  | again (exc : Exn) (delay : PyFloat)
  | escaped (exc : Exn)

/-- One pass of the loop body: the result of `fn`, the decision, the state
`fn` left behind and the number of draws spent so far. -/
structure Attempt (S : Type) where
  result : Except Exn Unit
  verdict : Verdict
  state : S
  drawn : ℕ

/-- The visible calls of `execute`. -/
inductive Call
  | invoked (result : Except Exn Unit)
  | slept (delay : PyFloat)

/-- A call of `execute`: what it returns or raises, the state it leaves behind, the
draws that are spent, and its calls in order. -/
structure Execution (S : Type) where
  result : Except Exn RetryOutcome
  state : S
  drawn : ℕ
  calls : List Call

namespace RetryPolicy

variable {S : Type} (policy : RetryPolicy)

/-- `backoff_for`, and the number of draws spent after it. -/
def backoffFor (attempt drawn : ℕ) : Except Exn (PyFloat × ℕ) :=
  match policy.multiplier.pow (attempt - 1) with
  | none => .error overflowError
  | some factor =>
    let raw := (policy.baseDelay.mul factor).min policy.maxDelay
    if policy.jitter.truthy then
      let spread := raw.mul policy.jitter
      let drawnDelay :=
        PyFloat.uniform (raw.sub spread) (raw.add spread) (policy.rng drawn).val
      .ok ((PyFloat.finite 0).max drawnDelay, drawn + 1)
    else .ok ((PyFloat.finite 0).max raw, drawn)

/-- The outcome after the loop: the attempt count is rebuilt from the
classification of the last error. -/
def failure (lastExc : Option Exn) : RetryOutcome :=
  let kind := lastExc.map classify
  { succeeded := false
    attempts :=
      if kind = some .transient then policy.maxAttempts
      else if kind = some .permanent then 1
      else policy.maxAttempts
    error := lastExc
    classification := kind }

def success (attempt : ℕ) : RetryOutcome :=
  { succeeded := true, attempts := attempt }

variable (fn : S → Except Exn Unit × S)

/-- The body of the loop. -/
def attemptOnce (attempt drawn : ℕ) (s : S) : Attempt S :=
  match fn s with
  | (.ok (), s') => ⟨.ok (), .returned (success attempt), s', drawn⟩
  | (.error exc, s') =>
    if classify exc = .permanent then
      ⟨.error exc, .returned (policy.failure (some exc)), s', drawn⟩
    else if (attempt : ℤ) = policy.maxAttempts then
      ⟨.error exc, .returned (policy.failure (some exc)), s', drawn⟩
    else
      match policy.backoffFor attempt drawn with
      | .error escaping => ⟨.error exc, .escaped escaping, s', drawn⟩
      | .ok (delay, drawn') => ⟨.error exc, .again exc delay, s', drawn'⟩

/-- `for attempt in range(attempt, attempt + remaining)` and what follows. -/
def executeFrom : (remaining attempt : ℕ) → Option Exn → (drawn : ℕ) → S → Execution S
  | 0, _, lastExc, drawn, s => ⟨.ok (policy.failure lastExc), s, drawn, []⟩
  | remaining + 1, attempt, _, drawn, s =>
    let a := policy.attemptOnce fn attempt drawn s
    match a.verdict with
    | .returned outcome => ⟨.ok outcome, a.state, a.drawn, [.invoked a.result]⟩
    | .escaped exc => ⟨.error exc, a.state, a.drawn, [.invoked a.result]⟩
    | .again exc delay =>
      let rest := executeFrom remaining (attempt + 1) (some exc) a.drawn a.state
      { rest with calls := .invoked a.result :: .slept delay :: rest.calls }

/-- `execute`. -/
def execute (drawn : ℕ) (s : S) : Execution S :=
  policy.executeFrom fn policy.maxAttempts.toNat 1 none drawn s

/-- Without a budget `execute` invokes nothing. -/
theorem execute_without_budget (hbudget : policy.maxAttempts < 1) (drawn : ℕ) (s : S) :
    policy.execute fn drawn s = ⟨.ok (policy.failure none), s, drawn, []⟩ := by
  have hzero : policy.maxAttempts.toNat = 0 := by omega
  unfold execute
  rw [hzero]
  rfl

/-- The loop over a positive budget starts with attempt 1. -/
theorem execute_with_budget (hbudget : 1 ≤ policy.maxAttempts) (drawn : ℕ) (s : S) :
    ∃ remaining, policy.maxAttempts.toNat = remaining + 1 ∧
      policy.execute fn drawn s = policy.executeFrom fn (remaining + 1) 1 none drawn s := by
  obtain ⟨remaining, hremaining⟩ : ∃ r, policy.maxAttempts.toNat = r + 1 :=
    ⟨policy.maxAttempts.toNat - 1, by omega⟩
  refine ⟨remaining, hremaining, ?_⟩
  unfold execute
  rw [hremaining]

/-! ## One attempt -/

/-- What an attempt can do: succeed, fail for good, fail and go on, or fail
and lose the exception of `backoff_for`. -/
theorem attemptOnce_cases (attempt drawn : ℕ) (s : S) :
    (∃ s', fn s = (.ok (), s') ∧ policy.attemptOnce fn attempt drawn s =
      ⟨.ok (), .returned (success attempt), s', drawn⟩) ∨
    ∃ exc s', fn s = (.error exc, s') ∧
      ((classify exc = .permanent ∨ (attempt : ℤ) = policy.maxAttempts) ∧
          policy.attemptOnce fn attempt drawn s =
            ⟨.error exc, .returned (policy.failure (some exc)), s', drawn⟩ ∨
        (classify exc = .transient ∧ (attempt : ℤ) ≠ policy.maxAttempts) ∧
          ((∃ escaping, policy.backoffFor attempt drawn = .error escaping ∧
              policy.attemptOnce fn attempt drawn s =
                ⟨.error exc, .escaped escaping, s', drawn⟩) ∨
            ∃ delay drawn', policy.backoffFor attempt drawn = .ok (delay, drawn') ∧
              policy.attemptOnce fn attempt drawn s =
                ⟨.error exc, .again exc delay, s', drawn'⟩)) := by
  unfold attemptOnce
  rcases hfn : fn s with ⟨_ | ⟨⟨⟩⟩, s'⟩
  · rename_i exc
    refine Or.inr ⟨exc, s', rfl, ?_⟩
    by_cases hpermanent : classify exc = .permanent
    · exact Or.inl ⟨Or.inl hpermanent, by simp [hpermanent]⟩
    · have htransient : classify exc = .transient := by
        cases h : classify exc with
        | transient => rfl
        | permanent => exact absurd h hpermanent
      by_cases hlast : (attempt : ℤ) = policy.maxAttempts
      · exact Or.inl ⟨Or.inr hlast, by simp [hlast]⟩
      · refine Or.inr ⟨⟨htransient, hlast⟩, ?_⟩
        cases hback : policy.backoffFor attempt drawn with
        | error escaping =>
            exact Or.inl ⟨escaping, rfl, by simp [htransient, hlast]⟩
        | ok value =>
            obtain ⟨delay, drawn'⟩ := value
            exact Or.inr ⟨delay, drawn', rfl, by simp [htransient, hlast]⟩
  · exact Or.inl ⟨s', rfl, rfl⟩

/-- An attempt that succeeds ends the loop. -/
theorem executeFrom_ok {s s' : S} (h : fn s = (.ok (), s'))
    (remaining attempt : ℕ) (lastExc : Option Exn) (drawn : ℕ) :
    policy.executeFrom fn (remaining + 1) attempt lastExc drawn s =
      ⟨.ok (success attempt), s', drawn, [.invoked (.ok ())]⟩ := by
  simp [executeFrom, attemptOnce, h]

/-- So does a permanent error. -/
theorem executeFrom_permanent {s s' : S} {exc : Exn}
    (h : fn s = (.error exc, s')) (hkind : classify exc = .permanent)
    (remaining attempt : ℕ) (lastExc : Option Exn) (drawn : ℕ) :
    policy.executeFrom fn (remaining + 1) attempt lastExc drawn s =
      ⟨.ok (policy.failure (some exc)), s', drawn, [.invoked (.error exc)]⟩ := by
  simp [executeFrom, attemptOnce, h, hkind]

/-- A property kept by every failing invocation, and what a successful one
makes of it, decide the state after the loop. -/
theorem executeFrom_preserves {P Q : S → Prop}
    (hfail : ∀ s exc s', P s → fn s = (.error exc, s') → P s')
    (hok : ∀ s s', P s → fn s = (.ok (), s') → Q s')
    (remaining attempt : ℕ) (lastExc : Option Exn) (drawn : ℕ) {s : S} (hs : P s) :
    (∃ n, (policy.executeFrom fn remaining attempt lastExc drawn s).result =
        .ok (success n) ∧
      Q (policy.executeFrom fn remaining attempt lastExc drawn s).state) ∨
    ((∀ outcome, (policy.executeFrom fn remaining attempt lastExc drawn s).result =
        .ok outcome → outcome.succeeded = false) ∧
      P (policy.executeFrom fn remaining attempt lastExc drawn s).state) := by
  induction remaining generalizing attempt lastExc drawn s with
  | zero =>
      refine Or.inr ⟨?_, hs⟩
      intro outcome houtcome
      obtain rfl := Except.ok.inj houtcome
      rfl
  | succ remaining ih =>
      rcases policy.attemptOnce_cases fn attempt drawn s with
        ⟨s', hfn, ha⟩ | ⟨exc, s', hfn, ⟨-, ha⟩ | ⟨-, ⟨escaping, -, ha⟩ | ⟨delay, drawn', -, ha⟩⟩⟩
      · refine Or.inl ⟨attempt, ?_, ?_⟩ <;> simp only [executeFrom, ha]
        exact hok s s' hs hfn
      · refine Or.inr ⟨?_, ?_⟩ <;> simp only [executeFrom, ha]
        · intro outcome houtcome
          obtain rfl := Except.ok.inj houtcome
          rfl
        · exact hfail s exc s' hs hfn
      · refine Or.inr ⟨?_, ?_⟩ <;> simp only [executeFrom, ha]
        · intro outcome houtcome
          cases houtcome
        · exact hfail s exc s' hs hfn
      · have hrest := ih (attempt + 1) (some exc) drawn' (hfail s exc s' hs hfn)
        simpa only [executeFrom, ha] using hrest

/-- `executeFrom_preserves` for a whole call. -/
theorem execute_preserves {P Q : S → Prop}
    (hfail : ∀ s exc s', P s → fn s = (.error exc, s') → P s')
    (hok : ∀ s s', P s → fn s = (.ok (), s') → Q s')
    (drawn : ℕ) {s : S} (hs : P s) :
    (∃ n, (policy.execute fn drawn s).result = .ok (success n) ∧
      Q (policy.execute fn drawn s).state) ∨
    ((∀ outcome, (policy.execute fn drawn s).result = .ok outcome →
        outcome.succeeded = false) ∧
      P (policy.execute fn drawn s).state) :=
  policy.executeFrom_preserves fn hfail hok _ _ _ drawn hs

end RetryPolicy

/-- The results of the invocations among the calls, in order. -/
def invocations (calls : List Call) : List (Except Exn Unit) :=
  calls.filterMap fun
    | .invoked result => some result
    | .slept _ => none

@[simp] theorem invocations_nil : invocations [] = [] := rfl

@[simp] theorem invocations_invoked (r : Except Exn Unit) (calls : List Call) :
    invocations (.invoked r :: calls) = r :: invocations calls := rfl

@[simp] theorem invocations_slept (d : PyFloat) (calls : List Call) :
    invocations (.slept d :: calls) = invocations calls := rfl

/-- What an outcome says about the invocations: it is a success and the last
one succeeded, or it carries the error of the last one with its class. -/
def Concludes (policy : RetryPolicy) (results : List (Except Exn Unit))
    (outcome : RetryOutcome) : Prop :=
  (∃ n, outcome = RetryPolicy.success n ∧ results.getLast? = some (.ok ())) ∨
    ∃ exc, outcome = policy.failure (some exc) ∧
      results.getLast? = some (.error exc)

/-- What follows an invocation does not hide what it concludes with. -/
theorem Concludes.cons {policy : RetryPolicy} {results : List (Except Exn Unit)}
    {outcome : RetryOutcome} (h : Concludes policy results outcome)
    (r : Except Exn Unit) : Concludes policy (r :: results) outcome := by
  have hlast : ∀ x, results.getLast? = some x →
      (r :: results).getLast? = some x := by
    intro x hx
    rw [List.getLast?_cons, hx]
    rfl
  rcases h with ⟨n, houtcome, h⟩ | ⟨exc, houtcome, h⟩
  · exact Or.inl ⟨n, houtcome, hlast _ h⟩
  · exact Or.inr ⟨exc, houtcome, hlast _ h⟩

/-- A returned outcome concludes the invocations, or there was none: the
induction is on the passes left, and the error of the pass before stands for
the case that none is left. -/
theorem RetryPolicy.executeFrom_outcome {S : Type} (policy : RetryPolicy)
    (fn : S → Except Exn Unit × S) (remaining attempt : ℕ) (lastExc : Option Exn)
    (drawn : ℕ) (s : S) {outcome : RetryOutcome}
    (h : (policy.executeFrom fn remaining attempt lastExc drawn s).result = .ok outcome) :
    (remaining = 0 ∧ outcome = policy.failure lastExc ∧
        (policy.executeFrom fn remaining attempt lastExc drawn s).calls = []) ∨
      Concludes policy
        (invocations (policy.executeFrom fn remaining attempt lastExc drawn s).calls)
        outcome := by
  induction remaining generalizing attempt lastExc drawn s with
  | zero =>
      obtain rfl := Except.ok.inj h
      exact Or.inl ⟨rfl, rfl, rfl⟩
  | succ remaining ih =>
      refine Or.inr ?_
      rcases policy.attemptOnce_cases fn attempt drawn s with
        ⟨s', -, ha⟩ | ⟨exc, s', -, ⟨-, ha⟩ | ⟨-, ⟨escaping, -, ha⟩ | ⟨delay, drawn', -, ha⟩⟩⟩
      · simp only [executeFrom, ha] at h ⊢
        obtain rfl := Except.ok.inj h
        exact Or.inl ⟨attempt, rfl, rfl⟩
      · simp only [executeFrom, ha] at h ⊢
        obtain rfl := Except.ok.inj h
        exact Or.inr ⟨exc, rfl, rfl⟩
      · simp only [executeFrom, ha] at h
        cases h
      · simp only [executeFrom, ha] at h ⊢
        rcases ih (attempt + 1) (some exc) drawn' s' h with ⟨-, houtcome, hcalls⟩ | hrest
        · rw [hcalls]
          exact Or.inr ⟨exc, houtcome, rfl⟩
        · simpa using hrest.cons (.error exc)

/-- **The outcome tells the truth.**  A call with a positive budget invokes the
callable, and the outcome it returns concludes the invocations.  With no budget
at all it invokes nothing and reports a failure without an error. -/
theorem RetryPolicy.execute_outcome {S : Type} (policy : RetryPolicy)
    (fn : S → Except Exn Unit × S) (drawn : ℕ) (s : S) {outcome : RetryOutcome}
    (h : (policy.execute fn drawn s).result = .ok outcome) :
    if 1 ≤ policy.maxAttempts then
      Concludes policy (invocations (policy.execute fn drawn s).calls) outcome
    else outcome = policy.failure none ∧ (policy.execute fn drawn s).calls = [] := by
  split
  · next hbudget =>
    rcases policy.executeFrom_outcome fn _ 1 none drawn s h with ⟨hzero, -, -⟩ | hconcludes
    · omega
    · exact hconcludes
  · next hbudget =>
    rw [policy.execute_without_budget fn (by omega)] at h ⊢
    obtain rfl := Except.ok.inj h
    exact ⟨rfl, rfl⟩

end OrderPipeline

import OrderPipeline.Backoff

/-!
# The retry loop, call by call

The results of a callable over its successive invocations are an arbitrary
sequence (`resultAt`).  `execute_course` says everything that a call of `execute`
does with it: the invocations and the sleeps in their order, with their delays,
and the way out.  `execute_control_flow` is what remains of it when the backoff
returns.
-/

namespace OrderPipeline

/-! ## Sequences of results -/

section Results

variable {S : Type} (fn : S → Except Exn Unit × S)

/-- The state that `i` invocations leave behind. -/
def stateAfter (s : S) (i : ℕ) : S := (fun s => (fn s).2)^[i] s

/-- The result of invocation `i`, counted from 0. -/
def resultAt (s : S) (i : ℕ) : Except Exn Unit := (fn (stateAfter fn s i)).1

variable {fn} {s s' : S} {r : Except Exn Unit} (h : fn s = (r, s'))

include h

/-- The first invocation is made in the state at hand. -/
theorem resultAt_zero : resultAt fn s 0 = r := by
  show (fn s).1 = r
  rw [h]

/-- The invocations after the first are those made from the state it leaves. -/
theorem stateAfter_succ (i : ℕ) : stateAfter fn s (i + 1) = stateAfter fn s' i := by
  show stateAfter fn (fn s).2 i = _
  rw [h]

/-- And so are their results. -/
theorem resultAt_succ (i : ℕ) : resultAt fn s (i + 1) = resultAt fn s' i := by
  unfold resultAt
  rw [stateAfter_succ h]

end Results

/-- Whether a result is an exception worth another attempt. -/
def transient : Except Exn Unit → Bool
  | .ok () => false
  | .error exc => classify exc = .transient

/-- Whether a result is an exception that ends the attempts. -/
def permanent : Except Exn Unit → Bool
  | .ok () => false
  | .error exc => classify exc = .permanent

/-- How many of the first `budget` results are transient before the first one
that is not. -/
def leadingTransients (results : ℕ → Except Exn Unit) (budget : ℕ) : ℕ :=
  ((List.range budget).takeWhile fun i => transient (results i)).length

/-- The calls of `last + 1` invocations with a sleep between two of them. -/
def callTrace (results : ℕ → Except Exn Unit) (delays : ℕ → PyFloat) (last : ℕ) :
    List Call :=
  ((List.range last).flatMap fun i => [.invoked (results i), .slept (delays i)]) ++
    [.invoked (results last)]

/-- The delays of the sleeps among the calls, in order. -/
def sleeps (calls : List Call) : List PyFloat :=
  calls.filterMap fun
    | .invoked _ => none
    | .slept delay => some delay

/-- A sequence with one more element in front. -/
def inFront {α : Type} (x : α) (xs : ℕ → α) : ℕ → α
  | 0 => x
  | i + 1 => xs i

/-- A trace with a sleep in it begins with an invocation and that sleep. -/
theorem callTrace_succ (results : ℕ → Except Exn Unit) (delays : ℕ → PyFloat) (last : ℕ) :
    callTrace results delays (last + 1) =
      .invoked (results 0) :: .slept (delays 0) ::
        callTrace (fun i => results (i + 1)) (fun i => delays (i + 1)) last := by
  unfold callTrace
  rw [List.range_succ_eq_map, List.flatMap_cons, List.flatMap_map]
  rfl

/-- The invocations of a trace are its results in order. -/
theorem invocations_callTrace (results : ℕ → Except Exn Unit) (delays : ℕ → PyFloat)
    (last : ℕ) :
    invocations (callTrace results delays last) = (List.range (last + 1)).map results := by
  induction last generalizing results delays with
  | zero => rfl
  | succ last ih =>
      rw [callTrace_succ, invocations_invoked, invocations_slept, ih,
        List.range_succ_eq_map (n := last + 1), List.map_cons, List.map_map]
      rfl

/-- Between two invocations there is one sleep, so there is one fewer. -/
theorem sleeps_callTrace (results : ℕ → Except Exn Unit) (delays : ℕ → PyFloat)
    (last : ℕ) : sleeps (callTrace results delays last) = (List.range last).map delays := by
  induction last generalizing results delays with
  | zero => rfl
  | succ last ih =>
      rw [callTrace_succ, List.range_succ_eq_map, List.map_cons, List.map_map]
      exact congrArg (delays 0 :: ·) (ih _ _)

/-- The first result decides whether the transient ones go on. -/
theorem leadingTransients_succ (results : ℕ → Except Exn Unit) (budget : ℕ) :
    leadingTransients results (budget + 1) =
      if transient (results 0) then
        leadingTransients (fun i => results (i + 1)) budget + 1
      else 0 := by
  unfold leadingTransients
  rw [List.range_succ_eq_map, List.takeWhile_cons]
  split
  · rw [List.length_cons, List.takeWhile_map, List.length_map]
    rfl
  · rfl

/-- Where the attempts stop: every result before is transient, and this one is
not or is the last that the budget allows. -/
theorem succ_eq_min_leadingTransients {results : ℕ → Except Exn Unit} {budget last : ℕ}
    (hlast : last < budget) (hbefore : ∀ i < last, transient (results i) = true)
    (hstop : transient (results last) = false ∨ last + 1 = budget) :
    last + 1 = min budget (leadingTransients results budget + 1) := by
  induction last generalizing results budget with
  | zero =>
      obtain ⟨budget, rfl⟩ : ∃ b, budget = b + 1 := ⟨budget - 1, by omega⟩
      rw [leadingTransients_succ]
      rcases hstop with hstop | hstop
      · rw [hstop]
        simp
      · omega
  | succ last ih =>
      obtain ⟨budget, rfl⟩ : ∃ b, budget = b + 1 := ⟨budget - 1, by omega⟩
      have hrest : last + 1 =
          min budget (leadingTransients (fun i => results (i + 1)) budget + 1) :=
        ih (by omega) (fun i hi => hbefore (i + 1) (by omega)) (hstop.imp_right (by omega))
      rw [leadingTransients_succ, if_pos (hbefore 0 (by omega))]
      omega

/-! ## The course of a call -/

/-- How a call of `execute` goes, from some attempt on.  Invocation `last` is its
last one; before it every result was transient and was followed by a sleep. -/
structure Course {S : Type} (policy : RetryPolicy) (fn : S → Except Exn Unit × S)
    (remaining attempt drawn : ℕ) (s : S) (e : Execution S) (last : ℕ)
    (delays : ℕ → PyFloat) (draws : ℕ → ℕ) : Prop where
  within : last < remaining
  start : draws 0 = drawn
  transient_before : ∀ i < last, transient (resultAt fn s i) = true
  backoff : ∀ i < last,
    policy.backoffFor (attempt + i) (draws i) = .ok (delays i, draws (i + 1))
  calls : e.calls = callTrace (resultAt fn s) delays last
  state : e.state = stateAfter fn s (last + 1)
  drawn : e.drawn = draws last
  wayOut :
    (resultAt fn s last = .ok () ∧ e.result = .ok (RetryPolicy.success (attempt + last))) ∨
    (∃ exc, resultAt fn s last = .error exc ∧
      (classify exc = .permanent ∨ last + 1 = remaining) ∧
      e.result = .ok (policy.failure (some exc))) ∨
    ∃ exc escaping, resultAt fn s last = .error exc ∧ classify exc = .transient ∧
      last + 1 < remaining ∧
      policy.backoffFor (attempt + last) (draws last) = .error escaping ∧
      e.result = .error escaping

namespace RetryPolicy

variable {S : Type} (policy : RetryPolicy) (fn : S → Except Exn Unit × S)

/-- A transient result and a sleep before the course of what follows: one more of
everything, and the draws go on from where the wait has left them. -/
theorem course_again {remaining attempt drawn drawn' last : ℕ} {s s' : S} {exc : Exn}
    {delay : PyFloat} {delays : ℕ → PyFloat} {draws : ℕ → ℕ} {rest : Execution S}
    (hfn : fn s = (.error exc, s')) (hkind : classify exc = .transient)
    (hback : policy.backoffFor attempt drawn = .ok (delay, drawn'))
    (hrest : Course policy fn remaining (attempt + 1) drawn' s' rest last delays draws) :
    Course policy fn (remaining + 1) attempt drawn s
      { rest with calls := .invoked (.error exc) :: .slept delay :: rest.calls }
      (last + 1) (inFront delay delays) (inFront drawn draws) where
  within := Nat.succ_lt_succ hrest.within
  start := rfl
  transient_before := by
    intro i hi
    cases i with
    | zero =>
        rw [resultAt_zero hfn]
        simp [transient, hkind]
    | succ i =>
        rw [resultAt_succ hfn]
        exact hrest.transient_before i (by omega)
  backoff := by
    intro i hi
    cases i with
    | zero =>
        show policy.backoffFor attempt drawn = .ok (delay, draws 0)
        rw [hrest.start, hback]
    | succ i =>
        have hattempt : attempt + (i + 1) = attempt + 1 + i := by omega
        rw [hattempt]
        exact hrest.backoff i (by omega)
  calls := by
    rw [callTrace_succ, resultAt_zero hfn]
    simp only [resultAt_succ hfn]
    exact congrArg _ (congrArg _ hrest.calls)
  state := by
    rw [stateAfter_succ hfn]
    exact hrest.state
  drawn := hrest.drawn
  wayOut := by
    have hattempt : attempt + (last + 1) = attempt + 1 + last := by omega
    rw [resultAt_succ hfn, hattempt]
    rcases hrest.wayOut with hok | ⟨exc, hexc, hends, hresult⟩ |
      ⟨exc, escaping, hexc, hexcKind, hbefore, hescapes, hresult⟩
    · exact Or.inl hok
    · exact Or.inr (Or.inl ⟨exc, hexc, hends.imp_right (by omega), hresult⟩)
    · exact Or.inr (Or.inr ⟨exc, escaping, hexc, hexcKind, by omega, hescapes, hresult⟩)

/-- A course of one invocation, for each of the three ways out: a success, a failure
that is final, and an exception of `backoff_for`. -/
theorem course_once {remaining attempt drawn : ℕ} {s s' : S} {r : Except Exn Unit}
    {result : Except Exn RetryOutcome} (hfn : fn s = (r, s'))
    (hwayOut :
      (r = .ok () ∧ result = .ok (success attempt)) ∨
      (∃ exc, r = .error exc ∧ (classify exc = .permanent ∨ 1 = remaining + 1) ∧
        result = .ok (policy.failure (some exc))) ∨
      ∃ exc escaping, r = .error exc ∧ classify exc = .transient ∧ 1 < remaining + 1 ∧
        policy.backoffFor attempt drawn = .error escaping ∧ result = .error escaping) :
    Course policy fn (remaining + 1) attempt drawn s ⟨result, s', drawn, [.invoked r]⟩ 0
      (fun _ => .finite 0) (fun _ => drawn) where
  within := Nat.succ_pos remaining
  start := rfl
  transient_before := by
    intro i hi
    omega
  backoff := by
    intro i hi
    omega
  calls := by
    show [Call.invoked r] = [Call.invoked (resultAt fn s 0)]
    rw [resultAt_zero hfn]
  state := by
    rw [stateAfter_succ hfn]
    rfl
  drawn := rfl
  wayOut := by
    rw [resultAt_zero hfn]
    exact hwayOut

/-- Every call of the loop has a course.  The induction is on the attempts that
are left; the budget says that the last one is attempt `maxAttempts`. -/
theorem executeFrom_course (remaining attempt : ℕ) (lastExc : Option Exn) (drawn : ℕ) (s : S)
    (hpositive : 0 < remaining)
    (hbudget : (attempt + remaining : ℤ) = policy.maxAttempts + 1) :
    ∃ last delays draws, Course policy fn remaining attempt drawn s
      (policy.executeFrom fn remaining attempt lastExc drawn s) last delays draws := by
  induction remaining generalizing attempt lastExc drawn s with
  | zero => omega
  | succ remaining ih =>
      push_cast at hbudget
      rcases policy.attemptOnce_cases fn attempt drawn s with
        ⟨s', hfn, ha⟩ | ⟨exc, s', hfn, ⟨hends, ha⟩ |
          ⟨⟨hkind, hnotLast⟩, ⟨escaping, hback, ha⟩ | ⟨delay, drawn', hback, ha⟩⟩⟩
      · refine ⟨0, fun _ => .finite 0, fun _ => drawn, ?_⟩
        rw [executeFrom, ha]
        exact policy.course_once fn hfn (Or.inl ⟨rfl, rfl⟩)
      · have hends : classify exc = .permanent ∨ 1 = remaining + 1 :=
          hends.imp_right (by omega)
        refine ⟨0, fun _ => .finite 0, fun _ => drawn, ?_⟩
        rw [executeFrom, ha]
        exact policy.course_once fn hfn (Or.inr (Or.inl ⟨exc, rfl, hends, rfl⟩))
      · refine ⟨0, fun _ => .finite 0, fun _ => drawn, ?_⟩
        rw [executeFrom, ha]
        exact policy.course_once fn hfn
          (Or.inr (Or.inr ⟨exc, escaping, rfl, hkind, by omega, hback, rfl⟩))
      · obtain ⟨last, delays, draws, hrest⟩ :=
          ih (attempt + 1) (some exc) drawn' s' (by omega) (by push_cast; omega)
        refine ⟨last + 1, inFront delay delays, inFront drawn draws, ?_⟩
        rw [executeFrom, ha]
        exact policy.course_again fn hfn hkind hback hrest

/-- **The course of a call of `execute`**, for every budget of at least one
attempt and every callable. -/
theorem execute_course (hbudget : 1 ≤ policy.maxAttempts) (drawn : ℕ) (s : S) :
    ∃ last delays draws, Course policy fn policy.maxAttempts.toNat 1 drawn s
      (policy.execute fn drawn s) last delays draws :=
  policy.executeFrom_course fn policy.maxAttempts.toNat 1 none drawn s (by omega)
    (by push_cast; omega)

end RetryPolicy

section Returned

variable {S : Type} {policy : RetryPolicy} {fn : S → Except Exn Unit × S}
  {drawn last : ℕ} {s : S} {e : Execution S} {delays : ℕ → PyFloat} {draws : ℕ → ℕ}

/-- The backoff returns after every attempt before the last one. -/
theorem Course.backoff_returns {remaining attempt n : ℕ}
    (hcourse : Course policy fn remaining attempt drawn s e last delays draws)
    (hn : attempt ≤ n) (hlast : n < attempt + last) :
    ∃ drawn value, policy.backoffFor n drawn = .ok value := by
  have hback := hcourse.backoff (n - attempt) (by omega)
  rw [Nat.add_sub_cancel' hn] at hback
  exact ⟨_, _, hback⟩

/-- A call whose last invocation is number `last` has made one more than that. -/
theorem Course.invocations_length {remaining attempt : ℕ}
    (hcourse : Course policy fn remaining attempt drawn s e last delays draws) :
    (invocations e.calls).length = last + 1 := by
  rw [hcourse.calls, invocations_callTrace, List.length_map, List.length_range]

/-- It has slept before every invocation but the first. -/
theorem Course.sleeps_length {remaining attempt : ℕ}
    (hcourse : Course policy fn remaining attempt drawn s e last delays draws) :
    (sleeps e.calls).length = last := by
  rw [hcourse.calls, sleeps_callTrace, List.length_map, List.length_range]

/-- Where a course that starts with the whole budget ends if nothing escapes. -/
theorem Course.returned
    (hcourse : Course policy fn policy.maxAttempts.toNat 1 drawn s e last delays draws)
    (hback : policy.BackoffReturns) :
    (resultAt fn s last = .ok () ∧ e.result = .ok (RetryPolicy.success (1 + last))) ∨
      ∃ exc, resultAt fn s last = .error exc ∧
        (classify exc = .permanent ∨ last + 1 = policy.maxAttempts.toNat) ∧
        e.result = .ok (policy.failure (some exc)) := by
  rcases hcourse.wayOut with hok | hfailed | ⟨exc, escaping, -, -, hbefore, hescapes, -⟩
  · exact Or.inl hok
  · exact Or.inr hfailed
  · obtain ⟨value, hvalue⟩ := hback (1 + last) (draws last) (by omega) (by omega)
    rw [hescapes] at hvalue
    cases hvalue

/-- The number of invocations is the smaller of the budget and the index of the
first result that is not transient. -/
theorem Course.stops
    (hcourse : Course policy fn policy.maxAttempts.toNat 1 drawn s e last delays draws)
    (hback : policy.BackoffReturns) :
    last + 1 = min policy.maxAttempts.toNat
      (leadingTransients (resultAt fn s) policy.maxAttempts.toNat + 1) := by
  refine succ_eq_min_leadingTransients hcourse.within hcourse.transient_before ?_
  rcases hcourse.returned hback with ⟨hok, -⟩ | ⟨exc, hexc, hpermanent | hlast, -⟩
  · left
    rw [hok]
    rfl
  · left
    rw [hexc]
    simp [transient, hpermanent]
  · exact Or.inr hlast

end Returned

/-- **Control flow of `execute`.**  With a positive budget and a backoff that
returns, the callable is invoked until its first result that is not transient or
until the budget is spent, with a sleep of `backoff_for` between two invocations
and nowhere else, and the outcome is that of the last invocation. -/
theorem execute_control_flow {S : Type} {policy : RetryPolicy}
    (hbudget : 1 ≤ policy.maxAttempts) (hback : policy.BackoffReturns)
    (fn : S → Except Exn Unit × S) (drawn : ℕ) (s : S) :
    ∃ (last : ℕ) (delays : ℕ → PyFloat) (draws : ℕ → ℕ) (outcome : RetryOutcome),
      last + 1 = min policy.maxAttempts.toNat
        (leadingTransients (resultAt fn s) policy.maxAttempts.toNat + 1) ∧
      (policy.execute fn drawn s).calls = callTrace (resultAt fn s) delays last ∧
      draws 0 = drawn ∧
      (∀ i < last,
        policy.backoffFor (i + 1) (draws i) = .ok (delays i, draws (i + 1))) ∧
      (policy.execute fn drawn s).result = .ok outcome ∧
      (outcome.succeeded = true ↔ resultAt fn s last = .ok ()) ∧
      (outcome.succeeded = false → ∃ exc, resultAt fn s last = .error exc ∧
        outcome.error = some exc ∧ outcome.classification = some (classify exc)) := by
  obtain ⟨last, delays, draws, hcourse⟩ := policy.execute_course fn hbudget drawn s
  have hbackoff : ∀ i < last,
      policy.backoffFor (i + 1) (draws i) = .ok (delays i, draws (i + 1)) := by
    intro i hi
    have hdelay := hcourse.backoff i hi
    rwa [Nat.add_comm 1 i] at hdelay
  rcases hcourse.returned hback with ⟨hok, hresult⟩ | ⟨exc, hexc, -, hresult⟩
  · refine ⟨last, delays, draws, _, hcourse.stops hback, hcourse.calls, hcourse.start,
      hbackoff, hresult, iff_of_true rfl hok, ?_⟩
    intro hfailed
    cases hfailed
  · refine ⟨last, delays, draws, _, hcourse.stops hback, hcourse.calls, hcourse.start,
      hbackoff, hresult, iff_of_false Bool.false_ne_true ?_, ?_⟩
    · rw [hexc]
      intro hok
      cases hok
    · intro _
      exact ⟨exc, hexc, rfl, rfl⟩

/-- A callable that plays back a list of results, and succeeds after it. -/
def scripted (script : List (Except Exn Unit)) (i : ℕ) : Except Exn Unit × ℕ :=
  (script.getD i (.ok ()), i + 1)

/-- Two transient errors and a permanent one with a budget of five attempts:
three invocations and two sleeps. -/
theorem control_flow_of_script :
    let policy : RetryPolicy := { maxAttempts := 5, rng := fun _ => Draw.half }
    let fn := scripted [.error (transientError "a"), .error (transientError "b"),
      .error (permanentError "c")]
    ∃ delays, (policy.execute fn 0 0).calls = callTrace (resultAt fn 0) delays 2 := by
  intro policy fn
  have hback : policy.BackoffReturns := backoffReturns_doubling rfl (by decide)
  obtain ⟨last, delays, draws, outcome, hlast, hcalls, -⟩ :=
    execute_control_flow (by decide) hback fn 0 0
  have htwo : last = 2 := by
    have hstop : min policy.maxAttempts.toNat
        (leadingTransients (resultAt fn 0) policy.maxAttempts.toNat + 1) = 3 := by
      decide +kernel
    omega
  exact ⟨delays, htwo ▸ hcalls⟩

end OrderPipeline

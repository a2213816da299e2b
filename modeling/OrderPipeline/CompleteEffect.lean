import OrderPipeline.UnitOfWork

/-!
# The complete effect of one unit of work

What `execute(process)` does to a decoded order, with the invocations, the
sleeps, the outcome, the counters of the simulator and the aggregator: a rejected
order and a POISON order fail at once and leave everything alone, a FLAKY order
is retried until it gets through or the budget is spent, and any other order
succeeds at once.
-/

namespace OrderPipeline

/-- One invocation, no sleep and a permanent failure that leaves everything as it
was. -/
structure FailsAtOnce (e : Execution (Work FailureSimulator)) (w : Work FailureSimulator) :
    Prop where
  invoked : (invocations e.calls).length = 1
  slept : (sleeps e.calls).length = 0
  outcome : ∃ outcome, e.result = .ok outcome ∧ outcome.succeeded = false ∧
    outcome.classification = some .permanent
  unchanged : e.state = w

/-- One invocation, no sleep and a success that adds the order to the aggregator
and leaves the simulator as it was. -/
structure SucceedsAtOnce (e : Execution (Work FailureSimulator)) (w : Work FailureSimulator)
    (o : AvroOrder) : Prop where
  invoked : (invocations e.calls).length = 1
  slept : (sleeps e.calls).length = 0
  outcome : ∃ outcome, e.result = .ok outcome ∧ outcome.succeeded = true
  simulator : e.state.effect = w.effect
  aggregator : e.state.aggregator = (w.aggregator.add o.product o.price).1

/-- `recovers` attempts are needed and `budget` are allowed: as many invocations
as the smaller of the two with sleeps in between, all counted for the order id and
for no other one, and a success that adds the order to the aggregator if they are
enough, or else a transient failure that does not. -/
structure RetriesUntilRecovered (e : Execution (Work FailureSimulator))
    (w : Work FailureSimulator) (o : AvroOrder) (recovers budget : ℕ) : Prop where
  invoked : (invocations e.calls).length = min recovers budget
  slept : (sleeps e.calls).length + 1 = min recovers budget
  outcome : ∃ outcome, e.result = .ok outcome ∧
    (outcome.succeeded = true ↔ recovers ≤ budget) ∧
    (budget < recovers → outcome.classification = some .transient)
  counter : e.state.effect.attempts.lookup o.orderId =
    some (w.effect.seen o.orderId + min recovers budget)
  otherCounters : ∀ id, id ≠ o.orderId →
    e.state.effect.attempts.lookup id = w.effect.attempts.lookup id
  threshold : e.state.effect.flakyAttemptsNeeded = w.effect.flakyAttemptsNeeded
  aggregator : e.state.aggregator =
    if recovers ≤ budget then (w.aggregator.add o.product o.price).1 else w.aggregator

section Executed

variable {policy : RetryPolicy} (hbudget : 1 ≤ policy.maxAttempts)
  {order : Order} {w : Work FailureSimulator} (drawn : ℕ)

include hbudget

/-- A permanent error of the first invocation ends the call. -/
theorem failsAtOnce {exc : Exn}
    (hfn : process FailureSimulator.process order w = (.error exc, w))
    (hkind : classify exc = .permanent) :
    FailsAtOnce (policy.execute (process FailureSimulator.process order) drawn w) w := by
  obtain ⟨remaining, -, he⟩ := policy.execute_with_budget
    (process FailureSimulator.process order) hbudget drawn w
  rw [he, policy.executeFrom_permanent _ hfn hkind]
  exact ⟨rfl, rfl, ⟨_, rfl, rfl, by simp [RetryPolicy.failure, hkind]⟩, rfl⟩

/-- A plain order succeeds in the first invocation. -/
theorem succeedsAtOnce {o : AvroOrder} (hvalid : validate (dictToOrder o) = .ok ())
    (hpoison : o.product ≠ poisonProduct) (hflaky : o.product ≠ flakyProduct) :
    SucceedsAtOnce
      (policy.execute (process FailureSimulator.process (dictToOrder o)) drawn w) w o := by
  have hfn : process FailureSimulator.process (dictToOrder o) w =
      (.ok (), ⟨w.effect, (w.aggregator.add o.product o.price).1⟩) := by
    have hpoison' : (dictToOrder o).product ≠ some poisonProduct :=
      fun h => hpoison (Option.some.inj h)
    have hflaky' : (dictToOrder o).product ≠ some flakyProduct :=
      fun h => hflaky (Option.some.inj h)
    have hplain := FailureSimulator.process_other hpoison' hflaky' w.effect
    unfold process
    rw [hvalid, hplain]
    rfl
  obtain ⟨remaining, -, he⟩ := policy.execute_with_budget
    (process FailureSimulator.process (dictToOrder o)) hbudget drawn w
  rw [he, policy.executeFrom_ok _ hfn]
  exact ⟨rfl, rfl, ⟨_, rfl, rfl⟩, rfl, rfl⟩

/-- One sleep fewer than invocations. -/
theorem sleeps_of_invocations {S : Type} (fn : S → Except Exn Unit × S) (s : S) :
    (sleeps (policy.execute fn drawn s).calls).length + 1 =
      (invocations (policy.execute fn drawn s).calls).length := by
  obtain ⟨last, delays, draws, hcourse⟩ := policy.execute_course fn hbudget drawn s
  rw [hcourse.sleeps_length, hcourse.invocations_length]

/-- A FLAKY order is retried until it recovers or the budget is spent.  All that is said
of the call, its counters and the aggregator follows from how many attempts the order
needs. -/
theorem retriesUntilRecovered (hback : policy.BackoffReturns) {o : AvroOrder}
    (hvalid : validate (dictToOrder o) = .ok ()) (hflaky : o.product = flakyProduct) :
    RetriesUntilRecovered
      (policy.execute (process FailureSimulator.process (dictToOrder o)) drawn w) w o
      (attemptsToRecover w.effect.flakyAttemptsNeeded (w.effect.seen o.orderId))
      policy.maxAttempts.toNat := by
  have hproduct : (dictToOrder o).product = some flakyProduct := congrArg some hflaky
  have hkey : FailureSimulator.keyOf (dictToOrder o) = o.orderId := rfl
  have hslept := sleeps_of_invocations hbudget drawn
    (process FailureSimulator.process (dictToOrder o)) w
  have haggregator := execute_aggregator policy FailureSimulator.process (dictToOrder o)
    drawn w
  have heffect : FlakyEffect policy (dictToOrder o) 1 policy.maxAttempts.toNat w
      (policy.execute (process FailureSimulator.process (dictToOrder o)) drawn w) :=
    executeFrom_flaky policy hvalid hproduct 1 none drawn w policy.maxAttempts.toNat
      (by omega) (by omega)
  simp only [FlakyEffect, hkey] at heffect
  generalize policy.execute (process FailureSimulator.process (dictToOrder o)) drawn w = e
    at hslept haggregator heffect ⊢
  generalize hrecovers : attemptsToRecover w.effect.flakyAttemptsNeeded
    (w.effect.seen o.orderId) = recovers at heffect ⊢
  rcases heffect with ⟨n, d, escaping, ⟨hn, -, hlt⟩, hescapes, -⟩ |
    ⟨-, hresult, hstate, hlength⟩
  · obtain ⟨value, hvalue⟩ := hback n d hn (by omega)
    rw [hescapes] at hvalue
    cases hvalue
  have hsale : (dictToOrder o).sale? = some (o.product, o.price) := rfl
  constructor
  case invoked => exact hlength
  case slept => rw [hslept, hlength]
  case outcome =>
    refine ⟨_, hresult, ?_, ?_⟩
    · split
      · next henough => exact iff_of_true rfl henough
      · next hspent => exact iff_of_false Bool.false_ne_true hspent
    · intro hspent
      rw [if_neg (by omega)]
      rfl
  case counter =>
    rw [hstate]
    exact Finmap.lookup_insert _
  case otherCounters =>
    intro id hid
    rw [hstate]
    exact Finmap.lookup_insert_of_ne _ hid
  case threshold =>
    rw [hstate]
    rfl
  case aggregator =>
    split
    · next henough =>
      rw [if_pos henough] at hresult
      rcases haggregator with ⟨n, sale, -, hsold, hadded⟩ | ⟨hfailed, -⟩
      · rw [hsale] at hsold
        obtain rfl := Option.some.inj hsold
        exact hadded
      · cases hfailed _ hresult
    · next hspent =>
      rw [if_neg hspent] at hresult
      rcases haggregator with ⟨n, sale, hsuccess, -, -⟩ | ⟨-, hsame⟩
      · rw [hresult] at hsuccess
        cases hsuccess
      · exact hsame

end Executed

/-- **The complete effect of a unit of work**, for every decoded order, every
simulator and aggregator, every positive budget and a backoff that returns. -/
theorem complete_effect {policy : RetryPolicy} (hbudget : 1 ≤ policy.maxAttempts)
    (hback : policy.BackoffReturns) (o : AvroOrder) (w : Work FailureSimulator)
    (drawn : ℕ) :
    let e := policy.execute (process FailureSimulator.process (dictToOrder o)) drawn w
    (∀ exc, validate (dictToOrder o) = .error exc → FailsAtOnce e w) ∧
    (validate (dictToOrder o) = .ok () →
      (o.product = poisonProduct → FailsAtOnce e w) ∧
      (o.product = flakyProduct → RetriesUntilRecovered e w o
        ((w.effect.flakyAttemptsNeeded - w.effect.seen o.orderId).toNat + 1)
        policy.maxAttempts.toNat) ∧
      (o.product ≠ poisonProduct → o.product ≠ flakyProduct → SucceedsAtOnce e w o)) := by
  intro e
  refine ⟨?_, fun hvalid => ⟨?_, ?_, ?_⟩⟩
  · intro exc hrejected
    exact failsAtOnce hbudget drawn (process_rejected w hrejected)
      (validate_error_permanent hrejected)
  · intro hpoison
    exact failsAtOnce hbudget drawn
      (process_of_poison w hvalid (congrArg some hpoison)) rfl
  · intro hflaky
    exact retriesUntilRecovered hbudget drawn hback hvalid hflaky
  · intro hpoison hflaky
    exact succeedsAtOnce hbudget drawn hvalid hpoison hflaky

/-- With the defaults a fresh FLAKY order needs three attempts and gets them. -/
theorem flaky_order_recovers :
    let policy : RetryPolicy := { rng := fun _ => Draw.half }
    let o : AvroOrder := ⟨"1001", "FLAKY", .finite 20⟩
    let w : Work FailureSimulator := { effect := {} }
    RetriesUntilRecovered
      (policy.execute (process FailureSimulator.process (dictToOrder o)) 0 w) w o 3 3 := by
  intro policy o w
  have hback : policy.BackoffReturns := backoffReturns_doubling rfl (by decide)
  have hvalid : validate (dictToOrder o) = .ok () := by decide +kernel
  exact ((complete_effect (by decide) hback o w 0).2 hvalid).2.1 rfl

end OrderPipeline

import OrderPipeline.Aggregator
import OrderPipeline.Dlq
import OrderPipeline.Foundation.CommitLog
import OrderPipeline.Retry

/-!
# The consumer loop

`main` of `consumer/consumer.py`.  `Consumer` holds the variables of the loop
with the offsets of the consumer object; `iterate` is one pass of the `while`
loop and `runLoop` the passes over a list of ticks.  A tick is what the outside
contributes to a pass: the result of `poll`, the clock, and the exceptions that
`produce` and `commit` may raise.  A pass reaches the next loop head or leaves
the loop with an exception, and both carry the variables.

The side effect is a parameter: `Setup` is generic in it, and `mainSetup` is
the instance that `main` builds around the failure simulator.

The rest uses it through `runLoop_invariant`, and through the lemmas that say
what a pass does: `iterate_next` and `handle_next` for the completed ones,
`iterate_raised` and `handle_raised` for those that leave the loop.
-/

namespace OrderPipeline

/-- The options of `parse_args` that the loop reads. -/
structure Args where
  summaryEvery : ℤ := 10
  maxAttempts : ℤ := 3
  baseDelay : PyFloat := .finite (1 / 2)
  flakyAttempts : ℤ := 2

/-! ## One unit of work -/

def validationError : String → Exn := Exn.ofText "ValidationError" [.permanentError]

def keyError (key : String) : Exn := Exn.ofText "KeyError" [] ("'" ++ key ++ "'")

/-- `validate`. -/
def validate (order : Order) : Except Exn Unit :=
  if order.orderId.getD "" = "" then .error (validationError "orderId is empty")
  else if order.product.getD "" = "" then .error (validationError "product is empty")
  else
    match order.price with
    | none => .error (validationError "price is missing")
    | some price =>
      if price.le (.finite 0) then
        .error (validationError ("price must be > 0, got " ++ price.repr))
      else .ok ()

/-- What the unit of work reads and writes: the state of the side effect and
the aggregator. -/
structure Work (σ : Type) where
  effect : σ
  aggregator : OrderAggregator := {}

variable {σ : Type}

/-- The closure `process`: validate, run the side effect, aggregate. -/
def process (sideEffect : Order → σ → Except Exn Unit × σ) (order : Order)
    (w : Work σ) : Except Exn Unit × Work σ :=
  match validate order with
  | .error exc => (.error exc, w)
  | .ok () =>
    match sideEffect order w.effect with
    | (.error exc, effect) => (.error exc, { w with effect := effect })
    | (.ok (), effect) =>
      match order.product, order.price with
      | none, _ => (.error (keyError "product"), { w with effect := effect })
      | _, none => (.error (keyError "price"), { w with effect := effect })
      | some product, some price =>
        (.ok (), ⟨effect, (w.aggregator.add product price).1⟩)

/-! ## The variables of the loop -/

/-- One call of `execute` that has returned. -/
structure Handling where
  message : Message
  order : Order
  outcome : RetryOutcome
  calls : List Call

/-- The local variables of `main`, the offsets of its consumer, and a log:
the orders handled, the commits made and the summaries printed. -/
structure Consumer (σ : Type) where
  work : Work σ
  offsets : CommitLog.Offsets ℕ
  drawn : ℕ := 0
  processed : ℕ := 0
  failed : ℕ := 0
  dlq : DeadLetterQueue := {}
  handled : List Handling := []
  commits : ℕ := 0
  summaries : List ℕ := []

/-- What is fixed while the loop runs. -/
structure Setup (σ : Type) where
  summaryEvery : ℤ
  policy : RetryPolicy
  sideEffect : Order → σ → Except Exn Unit × σ
  dlqTopic : String

/-- The setup of `main`. -/
def mainSetup (args : Args) (rng : ℕ → Draw) (dlqTopic : String) :
    Setup FailureSimulator where
  summaryEvery := args.summaryEvery
  policy := { maxAttempts := args.maxAttempts, baseDelay := args.baseDelay, rng := rng }
  sideEffect := FailureSimulator.process
  dlqTopic := dlqTopic

/-- The variables before the first pass. -/
def Consumer.fresh (effect : σ) (offsets : CommitLog.Offsets ℕ) : Consumer σ where
  work := { effect := effect }
  offsets := offsets

/-- The variables of `main` before the first pass. -/
def mainStart (args : Args) (offsets : CommitLog.Offsets ℕ) : Consumer FailureSimulator :=
  Consumer.fresh { flakyAttemptsNeeded := args.flakyAttempts } offsets

namespace Consumer

/-- `poll` has returned a message: its partition is read past it. -/
def receive (c : Consumer σ) (m : Message) : Consumer σ :=
  { c with offsets := c.offsets.seek m.partition (m.offset + 1) }

/-- `execute` has returned. -/
def settle (c : Consumer σ) (work : Work σ) (drawn : ℕ) (h : Handling) : Consumer σ :=
  { c with work := work, drawn := drawn, handled := c.handled ++ [h] }

/-- `processed += 1`. -/
def countProcessed (c : Consumer σ) : Consumer σ := { c with processed := c.processed + 1 }

/-- `failed += 1`. -/
def countFailed (c : Consumer σ) : Consumer σ := { c with failed := c.failed + 1 }

/-- `produce` has returned. -/
def enqueue (c : Consumer σ) (r : DlqRecord) : Consumer σ :=
  { c with dlq := { c.dlq with sent := c.dlq.sent ++ [r] } }

/-- `self.published += 1`. -/
def countPublished (c : Consumer σ) : Consumer σ :=
  { c with dlq := { c.dlq with published := c.dlq.published + 1 } }

/-- `commit` has returned. -/
def commit (c : Consumer σ) : Consumer σ :=
  { c with offsets := c.offsets.commit, commits := c.commits + 1 }

/-- `commit` has raised although the broker stored the offsets. -/
def commitLost (c : Consumer σ) : Consumer σ := { c with offsets := c.offsets.commit }

/-- The interim summary. -/
def summarize (summaryEvery : ℤ) (c : Consumer σ) : Consumer σ :=
  if summaryEvery ≠ 0 ∧ c.processed ≠ 0 ∧ (c.processed : ℤ) % summaryEvery = 0 then
    { c with summaries := c.summaries ++ [c.processed] }
  else c

/-- A summary changes nothing but the log of summaries. -/
theorem summarize_eq (summaryEvery : ℤ) (c : Consumer σ) :
    ∃ summaries, c.summarize summaryEvery = { c with summaries := summaries } := by
  unfold summarize
  split
  · exact ⟨_, rfl⟩
  · exact ⟨c.summaries, rfl⟩

@[simp] theorem summarize_offsets (summaryEvery : ℤ) (c : Consumer σ) :
    (c.summarize summaryEvery).offsets = c.offsets := by
  obtain ⟨summaries, h⟩ := c.summarize_eq summaryEvery
  rw [h]

@[simp] theorem summarize_dlq (summaryEvery : ℤ) (c : Consumer σ) :
    (c.summarize summaryEvery).dlq = c.dlq := by
  obtain ⟨summaries, h⟩ := c.summarize_eq summaryEvery
  rw [h]

end Consumer

/-! ## One pass of the loop -/

/-- What `poll` does: it returns nothing, an error event or a message, or it
raises. -/
inductive Poll
  | idle
  | error (partitionEof : Bool)
  | message (m : Message)
  | raised (exc : Exn)

/-- What the outside contributes to one pass.  A commit that raises may have
been stored by the broker. -/
structure Tick where
  poll : Poll
  failedAt : String := ""
  produceFault : Option Exn := none
  commitFault : Option Exn := none
  commitStored : Bool := false

/-- How a pass ends: at the next loop head, or with an exception. -/
inductive Pass (σ : Type)
  | next (c : Consumer σ)
  | raised (c : Consumer σ) (exc : Exn)

/-- Go on from a loop head. -/
def Pass.andThen : Pass σ → (Consumer σ → Pass σ) → Pass σ
  | .next c, f => f c
  | .raised c exc, _ => .raised c exc

/-- The variables at the end of a pass. -/
def Pass.state : Pass σ → Consumer σ
  | .next c => c
  | .raised c _ => c

/-- Whether a pass ends at a loop head. -/
def Pass.completed : Pass σ → Bool
  | .next _ => true
  | .raised _ _ => false

def kafkaException : Exn := Exn.ofText "KafkaException" [.kafkaException] ""

section Loop

variable (setup : Setup σ) (tick : Tick)

/-- The record that `publish` builds for a failed order. -/
def dlqRecordOf (dlqTopic : String) (m : Message) (order : Order)
    (outcome : RetryOutcome) (failedAt : String) : Except Exn DlqRecord :=
  buildRecord dlqTopic (some order) m.key m.topic m.partition m.offset outcome.error
    outcome.attempts failedAt

/-- `dlq.publish`. -/
def publish (m : Message) (order : Order) (outcome : RetryOutcome)
    (c : Consumer σ) : Pass σ :=
  match dlqRecordOf setup.dlqTopic m order outcome tick.failedAt with
  | .error exc => .raised c exc
  | .ok record =>
    match tick.produceFault with
    | some exc => .raised c exc
    | none => .next (c.enqueue record).countPublished

/-- `consumer.commit(asynchronous=False)`. -/
def commitSync (c : Consumer σ) : Pass σ :=
  match tick.commitFault with
  | none => .next c.commit
  | some exc => .raised (if tick.commitStored then c.commitLost else c) exc

/-- What follows `execute`: the outcome branches, the commit and the interim
summary. -/
def route (m : Message) (order : Order) (outcome : RetryOutcome)
    (c : Consumer σ) : Pass σ :=
  (if outcome.succeeded then .next c.countProcessed
    else publish setup tick m order outcome c.countFailed).andThen fun c =>
  (commitSync tick c).andThen fun c => .next (c.summarize setup.summaryEvery)

/-- The call of `execute` for an order. -/
def Setup.attempt (order : Order) (c : Consumer σ) : Execution (Work σ) :=
  setup.policy.execute (process setup.sideEffect order) c.drawn c.work

/-- The part of the body that handles an order. -/
def handle (m : Message) (order : Order) (c : Consumer σ) : Pass σ :=
  let e := setup.attempt order c
  match e.result with
  | .error exc => .raised { c with work := e.state, drawn := e.drawn } exc
  | .ok outcome =>
    route setup tick m order outcome
      (c.settle e.state e.drawn ⟨m, order, outcome, e.calls⟩)

/-- The body of the `while` loop. -/
def iterate (c : Consumer σ) : Pass σ :=
  match tick.poll with
  | .idle => .next c
  | .error true => .next c
  | .error false => .raised c kafkaException
  | .raised exc => .raised c exc
  | .message m =>
    match m.value with
    | none => commitSync tick (c.receive m)
    | some order => handle setup tick m order (c.receive m)

/-- The passes over a list of ticks. -/
def runLoop : List Tick → Consumer σ → Pass σ
  | [], c => .next c
  | tick :: ticks, c => (iterate setup tick c).andThen (runLoop ticks)

end Loop

/-! ## Rules -/

@[simp] theorem Pass.andThen_next (c : Consumer σ) (f : Consumer σ → Pass σ) :
    (Pass.next c).andThen f = f c := rfl

@[simp] theorem Pass.andThen_raised (c : Consumer σ) (exc : Exn)
    (f : Consumer σ → Pass σ) : (Pass.raised c exc).andThen f = .raised c exc := rfl

/-- A pass that completed is the `next` of the state it ends in. -/
theorem Pass.eq_next {p : Pass σ} (h : p.completed = true) : p = .next p.state := by
  cases p with
  | next c => rfl
  | raised c exc => cases h

/-- Three statements in a row may be bracketed either way: an exception of any of them
skips what follows. -/
theorem Pass.andThen_assoc (p : Pass σ) (f g : Consumer σ → Pass σ) :
    (p.andThen f).andThen g = p.andThen fun c => (f c).andThen g := by
  cases p <;> rfl

/-- The bind rule of the loop body: a sequence completes exactly if its first part does,
in some state from which the second part completes. -/
theorem Pass.andThen_eq_next {p : Pass σ} {f : Consumer σ → Pass σ} {c' : Consumer σ} :
    p.andThen f = .next c' ↔ ∃ c, p = .next c ∧ f c = .next c' := by
  cases p with
  | next c => simp
  | raised c exc => simp

/-- The last pass of a run starts where the passes before it have led; this is how an
invariant of the loop is proved pass by pass. -/
theorem runLoop_snoc (setup : Setup σ) (ticks : List Tick) (tick : Tick)
    (c : Consumer σ) :
    runLoop setup (ticks ++ [tick]) c =
      (runLoop setup ticks c).andThen (iterate setup tick) := by
  induction ticks generalizing c with
  | nil =>
      show (iterate setup tick c).andThen Pass.next = iterate setup tick c
      cases iterate setup tick c <;> rfl
  | cons t ticks ih =>
      show (iterate setup t c).andThen (runLoop setup (ticks ++ [tick])) =
        ((iterate setup t c).andThen (runLoop setup ticks)).andThen (iterate setup tick)
      rw [Pass.andThen_assoc]
      congr 1
      funext c'
      exact ih c'

/-- A run of passes that are all completed is completed pass by pass. -/
theorem runLoop_snoc_next {setup : Setup σ} {ticks : List Tick} {tick : Tick}
    {c c' : Consumer σ} :
    runLoop setup (ticks ++ [tick]) c = .next c' ↔
      ∃ d, runLoop setup ticks c = .next d ∧ iterate setup tick d = .next c' := by
  rw [runLoop_snoc, Pass.andThen_eq_next]

/-- **Loop rule.**  A relation between the ticks so far and the variables that
holds at the start and survives every completed pass holds at every loop
head. -/
theorem runLoop_invariant {setup : Setup σ} {c₀ : Consumer σ}
    (I : List Tick → Consumer σ → Prop) (hstart : I [] c₀)
    (hpass : ∀ ticks tick c c', I ticks c → iterate setup tick c = .next c' →
      I (ticks ++ [tick]) c')
    {ticks : List Tick} {c : Consumer σ} (h : runLoop setup ticks c₀ = .next c) :
    I ticks c := by
  induction ticks using List.reverseRecOn generalizing c with
  | nil =>
      cases h
      exact hstart
  | append_singleton ticks tick ih =>
      obtain ⟨d, hd, hlast⟩ := runLoop_snoc_next.mp h
      exact hpass ticks tick d c (ih hd) hlast

/-- **State rule.**  What every pass keeps, completed or not, holds at the end
of a run. -/
theorem runLoop_state {setup : Setup σ} (I : Consumer σ → Prop)
    (hpass : ∀ tick c, I c → I (iterate setup tick c).state)
    (ticks : List Tick) {c : Consumer σ} (hstart : I c) :
    I (runLoop setup ticks c).state := by
  induction ticks generalizing c with
  | nil => exact hstart
  | cons tick ticks ih =>
      have hstep := hpass tick c hstart
      show I ((iterate setup tick c).andThen (runLoop setup ticks)).state
      cases hend : iterate setup tick c with
      | next c' =>
          rw [hend] at hstep
          exact ih hstep
      | raised c' exc =>
          rw [hend] at hstep
          exact hstep

/-- The passes of a completed run are completed. -/
theorem runLoop_next_split {setup : Setup σ} {before after : List Tick} {tick : Tick}
    {start c : Consumer σ} (h : runLoop setup (before ++ tick :: after) start = .next c) :
    ∃ d d', runLoop setup before start = .next d ∧ iterate setup tick d = .next d' := by
  induction before generalizing start with
  | nil =>
      obtain ⟨d', hpass, -⟩ := Pass.andThen_eq_next.mp h
      exact ⟨start, d', rfl, hpass⟩
  | cons first before ih =>
      obtain ⟨e, hfirst, hrest⟩ := Pass.andThen_eq_next.mp h
      obtain ⟨d, d', hbefore, hpass⟩ := ih hrest
      refine ⟨d, d', ?_, hpass⟩
      show (iterate setup first start).andThen (runLoop setup before) = .next d
      rw [hfirst]
      exact hbefore

/-- A run that raises has completed the passes before the one that raised. -/
theorem runLoop_raised {setup : Setup σ} {ticks : List Tick} {c c' : Consumer σ}
    {exc : Exn} (h : runLoop setup ticks c = .raised c' exc) :
    ∃ before tick after d, ticks = before ++ tick :: after ∧
      runLoop setup before c = .next d ∧ iterate setup tick d = .raised c' exc := by
  induction ticks generalizing c with
  | nil => cases h
  | cons t ticks ih =>
      have hcons : (iterate setup t c).andThen (runLoop setup ticks) = .raised c' exc := h
      cases hpass : iterate setup t c with
      | raised d e =>
          rw [hpass] at hcons
          exact ⟨[], t, ticks, c, rfl, rfl, by rw [hpass]; exact hcons⟩
      | next d =>
          rw [hpass] at hcons
          obtain ⟨before, tick, after, d', rfl, hbefore, hraised⟩ := ih hcons
          refine ⟨t :: before, tick, after, d', rfl, ?_, hraised⟩
          show (iterate setup t c).andThen (runLoop setup before) = .next d'
          rw [hpass]
          exact hbefore

/-! ## What a completed pass does -/

/-- The log entry of an order whose `execute` call returned. -/
def Setup.handling (setup : Setup σ) (m : Message) (order : Order)
    (outcome : RetryOutcome) (c : Consumer σ) : Handling :=
  ⟨m, order, outcome, (setup.attempt order c).calls⟩

/-- The variables after `execute` has returned. -/
def Setup.settled (setup : Setup σ) (m : Message) (order : Order)
    (outcome : RetryOutcome) (c : Consumer σ) : Consumer σ :=
  c.settle (setup.attempt order c).state (setup.attempt order c).drawn
    (setup.handling m order outcome c)

/-- `publish` hands exactly the built record to `produce`, or it raises and
leaves the variables alone. -/
theorem publish_cases (setup : Setup σ) (tick : Tick) (m : Message) (order : Order)
    (outcome : RetryOutcome) (c : Consumer σ) :
    (∃ exc, publish setup tick m order outcome c = .raised c exc) ∨
      ∃ r, dlqRecordOf setup.dlqTopic m order outcome tick.failedAt = .ok r ∧
        tick.produceFault = none ∧
        publish setup tick m order outcome c = .next (c.enqueue r).countPublished := by
  unfold publish
  cases hrecord : dlqRecordOf setup.dlqTopic m order outcome tick.failedAt with
  | error exc => exact Or.inl ⟨exc, rfl⟩
  | ok r =>
      cases hproduce : tick.produceFault with
      | some exc => exact Or.inl ⟨exc, rfl⟩
      | none => exact Or.inr ⟨r, rfl, rfl, rfl⟩

/-- A commit returns, or it raises and changes the stored offsets at most. -/
theorem commitSync_cases (tick : Tick) (c : Consumer σ) :
    (tick.commitFault = none ∧ commitSync tick c = .next c.commit) ∨
      (tick.commitFault ≠ none ∧
        ∃ d exc, (d = c ∨ d = c.commitLost) ∧ commitSync tick c = .raised d exc) := by
  unfold commitSync
  cases hfault : tick.commitFault with
  | none => exact Or.inl ⟨rfl, rfl⟩
  | some exc =>
      refine Or.inr ⟨by simp, _, exc, ?_, rfl⟩
      by_cases hstored : tick.commitStored = true
      · exact Or.inr (if_pos hstored)
      · exact Or.inl (if_neg hstored)

/-- A completed `handle` ends in the commit, after the success branch or after
the record has been handed to `produce`. -/
theorem handle_next {setup : Setup σ} {tick : Tick} {m : Message} {order : Order}
    {c c' : Consumer σ} (h : handle setup tick m order c = .next c') :
    ∃ outcome, (setup.attempt order c).result = .ok outcome ∧
      tick.commitFault = none ∧
      ((outcome.succeeded = true ∧
          c' = ((setup.settled m order outcome c).countProcessed.commit).summarize
            setup.summaryEvery) ∨
        (outcome.succeeded = false ∧ tick.produceFault = none ∧
          ∃ r, dlqRecordOf setup.dlqTopic m order outcome tick.failedAt = .ok r ∧
            c' = ((setup.settled m order outcome c).countFailed.enqueue
              r).countPublished.commit.summarize setup.summaryEvery)) := by
  unfold handle at h
  cases hresult : (setup.attempt order c).result with
  | error exc =>
      simp only [hresult] at h
      cases h
  | ok outcome =>
      simp only [hresult, route] at h
      obtain ⟨d, hbranch, h⟩ := Pass.andThen_eq_next.mp h
      rcases commitSync_cases tick d with ⟨hfault, hsync⟩ | ⟨-, e, exc, -, hsync⟩
      · rw [hsync] at h
        cases h
        refine ⟨outcome, rfl, hfault, ?_⟩
        cases hsucceeded : outcome.succeeded with
        | true =>
            rw [hsucceeded, if_pos rfl] at hbranch
            cases hbranch
            exact Or.inl ⟨rfl, rfl⟩
        | false =>
            rw [hsucceeded, if_neg Bool.false_ne_true] at hbranch
            rcases publish_cases setup tick m order outcome _ with
              ⟨exc, hpublish⟩ | ⟨r, hrecord, hproduce, hpublish⟩
            · rw [hpublish] at hbranch
              cases hbranch
            · rw [hpublish] at hbranch
              cases hbranch
              exact Or.inr ⟨rfl, hproduce, r, hrecord, rfl⟩
      · rw [hsync] at h
        cases h

/-- Both branches of a completed `handle` leave the same log, the same work state
and the same offsets. -/
theorem handle_next_log {setup : Setup σ} {tick : Tick} {m : Message} {order : Order}
    {c c' : Consumer σ} (h : handle setup tick m order c = .next c') :
    ∃ outcome, (setup.attempt order c).result = .ok outcome ∧
      c'.handled = c.handled ++ [setup.handling m order outcome c] ∧
      c'.work = (setup.attempt order c).state ∧ c'.offsets = c.offsets.commit := by
  obtain ⟨outcome, hresult, -, ⟨-, rfl⟩ | ⟨-, -, r, -, rfl⟩⟩ := handle_next h
  · obtain ⟨summaries, hsummary⟩ := Consumer.summarize_eq setup.summaryEvery
      (setup.settled m order outcome c).countProcessed.commit
    rw [hsummary]
    exact ⟨outcome, hresult, rfl, rfl, rfl⟩
  · obtain ⟨summaries, hsummary⟩ := Consumer.summarize_eq setup.summaryEvery
      ((setup.settled m order outcome c).countFailed.enqueue r).countPublished.commit
    rw [hsummary]
    exact ⟨outcome, hresult, rfl, rfl, rfl⟩

/-- Where a `handle` that raises has stopped: in `execute`, in `publish`, or in
the commit. -/
theorem handle_raised {setup : Setup σ} {tick : Tick} {m : Message} {order : Order}
    {c c' : Consumer σ} {exc : Exn} (h : handle setup tick m order c = .raised c' exc) :
    ((setup.attempt order c).result = .error exc ∧
      c' = { c with
        work := (setup.attempt order c).state, drawn := (setup.attempt order c).drawn }) ∨
    ∃ outcome, (setup.attempt order c).result = .ok outcome ∧
      ((outcome.succeeded = false ∧ c' = (setup.settled m order outcome c).countFailed) ∨
        ∃ d, (tick.commitFault ≠ none ∧ (c' = d ∨ c' = d.commitLost)) ∧
          ((outcome.succeeded = true ∧
              d = (setup.settled m order outcome c).countProcessed) ∨
            (outcome.succeeded = false ∧
              ∃ r, dlqRecordOf setup.dlqTopic m order outcome tick.failedAt = .ok r ∧
                d = ((setup.settled m order outcome c).countFailed.enqueue
                  r).countPublished))) := by
  unfold handle at h
  cases hresult : (setup.attempt order c).result with
  | error e =>
      simp only [hresult] at h
      cases h
      exact Or.inl ⟨rfl, rfl⟩
  | ok outcome =>
      simp only [hresult, route] at h
      refine Or.inr ⟨outcome, rfl, ?_⟩
      have hcommit : ∀ d : Consumer σ,
          ((commitSync tick d).andThen fun c => .next (c.summarize setup.summaryEvery)) =
            .raised c' exc → tick.commitFault ≠ none ∧ (c' = d ∨ c' = d.commitLost) := by
        intro d hd
        rcases commitSync_cases tick d with ⟨-, hsync⟩ | ⟨hfault, e, exc', he, hsync⟩
        · rw [hsync] at hd
          cases hd
        · rw [hsync] at hd
          cases hd
          exact ⟨hfault, he⟩
      cases hsucceeded : outcome.succeeded with
      | true =>
          rw [hsucceeded, if_pos rfl] at h
          exact Or.inr ⟨_, hcommit _ h, Or.inl ⟨rfl, rfl⟩⟩
      | false =>
          rw [hsucceeded, if_neg Bool.false_ne_true] at h
          rcases publish_cases setup tick m order outcome _ with
            ⟨e, hpublish⟩ | ⟨r, hrecord, -, hpublish⟩
          · rw [hpublish] at h
            cases h
            exact Or.inl ⟨rfl, rfl⟩
          · rw [hpublish] at h
            exact Or.inr ⟨_, hcommit _ h, Or.inr ⟨rfl, r, hrecord, rfl⟩⟩

/-- A success is counted and committed. -/
theorem handle_of_succeeded {setup : Setup σ} {tick : Tick} {m : Message} {order : Order}
    {c : Consumer σ} {outcome : RetryOutcome}
    (hresult : (setup.attempt order c).result = .ok outcome)
    (hsucceeded : outcome.succeeded = true) (hcommit : tick.commitFault = none) :
    handle setup tick m order c =
      .next ((setup.settled m order outcome c).countProcessed.commit.summarize
        setup.summaryEvery) := by
  unfold handle route
  simp only [hresult, hsucceeded, if_true, Pass.andThen_next, commitSync, hcommit]
  rfl

/-- A failure whose record can be built is counted, published and committed. -/
theorem handle_of_failed {setup : Setup σ} {tick : Tick} {m : Message} {order : Order}
    {c : Consumer σ} {outcome : RetryOutcome} {r : DlqRecord}
    (hresult : (setup.attempt order c).result = .ok outcome)
    (hfailed : outcome.succeeded = false)
    (hrecord : dlqRecordOf setup.dlqTopic m order outcome tick.failedAt = .ok r)
    (hproduce : tick.produceFault = none) (hcommit : tick.commitFault = none) :
    handle setup tick m order c =
      .next (((setup.settled m order outcome c).countFailed.enqueue
        r).countPublished.commit.summarize setup.summaryEvery) := by
  unfold handle route
  simp only [hresult, hfailed, Bool.false_eq_true, if_false, publish, hrecord, hproduce,
    Pass.andThen_next, commitSync, hcommit]
  rfl

/-- What a completed pass does: nothing, skip a tombstone, or handle an order.  The
invariants of the loop split a pass in these three cases. -/
theorem iterate_next {setup : Setup σ} {tick : Tick} {c c' : Consumer σ}
    (h : iterate setup tick c = .next c') :
    ((tick.poll = .idle ∨ tick.poll = .error true) ∧ c' = c) ∨
    ∃ m, tick.poll = .message m ∧
      ((m.value = none ∧ tick.commitFault = none ∧ c' = (c.receive m).commit) ∨
        ∃ order, m.value = some order ∧
          handle setup tick m order (c.receive m) = .next c') := by
  unfold iterate at h
  cases hpoll : tick.poll with
  | idle =>
      simp only [hpoll] at h
      cases h
      exact Or.inl ⟨Or.inl rfl, rfl⟩
  | error eof =>
      cases eof with
      | true =>
          simp only [hpoll] at h
          cases h
          exact Or.inl ⟨Or.inr rfl, rfl⟩
      | false =>
          simp only [hpoll] at h
          cases h
  | raised exc =>
      simp only [hpoll] at h
      cases h
  | message m =>
      simp only [hpoll] at h
      refine Or.inr ⟨m, rfl, ?_⟩
      cases hvalue : m.value with
      | none =>
          simp only [hvalue] at h
          rcases commitSync_cases tick (c.receive m) with
            ⟨hfault, hsync⟩ | ⟨-, d, exc, -, hsync⟩
          · rw [hsync] at h
            cases h
            exact Or.inl ⟨rfl, hfault, rfl⟩
          · rw [hsync] at h
            cases h
      | some order =>
          simp only [hvalue] at h
          exact Or.inr ⟨order, rfl, h⟩

/-- Where a pass that raises has stopped: in `poll`, in the commit of a
tombstone, or in the handling of an order. -/
theorem iterate_raised {setup : Setup σ} {tick : Tick} {c c' : Consumer σ} {exc : Exn}
    (h : iterate setup tick c = .raised c' exc) :
    c' = c ∨ ∃ m, tick.poll = .message m ∧
      ((m.value = none ∧ tick.commitFault ≠ none ∧
          (c' = c.receive m ∨ c' = (c.receive m).commitLost)) ∨
        ∃ order, m.value = some order ∧
          handle setup tick m order (c.receive m) = .raised c' exc) := by
  unfold iterate at h
  cases hpoll : tick.poll with
  | idle =>
      simp only [hpoll] at h
      cases h
  | error eof =>
      cases eof with
      | true =>
          simp only [hpoll] at h
          cases h
      | false =>
          simp only [hpoll] at h
          cases h
          exact Or.inl rfl
  | raised e =>
      simp only [hpoll] at h
      cases h
      exact Or.inl rfl
  | message m =>
      simp only [hpoll] at h
      refine Or.inr ⟨m, rfl, ?_⟩
      cases hvalue : m.value with
      | none =>
          simp only [hvalue] at h
          rcases commitSync_cases tick (c.receive m) with
            ⟨-, hsync⟩ | ⟨hfault, d, e, hd, hsync⟩
          · rw [hsync] at h
            cases h
          · rw [hsync] at h
            cases h
            exact Or.inl ⟨rfl, hfault, hd⟩
      | some order =>
          simp only [hvalue] at h
          exact Or.inr ⟨order, rfl, h⟩

/-- A pass leaves the work state and the log alone, or it has called `execute` for
the order it received, and logs the handling if that has returned. -/
theorem iterate_effect (setup : Setup σ) (tick : Tick) (c : Consumer σ) :
    ((iterate setup tick c).state.work = c.work ∧
      (iterate setup tick c).state.handled = c.handled) ∨
      ∃ m order, tick.poll = .message m ∧ m.value = some order ∧
        (iterate setup tick c).state.work = (setup.attempt order (c.receive m)).state ∧
        ((iterate setup tick c).state.handled = c.handled ∨
          ∃ outcome, (setup.attempt order (c.receive m)).result = .ok outcome ∧
            (iterate setup tick c).state.handled =
              c.handled ++ [setup.handling m order outcome (c.receive m)]) := by
  cases hpass : iterate setup tick c with
  | next c' =>
      rcases iterate_next hpass with ⟨-, rfl⟩ |
        ⟨m, hpoll, ⟨-, -, rfl⟩ | ⟨order, hvalue, hhandle⟩⟩
      · exact Or.inl ⟨rfl, rfl⟩
      · exact Or.inl ⟨rfl, rfl⟩
      · obtain ⟨outcome, hresult, hlog, hwork, -⟩ := handle_next_log hhandle
        exact Or.inr ⟨m, order, hpoll, hvalue, hwork, Or.inr ⟨outcome, hresult, hlog⟩⟩
  | raised c' exc =>
      rcases iterate_raised hpass with rfl |
        ⟨m, hpoll, ⟨-, -, rfl | rfl⟩ | ⟨order, hvalue, hhandle⟩⟩
      · exact Or.inl ⟨rfl, rfl⟩
      · exact Or.inl ⟨rfl, rfl⟩
      · exact Or.inl ⟨rfl, rfl⟩
      · rcases handle_raised hhandle with ⟨-, rfl⟩ | ⟨outcome, hresult, hbranch⟩
        · exact Or.inr ⟨m, order, hpoll, hvalue, rfl, Or.inl rfl⟩
        · have hsettled : c'.work = (setup.attempt order (c.receive m)).state ∧
              c'.handled = c.handled ++ [setup.handling m order outcome (c.receive m)] := by
            rcases hbranch with ⟨-, rfl⟩ | ⟨d, ⟨-, rfl | rfl⟩, ⟨-, rfl⟩ | ⟨-, r, -, rfl⟩⟩ <;>
              exact ⟨rfl, rfl⟩
          exact Or.inr ⟨m, order, hpoll, hvalue, hsettled.1,
            Or.inr ⟨outcome, hresult, hsettled.2⟩⟩

/-- A pass logs at most one handling: that of the order it received. -/
theorem iterate_handled (setup : Setup σ) (tick : Tick) (c : Consumer σ) :
    (iterate setup tick c).state.handled = c.handled ∨
      ∃ m order outcome, tick.poll = .message m ∧ m.value = some order ∧
        (setup.attempt order (c.receive m)).result = .ok outcome ∧
        (iterate setup tick c).state.handled =
          c.handled ++ [setup.handling m order outcome (c.receive m)] := by
  rcases iterate_effect setup tick c with
    ⟨-, hsame⟩ | ⟨m, order, hpoll, hvalue, -, hsame | ⟨outcome, hresult, hlog⟩⟩
  · exact Or.inl hsame
  · exact Or.inl hsame
  · exact Or.inr ⟨m, order, outcome, hpoll, hvalue, hresult, hlog⟩

/-! ## What the unit of work does -/

/-- An order that `validate` lets pass has a product and a price. -/
theorem validate_ok_fields {order : Order} (h : validate order = .ok ()) :
    ∃ product price, order.product = some product ∧ order.price = some price := by
  obtain ⟨orderId, product, price⟩ := order
  unfold validate at h
  cases product with
  | none => by_cases horderId : orderId.getD "" = "" <;> simp [horderId] at h
  | some product =>
      cases price with
      | none =>
          by_cases horderId : orderId.getD "" = "" <;>
            by_cases hproduct : product = "" <;> simp [horderId, hproduct] at h
      | some price => exact ⟨product, price, rfl, rfl⟩

/-- A unit of work is rejected by `validate`, fails in the side effect, or
succeeds and adds the order to the aggregator. -/
theorem process_cases (sideEffect : Order → σ → Except Exn Unit × σ) (order : Order)
    (w : Work σ) :
    (∃ exc, validate order = .error exc ∧ process sideEffect order w = (.error exc, w)) ∨
    (validate order = .ok () ∧ ∃ product price, order.product = some product ∧
      order.price = some price ∧
      ((∃ exc effect, sideEffect order w.effect = (.error exc, effect) ∧
          process sideEffect order w = (.error exc, { w with effect := effect })) ∨
        ∃ effect, sideEffect order w.effect = (.ok (), effect) ∧
          process sideEffect order w =
            (.ok (), ⟨effect, (w.aggregator.add product price).1⟩))) := by
  cases hvalid : validate order with
  | error exc =>
      refine Or.inl ⟨exc, rfl, ?_⟩
      unfold process
      rw [hvalid]
  | ok _ =>
      obtain ⟨product, price, hproduct, hprice⟩ := validate_ok_fields hvalid
      refine Or.inr ⟨rfl, product, price, hproduct, hprice, ?_⟩
      unfold process
      rw [hvalid, hproduct, hprice]
      rcases hside : sideEffect order w.effect with ⟨_ | ⟨⟨⟩⟩, effect⟩
      · rename_i exc
        exact Or.inl ⟨exc, effect, rfl, rfl⟩
      · exact Or.inr ⟨effect, rfl, rfl⟩

end OrderPipeline

import OrderPipeline.Consumer

/-!
# The ledger of the consumer loop

One history is kept in four places: the aggregator, the two counters, the
records handed to the DLQ producer and the commits.  `Books` and `Ledger` say
how they agree at a loop head, for an arbitrary side effect.  The handled orders
are the polled ones in their order, and each outcome branch books an order once,
however many attempts it took.

`ledger_of_run` proves it for every run, and bounds what an exception may leave
unbalanced in the final report.
-/

namespace OrderPipeline

variable {σ : Type}

/-- The order that a tick brings, with its message. -/
def Tick.order? (tick : Tick) : Option (Message × Order) :=
  match tick.poll with
  | .message m => m.value.map fun order => (m, order)
  | _ => none

/-- Whether a tick brings a tombstone. -/
def Tick.isTombstone (tick : Tick) : Bool :=
  match tick.poll with
  | .message m => m.value.isNone
  | _ => false

/-- The orders that the ticks bring, in order. -/
def polledOrders (ticks : List Tick) : List (Message × Order) := ticks.filterMap Tick.order?

/-- The number of tombstones among the ticks. -/
def tombstones (ticks : List Tick) : ℕ := ticks.countP Tick.isTombstone

/-- What the aggregator adds for an order. -/
def Order.sale? (order : Order) : Option (String × PyFloat) :=
  match order.product, order.price with
  | some product, some price => some (product, price)
  | _, _ => none

/-- The handlings that succeeded, in order. -/
def succeededOf (handled : List Handling) : List Handling :=
  handled.filter fun h => h.outcome.succeeded

/-- The handlings that failed, in order. -/
def failedOf (handled : List Handling) : List Handling :=
  handled.filter fun h => !h.outcome.succeeded

/-- The sales of the handlings that succeeded, in order. -/
def salesOf (handled : List Handling) : List (String × PyFloat) :=
  (succeededOf handled).filterMap fun h => h.order.sale?

/-- A record is what `publish` hands to `produce` for a handling. -/
def Handling.PublishedAs (dlqTopic : String) (h : Handling) (r : DlqRecord) : Prop :=
  ∃ failedAt, dlqRecordOf dlqTopic h.message h.order h.outcome failedAt = .ok r

/-- The aggregator, the counters and the DLQ agree with the handlings. -/
structure Books (dlqTopic : String) (c : Consumer σ) : Prop where
  aggregator : c.work.aggregator =
    ({} : OrderAggregator).addAll ((succeededOf c.handled).filterMap (·.order.sale?))
  processed : c.processed = (succeededOf c.handled).length
  count : c.processed = c.work.aggregator.count
  published : List.Forall₂ (Handling.PublishedAs dlqTopic) (failedOf c.handled) c.dlq.sent
  failed : c.failed = (failedOf c.handled).length
  failed_published : c.failed = c.dlq.published

/-- At a loop head the handlings are the polled orders, and each of them and
each tombstone has been committed once. -/
structure Ledger (dlqTopic : String) (ticks : List Tick) (c : Consumer σ) : Prop
    extends Books dlqTopic c where
  handled : c.handled.map (fun h => (h.message, h.order)) = polledOrders ticks
  commits : c.processed + c.failed + tombstones ticks = c.commits

/-- The report after an exception: what has been counted is in the aggregator,
the records handed over are those of the oldest failures, and at most one
failure has no record. -/
structure FinalReport (dlqTopic : String) (c : Consumer σ) : Prop where
  count : c.processed = c.work.aggregator.count
  published_le : c.dlq.published ≤ c.failed
  failed_le : c.failed ≤ c.dlq.published + 1
  published : List.Forall₂ (Handling.PublishedAs dlqTopic)
    ((failedOf c.handled).take c.dlq.sent.length) c.dlq.sent

/-! ## The unit of work under the retry policy -/

/-- **Aggregated last.**  Whatever the number of attempts, `execute` adds the
order to the aggregator once if its outcome is a success, and not at all
otherwise. -/
theorem execute_aggregator (policy : RetryPolicy)
    (sideEffect : Order → σ → Except Exn Unit × σ) (order : Order) (drawn : ℕ) (w : Work σ) :
    let e := policy.execute (process sideEffect order) drawn w
    (∃ n sale, e.result = .ok (RetryPolicy.success n) ∧ order.sale? = some sale ∧
      e.state.aggregator = w.aggregator.addAll [sale]) ∨
    ((∀ outcome, e.result = .ok outcome → outcome.succeeded = false) ∧
      e.state.aggregator = w.aggregator) := by
  intro e
  have hrule := policy.execute_preserves (process sideEffect order)
    (P := fun v => v.aggregator = w.aggregator)
    (Q := fun v => ∃ sale, order.sale? = some sale ∧
      v.aggregator = w.aggregator.addAll [sale])
    ?_ ?_ drawn rfl
  · rcases hrule with ⟨n, hresult, sale, hsale, hadded⟩ | ⟨hfailed, hsame⟩
    · exact Or.inl ⟨n, sale, hresult, hsale, hadded⟩
    · exact Or.inr ⟨hfailed, hsame⟩
  · intro v exc v' hv hprocess
    rcases process_cases sideEffect order v with
      ⟨e, -, h⟩ | ⟨-, product, price, -, -, ⟨e, effect, -, h⟩ | ⟨effect, -, h⟩⟩
    · rw [h] at hprocess
      cases hprocess
      exact hv
    · rw [h] at hprocess
      cases hprocess
      exact hv
    · rw [h] at hprocess
      cases hprocess
  · intro v v' hv hprocess
    rcases process_cases sideEffect order v with
      ⟨e, -, h⟩ | ⟨-, product, price, hproduct, hprice,
        ⟨e, effect, -, h⟩ | ⟨effect, -, h⟩⟩
    · rw [h] at hprocess
      cases hprocess
    · rw [h] at hprocess
      cases hprocess
    · rw [h] at hprocess
      cases hprocess
      refine ⟨(product, price), ?_, ?_⟩
      · simp [Order.sale?, hproduct, hprice]
      · simp [hv]

/-- The aggregator after the unit of work of a handling. -/
theorem attempt_aggregator (setup : Setup σ) (order : Order) (c : Consumer σ) :
    (∃ n sale, (setup.attempt order c).result = .ok (RetryPolicy.success n) ∧
      order.sale? = some sale ∧
      (setup.attempt order c).state.aggregator = c.work.aggregator.addAll [sale]) ∨
    ((∀ outcome, (setup.attempt order c).result = .ok outcome →
        outcome.succeeded = false) ∧
      (setup.attempt order c).state.aggregator = c.work.aggregator) :=
  execute_aggregator setup.policy setup.sideEffect order c.drawn c.work

/-- The aggregator after a handling that succeeded. -/
theorem attempt_succeeded {setup : Setup σ} {order : Order} {c : Consumer σ}
    {outcome : RetryOutcome} (hresult : (setup.attempt order c).result = .ok outcome)
    (hsucceeded : outcome.succeeded = true) :
    ∃ sale, order.sale? = some sale ∧
      (setup.attempt order c).state.aggregator = c.work.aggregator.addAll [sale] := by
  rcases attempt_aggregator setup order c with ⟨n, sale, -, hsale, hadded⟩ | ⟨hfailed, -⟩
  · exact ⟨sale, hsale, hadded⟩
  · have hfalse := hfailed outcome hresult
    rw [hsucceeded] at hfalse
    cases hfalse

/-- The aggregator after a handling that failed. -/
theorem attempt_failed {setup : Setup σ} {order : Order} {c : Consumer σ}
    {outcome : RetryOutcome} (hresult : (setup.attempt order c).result = .ok outcome)
    (hfailed : outcome.succeeded = false) :
    (setup.attempt order c).state.aggregator = c.work.aggregator := by
  rcases attempt_aggregator setup order c with ⟨n, sale, hsuccess, -, -⟩ | ⟨-, hsame⟩
  · rw [hsuccess] at hresult
    cases hresult
    cases hfailed
  · exact hsame

/-! ## Booking one pass -/

/-- One more tick polls at most one more order. -/
theorem polledOrders_snoc (ticks : List Tick) (tick : Tick) :
    polledOrders (ticks ++ [tick]) = polledOrders ticks ++ tick.order?.toList := by
  unfold polledOrders
  rw [List.filterMap_append]
  cases h : tick.order? <;> simp [h]

/-- One more tick counts one more tombstone, if it is one. -/
theorem tombstones_snoc (ticks : List Tick) (tick : Tick) :
    tombstones (ticks ++ [tick]) = tombstones ticks + tick.isTombstone.toNat := by
  unfold tombstones
  rw [List.countP_append]
  cases h : tick.isTombstone <;> simp [h]

/-- A handling added at the end joins the successes, if it is one. -/
theorem succeededOf_snoc (hs : List Handling) (h : Handling) :
    succeededOf (hs ++ [h]) =
      succeededOf hs ++ if h.outcome.succeeded then [h] else [] := by
  unfold succeededOf
  rw [List.filter_append, List.filter_singleton]
  cases h.outcome.succeeded <;> rfl

/-- Or else the failures. -/
theorem failedOf_snoc (hs : List Handling) (h : Handling) :
    failedOf (hs ++ [h]) = failedOf hs ++ if h.outcome.succeeded then [] else [h] := by
  unfold failedOf
  rw [List.filter_append, List.filter_singleton]
  cases h.outcome.succeeded <;> rfl

/-- A handling at the front of the successes. -/
theorem succeededOf_cons (h : Handling) (hs : List Handling) :
    succeededOf (h :: hs) = (if h.outcome.succeeded then [h] else []) ++ succeededOf hs := by
  unfold succeededOf
  rw [List.filter_cons]
  split <;> rfl

theorem failedOf_cons (h : Handling) (hs : List Handling) :
    failedOf (h :: hs) = (if h.outcome.succeeded then [] else [h]) ++ failedOf hs := by
  unfold failedOf
  rw [List.filter_cons]
  cases h.outcome.succeeded <;> rfl

theorem books_fresh (dlqTopic : String) (effect : σ) (offsets : CommitLog.Offsets ℕ) :
    Books dlqTopic (Consumer.fresh effect offsets) where
  aggregator := rfl
  processed := rfl
  count := rfl
  published := List.Forall₂.nil
  failed := rfl
  failed_published := rfl

section Booking

variable {setup : Setup σ} {m : Message} {order : Order} {outcome : RetryOutcome}
  {c : Consumer σ}

/-- The books read neither the offsets nor the logs of commits and summaries. -/
theorem Books.of_same {dlqTopic : String} {c' : Consumer σ} (hbooks : Books dlqTopic c)
    (hwork : c'.work = c.work) (hprocessed : c'.processed = c.processed)
    (hfailed : c'.failed = c.failed) (hdlq : c'.dlq = c.dlq)
    (hhandled : c'.handled = c.handled) : Books dlqTopic c' := by
  obtain ⟨haggregator, hp, hcount, hpublished, hf, hboth⟩ := hbooks
  constructor
  · rw [hwork, hhandled, haggregator]
  · rw [hprocessed, hhandled, hp]
  · rw [hprocessed, hwork, hcount]
  · rw [hhandled, hdlq]
    exact hpublished
  · rw [hfailed, hhandled, hf]
  · rw [hfailed, hdlq, hboth]

/-- An order that succeeded is booked as processed and aggregated, and the DLQ is left
as it was. -/
theorem Books.succeed (hbooks : Books setup.dlqTopic c)
    (hresult : (setup.attempt order c).result = .ok outcome)
    (hsucceeded : outcome.succeeded = true) :
    Books setup.dlqTopic (setup.settled m order outcome c).countProcessed := by
  obtain ⟨sale, hsale, hadded⟩ := attempt_succeeded hresult hsucceeded
  have hlog : (setup.settled m order outcome c).countProcessed.handled =
      c.handled ++ [setup.handling m order outcome c] := rfl
  have hentry : (setup.handling m order outcome c).outcome.succeeded = true := hsucceeded
  refine ⟨?_, ?_, ?_, ?_, ?_, hbooks.failed_published⟩
  · rw [hlog, succeededOf_snoc, if_pos hentry, List.filterMap_append,
      OrderAggregator.addAll_append, ← hbooks.aggregator]
    refine hadded.trans ?_
    congr 1
    show [sale] = List.filterMap (fun h => h.order.sale?) [setup.handling m order outcome c]
    simp [Setup.handling, hsale]
  · rw [hlog, succeededOf_snoc, if_pos hentry, List.length_append, ← hbooks.processed]
    rfl
  · show c.processed + 1 = (setup.attempt order c).state.aggregator.count
    rw [hadded, OrderAggregator.count_addAll, hbooks.count]
    rfl
  · rw [hlog, failedOf_snoc, if_pos hentry, List.append_nil]
    exact hbooks.published
  · rw [hlog, failedOf_snoc, if_pos hentry, List.append_nil]
    exact hbooks.failed

/-- An order that failed is booked as failed and published, and the aggregator is left
as it was. -/
theorem Books.fail (hbooks : Books setup.dlqTopic c)
    (hresult : (setup.attempt order c).result = .ok outcome)
    (hfailed : outcome.succeeded = false) {failedAt : String} {r : DlqRecord}
    (hrecord : dlqRecordOf setup.dlqTopic m order outcome failedAt = .ok r) :
    Books setup.dlqTopic
      ((setup.settled m order outcome c).countFailed.enqueue r).countPublished := by
  have hsame := attempt_failed hresult hfailed
  have hlog : ((setup.settled m order outcome c).countFailed.enqueue
      r).countPublished.handled = c.handled ++ [setup.handling m order outcome c] := rfl
  have hentry : ¬(setup.handling m order outcome c).outcome.succeeded = true := by
    show ¬outcome.succeeded = true
    simp [hfailed]
  refine ⟨?_, ?_, ?_, ?_, ?_, ?_⟩
  · rw [hlog, succeededOf_snoc, if_neg hentry, List.append_nil]
    exact hsame.trans hbooks.aggregator
  · rw [hlog, succeededOf_snoc, if_neg hentry, List.append_nil]
    exact hbooks.processed
  · show c.processed = (setup.attempt order c).state.aggregator.count
    rw [hsame]
    exact hbooks.count
  · rw [hlog, failedOf_snoc, if_neg hentry]
    exact List.rel_append hbooks.published
      (List.Forall₂.cons ⟨failedAt, hrecord⟩ List.Forall₂.nil)
  · rw [hlog, failedOf_snoc, if_neg hentry, List.length_append, ← hbooks.failed]
    rfl
  · show c.failed + 1 = c.dlq.published + 1
    rw [hbooks.failed_published]

/-- Balanced books make a final report. -/
theorem Books.report {dlqTopic : String} (hbooks : Books dlqTopic c) :
    FinalReport dlqTopic c := by
  have hboth := hbooks.failed_published
  refine ⟨hbooks.count, by omega, by omega, ?_⟩
  rw [← hbooks.published.length_eq, List.take_length]
  exact hbooks.published

/-- Failing to publish leaves one failure without a record, and the exception ends the
run there. -/
theorem Books.unpublished (hbooks : Books setup.dlqTopic c)
    (hresult : (setup.attempt order c).result = .ok outcome)
    (hfailed : outcome.succeeded = false) :
    FinalReport setup.dlqTopic (setup.settled m order outcome c).countFailed := by
  have hboth := hbooks.failed_published
  have hlength := hbooks.published.length_eq
  have hlog : (setup.settled m order outcome c).countFailed.handled =
      c.handled ++ [setup.handling m order outcome c] := rfl
  refine ⟨?_, ?_, ?_, ?_⟩
  · show c.processed = (setup.attempt order c).state.aggregator.count
    rw [attempt_failed hresult hfailed]
    exact hbooks.count
  · show c.dlq.published ≤ c.failed + 1
    omega
  · show c.failed + 1 ≤ c.dlq.published + 1
    omega
  · show List.Forall₂ _ (List.take c.dlq.sent.length _) c.dlq.sent
    rw [hlog, failedOf_snoc, ← hlength, List.take_left]
    exact hbooks.published

end Booking

/-- **Step lemma.** A completed pass keeps the ledger: an idle pass changes nothing, a
tombstone is one more commit, and an order is booked as a success or as a failure. -/
theorem Ledger.pass {setup : Setup σ} {ticks : List Tick} {tick : Tick}
    {c c' : Consumer σ} (hledger : Ledger setup.dlqTopic ticks c)
    (hpass : iterate setup tick c = .next c') :
    Ledger setup.dlqTopic (ticks ++ [tick]) c' := by
  obtain ⟨hbooks, hhandled, hcommits⟩ := hledger
  rcases iterate_next hpass with ⟨hidle, rfl⟩ |
    ⟨m, hpoll, ⟨hvalue, -, rfl⟩ | ⟨order, hvalue, hhandle⟩⟩
  · have horder : tick.order? = none := by
      rcases hidle with h | h <;> simp [Tick.order?, h]
    have htombstone : tick.isTombstone = false := by
      rcases hidle with h | h <;> simp [Tick.isTombstone, h]
    refine ⟨hbooks, ?_, ?_⟩
    · rw [polledOrders_snoc, horder, hhandled]
      simp
    · rw [tombstones_snoc, htombstone]
      exact hcommits
  · have horder : tick.order? = none := by simp [Tick.order?, hpoll, hvalue]
    have htombstone : tick.isTombstone = true := by simp [Tick.isTombstone, hpoll, hvalue]
    refine ⟨hbooks.of_same rfl rfl rfl rfl rfl, ?_, ?_⟩
    · rw [polledOrders_snoc, horder, ← hhandled]
      simp [Consumer.commit, Consumer.receive]
    · rw [tombstones_snoc, htombstone]
      show c.processed + c.failed + (tombstones ticks + 1) = c.commits + 1
      omega
  · have horder : tick.order? = some (m, order) := by simp [Tick.order?, hpoll, hvalue]
    have htombstone : tick.isTombstone = false := by simp [Tick.isTombstone, hpoll, hvalue]
    have hreceived : Books setup.dlqTopic (c.receive m) :=
      hbooks.of_same rfl rfl rfl rfl rfl
    have hpolled : ∀ outcome, (c.handled ++
        [setup.handling m order outcome (c.receive m)]).map
          (fun h => (h.message, h.order)) = polledOrders (ticks ++ [tick]) := by
      intro outcome
      rw [List.map_append, hhandled, polledOrders_snoc, horder]
      rfl
    obtain ⟨outcome, hresult, -, ⟨hsucceeded, rfl⟩ | ⟨hfailed, -, r, hrecord, rfl⟩⟩ :=
      handle_next hhandle
    · obtain ⟨summaries, hsummary⟩ := Consumer.summarize_eq setup.summaryEvery
        (setup.settled m order outcome (c.receive m)).countProcessed.commit
      have hbooks' := hreceived.succeed (m := m) hresult hsucceeded
      rw [hsummary]
      refine ⟨hbooks'.of_same rfl rfl rfl rfl rfl, hpolled outcome, ?_⟩
      rw [tombstones_snoc, htombstone]
      show c.processed + 1 + c.failed + (tombstones ticks + 0) = c.commits + 1
      omega
    · obtain ⟨summaries, hsummary⟩ := Consumer.summarize_eq setup.summaryEvery
        ((setup.settled m order outcome (c.receive m)).countFailed.enqueue
          r).countPublished.commit
      have hbooks' := hreceived.fail (m := m) hresult hfailed hrecord
      rw [hsummary]
      refine ⟨hbooks'.of_same rfl rfl rfl rfl rfl, hpolled outcome, ?_⟩
      rw [tombstones_snoc, htombstone]
      show c.processed + (c.failed + 1) + (tombstones ticks + 0) = c.commits + 1
      omega

/-- A pass that raises from balanced books leaves a final report.  Wherever it stops,
the books are balanced or short of one published record. -/
theorem Books.raised {setup : Setup σ} {tick : Tick} {c c' : Consumer σ} {exc : Exn}
    (hbooks : Books setup.dlqTopic c) (hpass : iterate setup tick c = .raised c' exc) :
    FinalReport setup.dlqTopic c' := by
  have hreport := hbooks.report
  rcases iterate_raised hpass with rfl | ⟨m, -, ⟨-, -, rfl | rfl⟩ | ⟨order, -, hhandle⟩⟩
  · exact hreport
  · exact ⟨hreport.1, hreport.2, hreport.3, hreport.4⟩
  · exact ⟨hreport.1, hreport.2, hreport.3, hreport.4⟩
  · have hreceived : Books setup.dlqTopic (c.receive m) :=
      hbooks.of_same rfl rfl rfl rfl rfl
    rcases handle_raised hhandle with ⟨hescaped, rfl⟩ |
      ⟨outcome, hresult, ⟨hfailed, rfl⟩ | ⟨d, ⟨-, hd⟩, hbranch⟩⟩
    · rcases attempt_aggregator setup order (c.receive m) with
        ⟨n, sale, hsuccess, -, -⟩ | ⟨-, hsame⟩
      · rw [hsuccess] at hescaped
        cases hescaped
      · refine ⟨?_, hreport.2, hreport.3, hreport.4⟩
        show c.processed = (setup.attempt order (c.receive m)).state.aggregator.count
        rw [hsame]
        exact hbooks.count
    · exact hreceived.unpublished hresult hfailed
    · have hreport' : FinalReport setup.dlqTopic d := by
        rcases hbranch with ⟨hsucceeded, rfl⟩ | ⟨hfailed, r, hrecord, rfl⟩
        · exact (hreceived.succeed hresult hsucceeded).report
        · exact (hreceived.fail hresult hfailed hrecord).report
      rcases hd with rfl | rfl
      · exact hreport'
      · exact ⟨hreport'.1, hreport'.2, hreport'.3, hreport'.4⟩

/-- **Run lemma.**  A fresh consumer keeps its ledger at every loop head. -/
theorem ledger_at_head {setup : Setup σ} {effect : σ} {offsets : CommitLog.Offsets ℕ}
    {ticks : List Tick} {c : Consumer σ}
    (hrun : runLoop setup ticks (Consumer.fresh effect offsets) = .next c) :
    Ledger setup.dlqTopic ticks c :=
  runLoop_invariant (Ledger setup.dlqTopic) ⟨books_fresh _ effect offsets, rfl, rfl⟩
    (fun _ _ _ _ hledger hpass => hledger.pass hpass) hrun

/-- A run that ends with an exception leaves a final report. -/
theorem report_of_raised {setup : Setup σ} {effect : σ} {offsets : CommitLog.Offsets ℕ}
    {ticks : List Tick} {c : Consumer σ} {exc : Exn}
    (hrun : runLoop setup ticks (Consumer.fresh effect offsets) = .raised c exc) :
    FinalReport setup.dlqTopic c := by
  obtain ⟨before, tick, after, d, -, hbefore, hpass⟩ := runLoop_raised hrun
  exact (ledger_at_head hbefore).toBooks.raised hpass

/-- **The ledger balances.**  For every side effect and every sequence of ticks
a fresh consumer keeps its ledger at the loop heads, and if the run ends with an
exception the final report still counts what was aggregated and misses at most
one publication. -/
theorem ledger_of_run (setup : Setup σ) (effect : σ) (offsets : CommitLog.Offsets ℕ)
    (ticks : List Tick) :
    match runLoop setup ticks (Consumer.fresh effect offsets) with
    | .next c => Ledger setup.dlqTopic ticks c
    | .raised c _ => FinalReport setup.dlqTopic c := by
  cases hrun : runLoop setup ticks (Consumer.fresh effect offsets) with
  | next c => exact ledger_at_head hrun
  | raised c exc => exact report_of_raised hrun

end OrderPipeline

import OrderPipeline.InterleavingIndependence

/-!
# A consumer group

The topic has several partitions so that several consumers can share them: each
partition is assigned to one member of the group, and each member is a process of its
own, with its own simulator, aggregator and DLQ producer.

If all orders with one id are in one partition, sharing changes nothing but the place
where the results are: the counters of the members add up to those of one consumer that
reads everything, their DLQ records are together the same, and so are, in exact
arithmetic, the statistics of their sales (`group_equals_one`).
-/

namespace OrderPipeline

/-- A member of a group, and what it has after its run. -/
structure Member where
  rng : ℕ → Draw
  offsets : CommitLog.Offsets ℕ
  ticks : List Tick
  consumer : Consumer FailureSimulator

/-- A group of `n` members that has drained a topic: every partition is assigned to one
member, and each member is a fresh `main` that has read its partitions and no others. -/
structure Group (t : Topic) (args : Args) (dlqTopic : String) (n : ℕ) where
  assigned : ℕ → Fin n
  member : Fin n → Member
  drains : ∀ i p, (polledMessages (member i).ticks).filter (fun m => m.partition = p) =
    if assigned p = i then t.messages p else []
  runs : ∀ i, runLoop (mainSetup args (member i).rng dlqTopic) (member i).ticks
    (mainStart args (member i).offsets) = .next (member i).consumer

/-- What a fresh `main` answers to the orders it polls. -/
def mainTrace (args : Args) (orders : List (Message × Order)) :
    List ((Message × Order) × UnitEffect) :=
  Interleaving.trace orderKey
    (orderAnswer (mainSetup args (fun _ => Draw.half) "").policy args.flakyAttempts)
    (fun _ => 0) orders

/-- What a member has handled is, entry by entry, what the trace of the ids it has
polled says: the simulator of a member sees only the member's own orders. -/
theorem handled_mainTrace {args : Args} {rng : ℕ → Draw} {dlqTopic : String}
    {offsets : CommitLog.Offsets ℕ} {ticks : List Tick} {c : Consumer FailureSimulator}
    (hrun : runLoop (mainSetup args rng dlqTopic) ticks (mainStart args offsets) = .next c) :
    List.Forall₂ Handling.Shows c.handled (mainTrace args (polledOrders ticks)) := by
  have hshows := handled_of_run hrun
  exact hshows

/-- The orders of a drained topic with finite prices have finite prices. -/
theorem Drains.finite_price {t : Topic} (hplain : t.Plain) {ticks : List Tick}
    (hdrains : Drains t ticks) {x : Message × Order} (hx : x ∈ polledOrders ticks) :
    ∃ q, x.2.price = some (.finite q) := by
  obtain ⟨r, hr, o, ho, horder⟩ := hdrains.order hx
  rcases hplain _ r hr with htombstone | ⟨o', q, ho', hq⟩
  · rw [htombstone] at ho
    cases ho
  · rw [ho'] at ho
    cases ho
    exact ⟨q, by rw [horder, ← hq]; rfl⟩

/-- The sales of a list of handlings can be read off their results alone, without the
calls and the delays of the attempts. -/
theorem salesOf_result (hs : List Handling) :
    salesOf hs = ((hs.map Handling.result).filter fun x => x.2.succeeded).filterMap
      fun x => x.1.2.sale? := by
  rw [← succeededOf_result, List.filterMap_map]
  rfl

/-- The sales at finite prices are finite. -/
theorem salesOf_finite {hs : List Handling}
    (hfinite : ∀ h ∈ hs, ∃ q, h.order.price = some (.finite q)) :
    ∀ sale ∈ salesOf hs, ∃ q, sale.2 = .finite q := by
  intro sale hsale
  obtain ⟨h, hh, hsale⟩ := List.mem_filterMap.mp hsale
  obtain ⟨q, hq⟩ := hfinite h (List.mem_filter.mp hh).1
  unfold Order.sale? at hsale
  rw [hq] at hsale
  cases hproduct : h.order.product with
  | none =>
      rw [hproduct] at hsale
      cases hsale
  | some product =>
      rw [hproduct] at hsale
      cases hsale
      exact ⟨q, rfl⟩

namespace Group

variable {t : Topic} {args : Args} {dlqTopic : String} {n : ℕ}

/-- The members' variables at the end. -/
def consumers (g : Group t args dlqTopic n) : List (Consumer FailureSimulator) :=
  (List.finRange n).map fun i => (g.member i).consumer

/-- What a member has polled is its share of what one consumer polls.  Partition by
partition both are the messages of the partition, or both are none. -/
theorem polled_filter (g : Group t args dlqTopic n) {ticks : List Tick}
    (hdrains : Drains t ticks) (i : Fin n) (p : ℕ) :
    (polledOrders (g.member i).ticks).filter (fun x => x.1.partition = p) =
      ((polledOrders ticks).filter fun x => g.assigned x.1.partition = i).filter
        fun x => x.1.partition = p := by
  rw [polledOrders_filter, g.drains i p, List.filter_filter]
  by_cases hassigned : g.assigned p = i
  · have hsame : ((polledOrders ticks).filter fun x =>
        decide (x.1.partition = p) && decide (g.assigned x.1.partition = i)) =
        (polledOrders ticks).filter fun x => x.1.partition = p := by
      apply List.filter_congr
      intro x _
      by_cases hx : x.1.partition = p
      · simp [hx, hassigned]
      · simp [hx]
    rw [if_pos hassigned, hsame, polledOrders_filter, hdrains p]
  · have hnone : ((polledOrders ticks).filter fun x =>
        decide (x.1.partition = p) && decide (g.assigned x.1.partition = i)) = [] := by
      rw [List.filter_eq_nil_iff]
      intro x _
      by_cases hx : x.1.partition = p
      · simp [hx, hassigned]
      · simp [hx]
    rw [if_neg hassigned, hnone]
    rfl

/-- Polled orders with one id are in one partition. -/
theorem keys_of_drains (hkeyed : t.Keyed) {ticks : List Tick} (hdrains : Drains t ticks) :
    ∀ x ∈ polledOrders ticks, ∀ y ∈ polledOrders ticks,
      orderKey x = orderKey y → x.1.partition = y.1.partition := by
  intro x hx y hy hkey
  obtain ⟨r, hr, o, ho, hxo⟩ := hdrains.order hx
  obtain ⟨r', hr', o', ho', hyo⟩ := hdrains.order hy
  unfold orderKey at hkey
  rw [hxo, hyo] at hkey
  exact hkeyed _ _ r r' o o' hr hr' ho ho' hkey

/-- The orders of a drained topic by the members that handle them: the ids of different
members are different, so the traces are independent. -/
theorem mainTrace_split (g : Group t args dlqTopic n) (hkeyed : t.Keyed) {ticks : List Tick}
    (hdrains : Drains t ticks) :
    (mainTrace args (polledOrders ticks)).Perm ((List.finRange n).flatMap fun i =>
      mainTrace args (polledOrders (g.member i).ticks)) := by
  have hkeys := keys_of_drains hkeyed hdrains
  have hsplit : (mainTrace args (polledOrders ticks)).Perm ((List.finRange n).flatMap fun i =>
      mainTrace args ((polledOrders ticks).filter fun x => g.assigned x.1.partition = i)) := by
    refine Interleaving.trace_split (List.nodup_finRange n)
      (fun x : Message × Order => g.assigned x.1.partition) (fun _ => 0) ?_ ?_
    · intro x _
      exact List.mem_finRange _
    · intro x hx y hy hkey
      rw [hkeys x hx y hy hkey]
  refine hsplit.trans (List.Perm.flatMap_left _ ?_)
  intro i _
  refine Interleaving.trace_perm (fun x : Message × Order => x.1.partition) (fun _ => 0)
    (fun p => (g.polled_filter hdrains i p).symm) ?_
  intro x hx y hy
  exact hkeys x (List.mem_filter.mp hx).1 y (List.mem_filter.mp hy).1

/-- **The members' results are those of one consumer**, up to their order. -/
theorem results_perm (g : Group t args dlqTopic n) (hkeyed : t.Keyed) {rng : ℕ → Draw}
    {offsets : CommitLog.Offsets ℕ} {ticks : List Tick} {c : Consumer FailureSimulator}
    (hdrains : Drains t ticks)
    (hrun : runLoop (mainSetup args rng dlqTopic) ticks (mainStart args offsets) = .next c) :
    (c.handled.map Handling.result).Perm
      (g.consumers.flatMap fun d => d.handled.map Handling.result) := by
  have hmembers : (g.consumers.flatMap fun d => d.handled.map Handling.result) =
      ((List.finRange n).flatMap fun i => mainTrace args (polledOrders (g.member i).ticks)).map
        fun x => (x.1, x.2.outcome) := by
    unfold consumers
    rw [List.flatMap_map, List.map_flatMap]
    apply List.flatMap_congr
    intro i _
    exact map_result_of_shows (handled_mainTrace (g.runs i))
  rw [map_result_of_shows (handled_mainTrace hrun), hmembers]
  exact (g.mainTrace_split hkeyed hdrains).map _

/-- A number of handlings that depends on their results adds up over the members, for
the results are those of one consumer. -/
theorem length_filter_sum (g : Group t args dlqTopic n) {hs : List Handling}
    (hperm : (hs.map Handling.result).Perm
      (g.consumers.flatMap fun d => d.handled.map Handling.result))
    (p : (Message × Order) × RetryOutcome → Bool) :
    (hs.filter fun h => p h.result).length =
      (g.consumers.map fun d => (d.handled.filter fun h => p h.result).length).sum := by
  have hlength := (hperm.filter p).length_eq
  rw [List.filter_map, List.length_map, List.filter_flatMap, List.length_flatMap] at hlength
  rw [show (hs.filter fun h => p h.result) = hs.filter (p ∘ Handling.result) from rfl, hlength]
  congr 1
  apply List.map_congr_left
  intro d _
  rw [List.filter_map, List.length_map]
  rfl

end Group

/-- **Sharing the partitions changes nothing.**  A group whose members have drained their
partitions, and one consumer that has drained the topic, agree when all orders with one
id are in one partition and the prices are finite: the counters of the members add up,
their sales together make the one aggregator, and their DLQ records are together the
same, time stamps aside.

The aggregators agree in exact arithmetic.  The members' sales come in another order than
those of one consumer, so rounded averages may differ in their last digits; how far is
bounded by `rounded_tracks_exact`, which holds of both orders. -/
theorem group_equals_one {t : Topic} (hplain : t.Plain) (hkeyed : t.Keyed) {args : Args}
    {dlqTopic : String} {n : ℕ} (g : Group t args dlqTopic n) {rng : ℕ → Draw}
    {offsets : CommitLog.Offsets ℕ} {ticks : List Tick} {c : Consumer FailureSimulator}
    (hdrains : Drains t ticks)
    (hrun : runLoop (mainSetup args rng dlqTopic) ticks (mainStart args offsets) = .next c) :
    c.processed = (g.consumers.map Consumer.processed).sum ∧
      c.failed = (g.consumers.map Consumer.failed).sum ∧
      (∀ d ∈ g.consumers,
        d.work.aggregator = ({} : OrderAggregator).addAll (salesOf d.handled)) ∧
      c.work.aggregator =
        ({} : OrderAggregator).addAll (g.consumers.flatMap fun d => salesOf d.handled) ∧
      (c.dlq.sent.map DlqRecord.withoutFailedAt).Perm
        (g.consumers.flatMap fun d => d.dlq.sent.map DlqRecord.withoutFailedAt) := by
  have hresults := g.results_perm hkeyed hdrains hrun
  have hledger := ledger_at_head hrun
  have hbooks : ∀ d ∈ g.consumers, Books dlqTopic d := by
    intro d hd
    obtain ⟨i, -, rfl⟩ := List.mem_map.mp hd
    exact (ledger_at_head (g.runs i)).toBooks
  refine ⟨?_, ?_, fun d hd => (hbooks d hd).aggregator, ?_, ?_⟩
  · rw [hledger.processed]
    refine (g.length_filter_sum hresults fun x => x.2.succeeded).trans ?_
    congr 1
    apply List.map_congr_left
    intro d hd
    exact (hbooks d hd).processed.symm
  · rw [hledger.failed]
    refine (g.length_filter_sum hresults fun x => !x.2.succeeded).trans ?_
    congr 1
    apply List.map_congr_left
    intro d hd
    exact (hbooks d hd).failed.symm
  · have hsales : (salesOf c.handled).Perm
        (g.consumers.flatMap fun d => salesOf d.handled) := by
      have hsold := (hresults.filter fun x => x.2.succeeded).filterMap fun x => x.1.2.sale?
      rw [← salesOf_result, List.filter_flatMap, List.filterMap_flatMap] at hsold
      simpa only [← salesOf_result] using hsold
    have hfinite : ∀ h ∈ c.handled, ∃ q, h.order.price = some (.finite q) := by
      intro h hh
      have hpolled : (h.message, h.order) ∈ polledOrders ticks := by
        rw [← hledger.handled]
        exact List.mem_map.mpr ⟨h, hh, rfl⟩
      exact hdrains.finite_price hplain hpolled
    rw [hledger.aggregator]
    exact OrderAggregator.addAll_perm_of_finite hsales (salesOf_finite hfinite)
  · have hpublished : ∀ d : Consumer FailureSimulator, Books dlqTopic d →
        d.dlq.sent.map DlqRecord.withoutFailedAt =
          ((d.handled.map Handling.result).filter fun x => !x.2.succeeded).filterMap
            (resultRecord dlqTopic) := by
      intro d hd
      rw [← failedOf_result]
      exact sent_withoutFailedAt hd.published
    have hrecords := (hresults.filter fun x => !x.2.succeeded).filterMap
      (resultRecord dlqTopic)
    rw [← hpublished c hledger.toBooks, List.filter_flatMap, List.filterMap_flatMap]
      at hrecords
    refine hrecords.trans (List.Perm.of_eq ?_)
    apply List.flatMap_congr
    intro d hd
    exact (hpublished d (hbooks d hd)).symm

/-! ## Two members -/

/-- The member that reads one partition of the sample topic. -/
def sampleMember (p : Fin 2) : Member where
  rng := fun _ => Draw.half
  offsets := CommitLog.Offsets.zero
  ticks := [sampleTopic.tick p 0 "t0", sampleTopic.tick p 1 "t1"]
  consumer := (runLoop (mainSetup {} (fun _ => Draw.half) "orders.DLQ")
    [sampleTopic.tick p 0 "t0", sampleTopic.tick p 1 "t1"]
    (mainStart {} CommitLog.Offsets.zero)).state

/-- Partition 0 for the first member, the others for the second one. -/
def sampleAssigned (p : ℕ) : Fin 2 := if p = 0 then 0 else 1

theorem sampleGroup_drains (i : Fin 2) (p : ℕ) :
    (polledMessages (sampleMember i).ticks).filter (fun m => m.partition = p) =
      if sampleAssigned p = i then sampleTopic.messages p else [] := by
  match i, p with
  | 0, 0 => decide +kernel
  | 0, 1 => decide +kernel
  | 1, 0 => decide +kernel
  | 1, 1 => decide +kernel
  | 0, p + 2 => rfl
  | 1, p + 2 => rfl

theorem sampleGroup_runs (i : Fin 2) :
    runLoop (mainSetup {} (sampleMember i).rng "orders.DLQ") (sampleMember i).ticks
      (mainStart {} (sampleMember i).offsets) = .next (sampleMember i).consumer := by
  match i with
  | 0 => exact Pass.eq_next (by decide +kernel)
  | 1 => exact Pass.eq_next (by decide +kernel)

def sampleGroup : Group sampleTopic {} "orders.DLQ" 2 where
  assigned := sampleAssigned
  member := sampleMember
  drains := sampleGroup_drains
  runs := sampleGroup_runs

/-- One member recovers the FLAKY order, the other one aggregates the good order and
dead-letters the POISON one. -/
theorem group_equals_one_sample :
    let c := (runLoop (mainSetup {} (fun _ => Draw.half) "orders.DLQ") sampleTicks
      (mainStart {} CommitLog.Offsets.zero)).state
    sampleGroup.consumers.map Consumer.processed = [1, 1] ∧
      c.processed = (sampleGroup.consumers.map Consumer.processed).sum ∧
      c.failed = (sampleGroup.consumers.map Consumer.failed).sum ∧
      (c.dlq.sent.map DlqRecord.withoutFailedAt).Perm
        (sampleGroup.consumers.flatMap fun d => d.dlq.sent.map DlqRecord.withoutFailedAt) := by
  intro c
  have hrun : runLoop (mainSetup {} (fun _ => Draw.half) "orders.DLQ") sampleTicks
      (mainStart {} CommitLog.Offsets.zero) = .next c := Pass.eq_next (by decide +kernel)
  obtain ⟨hprocessed, hfailed, -, -, hsent⟩ := group_equals_one sampleTopic_plain
    sampleTopic_keyed sampleGroup sampleTicks_drain hrun
  exact ⟨by decide +kernel, hprocessed, hfailed, hsent⟩

end OrderPipeline

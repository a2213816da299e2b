import Mathlib.Data.List.Forall2
import Mathlib.Data.List.ReduceOption
import OrderPipeline.MainRuns

/-!
# Partitions in any interleaving

Kafka orders the records of one partition only, so two runs may see the same
logs interleaved differently.  Two runs of `main` that drain the same logs end
with the same aggregator, the same counters and the same DLQ records up to their
order and time stamps (`result_independent`), when all orders with one id are in
one partition.

The outcomes agree because the simulator counts per id, which is
`Interleaving.trace_perm`; the aggregates agree because sums, minima and maxima
do not depend on the order of finite prices.
-/

namespace OrderPipeline

/-- The message that a tick brings. -/
def Tick.message? (tick : Tick) : Option Message :=
  match tick.poll with
  | .message m => some m
  | _ => none

/-- The messages that the ticks bring, in order. -/
def polledMessages (ticks : List Tick) : List Message := ticks.filterMap Tick.message?

/-- The messages of a partition, in log order. -/
def Topic.messages (t : Topic) (p : ℕ) : List Message :=
  ((t.log p).mapIdx fun n r => r.message? t.name p n).reduceOption

/-- The ticks bring every message of every partition once, and those of one
partition in log order. -/
def Drains (t : Topic) (ticks : List Tick) : Prop :=
  ∀ p, (polledMessages ticks).filter (fun m => m.partition = p) = t.messages p

/-- Every record is a tombstone or an order with a finite price. -/
def Topic.Plain (t : Topic) : Prop :=
  ∀ p, ∀ r ∈ t.log p, r.content = .tombstone ∨
    ∃ o q, r.content = .order o ∧ o.price = .finite q

/-- All orders with one id are in one partition. -/
def Topic.Keyed (t : Topic) : Prop :=
  ∀ p p' r r' o o', r ∈ t.log p → r' ∈ t.log p' → r.content = .order o →
    r'.content = .order o' → o.orderId = o'.orderId → p = p'

/-! ## What the ticks bring -/

/-- The polled orders are those of the polled messages that carry one; tombstones drop
out. -/
theorem polledOrders_eq (ticks : List Tick) :
    polledOrders ticks =
      (polledMessages ticks).filterMap fun m => m.value.map fun order => (m, order) := by
  unfold polledOrders polledMessages
  rw [List.filterMap_filterMap]
  congr 1
  funext tick
  unfold Tick.order? Tick.message?
  cases tick.poll <;> rfl

/-- The orders of one partition come from its messages. -/
theorem polledOrders_filter (ticks : List Tick) (p : ℕ) :
    (polledOrders ticks).filter (fun x => x.1.partition = p) =
      ((polledMessages ticks).filter fun m => m.partition = p).filterMap
        fun m => m.value.map fun order => (m, order) := by
  rw [polledOrders_eq, List.filter_filterMap, List.filterMap_filter]
  congr 1
  funext m
  cases m.value with
  | none => simp
  | some order => simp [Option.filter]

/-- A message of a partition stands for a record of its log. -/
theorem Topic.mem_messages {t : Topic} {p : ℕ} {m : Message} (h : m ∈ t.messages p) :
    ∃ n, ∃ r : Record, (t.log p)[n]? = some r ∧ r.message? t.name p n = some m := by
  have hmem := List.reduceOption_mem_iff.mp h
  obtain ⟨n, hn, hm⟩ := List.mem_mapIdx.mp hmem
  exact ⟨n, (t.log p)[n], List.getElem?_eq_getElem hn, hm⟩

/-- An order that is polled from the logs is an order of its partition, decoded from one
of the records there. -/
theorem Drains.order {t : Topic} {ticks : List Tick} (hdrains : Drains t ticks)
    {x : Message × Order} (hx : x ∈ polledOrders ticks) :
    ∃ r ∈ t.log x.1.partition, ∃ o, r.content = .order o ∧ x.2 = dictToOrder o := by
  rw [polledOrders_eq] at hx
  obtain ⟨m, hm, hvalue⟩ := List.mem_filterMap.mp hx
  obtain ⟨order, horder, rfl⟩ := Option.map_eq_some_iff.mp hvalue
  have hpartition : m ∈ t.messages m.partition := by
    rw [← hdrains m.partition]
    exact List.mem_filter.mpr ⟨hm, by simp⟩
  obtain ⟨n, r, hr, hmessage⟩ := Topic.mem_messages hpartition
  refine ⟨r, List.mem_of_getElem? hr, ?_⟩
  unfold Record.message? at hmessage
  cases hcontent : r.content with
  | order o =>
      rw [hcontent] at hmessage
      have hm' := Option.some.inj hmessage
      rw [← hm'] at horder
      exact ⟨o, rfl, (Option.some.inj horder).symm⟩
  | tombstone =>
      rw [hcontent] at hmessage
      have hm' := Option.some.inj hmessage
      rw [← hm'] at horder
      cases horder
  | undecodable =>
      rw [hcontent] at hmessage
      cases hmessage

/-! ## What a run leaves behind -/

/-- An order and its outcome. -/
def Handling.result (h : Handling) : (Message × Order) × RetryOutcome :=
  ((h.message, h.order), h.outcome)

/-- The results of the handlings can be read off the trace, and the trace depends on the
ids only. -/
theorem map_result_of_shows {hs : List Handling}
    {xs : List ((Message × Order) × UnitEffect)} (h : List.Forall₂ Handling.Shows hs xs) :
    hs.map Handling.result = xs.map fun x => (x.1, x.2.outcome) := by
  induction h with
  | nil => rfl
  | cons hhead _ ih =>
      obtain ⟨hmessage, horder, houtcome, -⟩ := hhead
      rw [List.map_cons, List.map_cons, ih, Handling.result, hmessage, horder, houtcome]

/-- The record of a result, without its time stamp. -/
def resultRecord (dlqTopic : String) (x : (Message × Order) × RetryOutcome) :
    Option DlqRecord :=
  match dlqRecordOf dlqTopic x.1.1 x.1.2 x.2 "" with
  | .ok r => some r.withoutFailedAt
  | .error _ => none

/-- But for the time stamp, the record of a handling depends on its result
alone. -/
theorem Handling.PublishedAs.resultRecord {dlqTopic : String} {h : Handling}
    {r : DlqRecord} (hpublished : h.PublishedAs dlqTopic r) :
    OrderPipeline.resultRecord dlqTopic h.result = some r.withoutFailedAt := by
  obtain ⟨failedAt, hrecord⟩ := hpublished
  obtain ⟨headers, value, hheaders, hpayload, rfl⟩ := buildRecord_ok_iff.mp hrecord
  obtain ⟨cls, text, hcls, htext, rfl⟩ := buildHeaders_ok_iff.mp hheaders
  have hrecord' : dlqRecordOf dlqTopic h.message h.order h.outcome "" = .ok _ :=
    buildRecord_ok_iff.mpr
      ⟨_, value, buildHeaders_ok_iff.mpr ⟨cls, text, hcls, htext, rfl⟩, hpayload, rfl⟩
  simp only [OrderPipeline.resultRecord, Handling.result, hrecord']
  rfl

/-- But for the time stamps, what was published depends on the results alone. -/
theorem sent_withoutFailedAt {dlqTopic : String} {hs : List Handling}
    {sent : List DlqRecord}
    (h : List.Forall₂ (Handling.PublishedAs dlqTopic) hs sent) :
    sent.map DlqRecord.withoutFailedAt =
      (hs.map Handling.result).filterMap (resultRecord dlqTopic) := by
  induction h with
  | nil => rfl
  | cons hhead _ ih =>
      rw [List.map_cons, List.map_cons, ih,
        List.filterMap_cons_some hhead.resultRecord]

/-- The handlings that failed, by their results. -/
theorem failedOf_result (hs : List Handling) :
    (failedOf hs).map Handling.result =
      (hs.map Handling.result).filter fun x => !x.2.succeeded := by
  unfold failedOf
  rw [List.filter_map]
  rfl

/-- Whether a handling counts as a success is part of its result. -/
theorem succeededOf_result (hs : List Handling) :
    (succeededOf hs).map Handling.result =
      (hs.map Handling.result).filter fun x => x.2.succeeded := by
  unfold succeededOf
  rw [List.filter_map]
  rfl

/-! ## Two runs -/

/-- The order of the orders that succeeded does not matter, if their prices are
finite. -/
theorem addAll_sales_perm {hs hs' : List Handling}
    (hperm : (hs.map Handling.result).Perm (hs'.map Handling.result))
    (hfinite : ∀ h ∈ hs, ∃ q, h.order.price = some (.finite q)) :
    ({} : OrderAggregator).addAll ((succeededOf hs).filterMap (·.order.sale?)) =
      ({} : OrderAggregator).addAll ((succeededOf hs').filterMap (·.order.sale?)) := by
  have hsales : ∀ hs : List Handling, (succeededOf hs).filterMap (·.order.sale?) =
      ((hs.map Handling.result).filter fun x => x.2.succeeded).filterMap
        fun x => x.1.2.sale? := by
    intro hs
    rw [← succeededOf_result, List.filterMap_map]
    rfl
  have hpermSales := (hperm.filter fun x => x.2.succeeded).filterMap fun x => x.1.2.sale?
  rw [← hsales hs, ← hsales hs'] at hpermSales
  refine OrderAggregator.addAll_perm_of_finite hpermSales ?_
  intro sale hsale
  obtain ⟨h, hh, hsale⟩ := List.mem_filterMap.mp hsale
  obtain ⟨q, hq⟩ := hfinite h (List.mem_filter.mp hh).1
  unfold Order.sale? at hsale
  rw [hq] at hsale
  cases hproduct : h.order.product with
  | none =>
      rw [hproduct] at hsale
      cases hsale
  | some product =>
      rw [hproduct] at hsale
      cases hsale
      exact ⟨q, rfl⟩

/-- **The result does not depend on the interleaving.**  Two runs of a fresh
`main` with the same arguments that drain the same logs end with the same
aggregator, the same counters, and the same DLQ records up to their order and
time stamps, whatever the interleavings, the jitter and the clocks. -/
theorem result_independent {t : Topic} (hplain : t.Plain) (hkeyed : t.Keyed)
    (args : Args) (dlqTopic : String) {rng rng' : ℕ → Draw}
    {offsets offsets' : CommitLog.Offsets ℕ} {ticks ticks' : List Tick}
    {c c' : Consumer FailureSimulator} (hdrains : Drains t ticks)
    (hdrains' : Drains t ticks')
    (hrun : runLoop (mainSetup args rng dlqTopic) ticks (mainStart args offsets) =
      .next c)
    (hrun' : runLoop (mainSetup args rng' dlqTopic) ticks' (mainStart args offsets') =
      .next c') :
    c.work.aggregator = c'.work.aggregator ∧ c.processed = c'.processed ∧
      c.failed = c'.failed ∧
      (c.dlq.sent.map DlqRecord.withoutFailedAt).Perm
        (c'.dlq.sent.map DlqRecord.withoutFailedAt) := by
  have hledger := ledger_at_head hrun
  have hledger' := ledger_at_head hrun'
  have hsources : ∀ p, (polledOrders ticks).filter (fun x => x.1.partition = p) =
      (polledOrders ticks').filter (fun x => x.1.partition = p) := by
    intro p
    rw [polledOrders_filter, polledOrders_filter, hdrains p, hdrains' p]
  have hkeys : ∀ x ∈ polledOrders ticks, ∀ y ∈ polledOrders ticks,
      orderKey x = orderKey y → x.1.partition = y.1.partition := by
    intro x hx y hy hkey
    obtain ⟨r, hr, o, ho, hxo⟩ := hdrains.order hx
    obtain ⟨r', hr', o', ho', hyo⟩ := hdrains.order hy
    unfold orderKey at hkey
    rw [hxo, hyo] at hkey
    exact hkeyed _ _ r r' o o' hr hr' ho ho' hkey
  have hresults : (c.handled.map Handling.result).Perm (c'.handled.map Handling.result) := by
    rw [map_result_of_shows (handled_of_run hrun), map_result_of_shows (handled_of_run hrun')]
    refine List.Perm.map _ ?_
    exact Interleaving.trace_perm (fun x : Message × Order => x.1.partition) (fun _ => 0)
      hsources hkeys
  have hfinite : ∀ h ∈ c.handled, ∃ q, h.order.price = some (.finite q) := by
    intro h hh
    have hpolled : (h.message, h.order) ∈ polledOrders ticks := by
      rw [← hledger.handled]
      exact List.mem_map.mpr ⟨h, hh, rfl⟩
    obtain ⟨r, hr, o, ho, horder⟩ := hdrains.order hpolled
    have horder : h.order = dictToOrder o := horder
    rcases hplain _ r hr with htombstone | ⟨o', q, ho', hq⟩
    · rw [htombstone] at ho
      cases ho
    · rw [ho'] at ho
      cases ho
      exact ⟨q, by rw [horder, ← hq]; rfl⟩
  have hfailed := hresults.filter fun x => !x.2.succeeded
  have hsucceeded := hresults.filter fun x => x.2.succeeded
  rw [← failedOf_result, ← failedOf_result] at hfailed
  rw [← succeededOf_result, ← succeededOf_result] at hsucceeded
  refine ⟨?_, ?_, ?_, ?_⟩
  · rw [hledger.aggregator, hledger'.aggregator]
    exact addAll_sales_perm hresults hfinite
  · have hlength := hsucceeded.length_eq
    rw [List.length_map, List.length_map] at hlength
    rw [hledger.processed, hledger'.processed, hlength]
  · have hlength := hfailed.length_eq
    rw [List.length_map, List.length_map] at hlength
    rw [hledger.failed, hledger'.failed, hlength]
  · have hsent : c.dlq.sent.map DlqRecord.withoutFailedAt = _ :=
      sent_withoutFailedAt hledger.published
    have hsent' : c'.dlq.sent.map DlqRecord.withoutFailedAt = _ :=
      sent_withoutFailedAt hledger'.published
    rw [hsent, hsent']
    exact hfailed.filterMap _

/-! ## Two interleavings of two partitions -/

/-- A FLAKY order and a tombstone in one partition, a good and a POISON order in
the other. -/
def sampleTopic : Topic where
  name := "orders"
  partitions :=
    [[⟨some "1001", .order ⟨"1001", "FLAKY", .finite 20⟩⟩, ⟨some "1001", .tombstone⟩],
      [⟨some "1002", .order ⟨"1002", "Item1", .finite 10⟩⟩,
        ⟨some "1003", .order ⟨"1003", "POISON", .finite 30⟩⟩]]

/-- The tick that brings one record of the topic. -/
def Topic.tick (t : Topic) (p n : ℕ) (failedAt : String) : Tick where
  poll := (((t.log p)[n]?.bind fun r => r.message? t.name p n).map Poll.message).getD .idle
  failedAt := failedAt

def sampleTicks : List Tick :=
  [sampleTopic.tick 0 0 "t0", sampleTopic.tick 1 0 "t1", sampleTopic.tick 0 1 "t2",
    sampleTopic.tick 1 1 "t3"]

def sampleTicks' : List Tick :=
  [sampleTopic.tick 1 0 "t4", sampleTopic.tick 1 1 "t5", sampleTopic.tick 0 0 "t6",
    sampleTopic.tick 0 1 "t7"]

theorem sampleTopic_plain : sampleTopic.Plain := by
  intro p r hr
  match p with
  | 0 =>
      rcases List.mem_cons.mp hr with rfl | hr
      · exact Or.inr ⟨_, 20, rfl, rfl⟩
      · rw [List.mem_singleton.mp hr]
        exact Or.inl rfl
  | 1 =>
      rcases List.mem_cons.mp hr with rfl | hr
      · exact Or.inr ⟨_, 10, rfl, rfl⟩
      · rw [List.mem_singleton.mp hr]
        exact Or.inr ⟨_, 30, rfl, rfl⟩
  | p + 2 => cases hr

theorem sampleTopic_keyed : sampleTopic.Keyed := by
  intro p p' r r' o o' hr hr' ho ho' hid
  have hkey : ∀ p r o, r ∈ sampleTopic.log p → r.content = .order o →
      p = if o.orderId = "1001" then 0 else 1 := by
    intro p r o hr ho
    match p with
    | 0 =>
        rcases List.mem_cons.mp hr with rfl | hr
        · cases ho
          rfl
        · rw [List.mem_singleton.mp hr] at ho
          cases ho
    | 1 =>
        rcases List.mem_cons.mp hr with rfl | hr
        · cases ho
          rfl
        · rw [List.mem_singleton.mp hr] at ho
          cases ho
          rfl
    | p + 2 => cases hr
  rw [hkey p r o hr ho, hkey p' r' o' hr' ho', hid]

theorem sampleTicks_drain : Drains sampleTopic sampleTicks := by
  intro p
  match p with
  | 0 => decide +kernel
  | 1 => decide +kernel
  | p + 2 => rfl

theorem sampleTicks'_drain : Drains sampleTopic sampleTicks' := by
  intro p
  match p with
  | 0 => decide +kernel
  | 1 => decide +kernel
  | p + 2 => rfl

/-- Both interleavings dead-letter the POISON order and aggregate the others. -/
theorem result_independent_sample :
    let setup := mainSetup {} (fun _ => Draw.half) "orders.DLQ"
    let start := mainStart {} CommitLog.Offsets.zero
    let c := (runLoop setup sampleTicks start).state
    let c' := (runLoop setup sampleTicks' start).state
    (c.processed, c.failed) = (2, 1) ∧ c.work.aggregator = c'.work.aggregator ∧
      c.processed = c'.processed ∧ c.failed = c'.failed ∧
      (c.dlq.sent.map DlqRecord.withoutFailedAt).Perm
        (c'.dlq.sent.map DlqRecord.withoutFailedAt) := by
  intro setup start c c'
  have hrun : runLoop setup sampleTicks start = .next c := Pass.eq_next (by decide +kernel)
  have hrun' : runLoop setup sampleTicks' start = .next c' :=
    Pass.eq_next (by decide +kernel)
  exact ⟨by decide +kernel, result_independent sampleTopic_plain sampleTopic_keyed {}
    "orders.DLQ" sampleTicks_drain sampleTicks'_drain hrun hrun'⟩

end OrderPipeline

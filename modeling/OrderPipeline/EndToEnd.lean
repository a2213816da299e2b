import OrderPipeline.Foundation.Binary64
import OrderPipeline.Foundation.IntText
import OrderPipeline.InterleavingIndependence

/-!
# From the generator to the dead letter queue

The orders of `generate_orders` have distinct ids and pass `validate`, also after
their prices have been converted to Avro floats; the conversion is a parameter.
So each FLAKY order has a counter of its own, and a run of `main` that drains them
dead-letters exactly the POISON orders and, if the budget does not exceed the
threshold, the FLAKY ones, and aggregates all others (`generated_end_to_end`).
-/

namespace OrderPipeline

/-- The order as it is decoded again: its price has been an Avro float. -/
def AvroOrder.onWire (avroFloat : ℚ → ℚ) (o : AvroOrder) : AvroOrder :=
  { o with
    price := match o.price with
      | .finite q => .finite (avroFloat q)
      | price => price }

/-- The record that the producer sends for an order. -/
def AvroOrder.record (o : AvroOrder) : Record := ⟨some o.orderId, .order o⟩

/-- The orders are distributed over the partitions, each once. -/
def Topic.Carries (t : Topic) (orders : List AvroOrder) : Prop :=
  t.partitions.flatten.Perm (orders.map AvroOrder.record)

/-- The orders that no attempt gets through: POISON, and FLAKY when the threshold
is not below the budget. -/
def DeadLettered (args : Args) (order : Order) : Prop :=
  order.product = some poisonProduct ∨
    (order.product = some flakyProduct ∧ args.maxAttempts ≤ args.flakyAttempts)

instance (args : Args) (order : Order) : Decidable (DeadLettered args order) :=
  inferInstanceAs (Decidable (_ ∨ (_ ∧ _)))

/-- The invocations spent on a dead-lettered order. -/
def effort (args : Args) (order : Order) : ℕ :=
  if order.product = some poisonProduct then 1 else args.maxAttempts.toNat

/-- What a run leaves behind when it has drained generated orders. -/
structure EndToEnd (args : Args) (dlqTopic : String) (orders : List Order)
    (c : Consumer FailureSimulator) : Prop where
  failed : ((failedOf c.handled).map Handling.order).Perm
    (orders.filter fun o => DeadLettered args o)
  spent : ∀ h ∈ failedOf c.handled,
    (invocations h.calls).length = effort args h.order ∧
      h.outcome.attempts = effort args h.order
  published : List.Forall₂ (fun h r => h.PublishedAs dlqTopic r ∧
      r.headers.lookup hdrRetryCount =
        some (PyStr.encodeString (toString (effort args h.order : ℤ))))
    (failedOf c.handled) c.dlq.sent
  aggregated : ∃ sales, c.work.aggregator = ({} : OrderAggregator).addAll sales ∧
    (sales.map some).Perm
      ((orders.filter fun o => ¬DeadLettered args o).map Order.sale?)
  total : c.processed + c.failed = orders.length

/-! ## Generated orders -/

/-- A generated price is at least the minimum. -/
theorem generated_price_ge (u : Draw) :
    minPrice ≤ round2 (minPrice + (maxPrice - minPrice) * u.val) := by
  have hu := u.nonneg
  have hscaled : ((500 : ℤ) : ℚ) ≤ (minPrice + (maxPrice - minPrice) * u.val) * 100 := by
    unfold minPrice maxPrice
    push_cast
    linarith
  have hrounded : ((500 : ℤ) : ℚ) ≤
      PyFloat.roundHalfEven ((minPrice + (maxPrice - minPrice) * u.val) * 100) := by
    exact_mod_cast PyFloat.le_roundHalfEven hscaled
  unfold round2
  rw [le_div_iff₀ (by norm_num)]
  unfold minPrice at hrounded ⊢
  push_cast at hrounded
  linarith

/-- Whatever the rates and the draws, a generated order has a product, so it passes that
check. -/
theorem chooseProduct_ne_empty (poisonRate flakyRate : ℚ) (rng : OrderDraws) :
    chooseProduct poisonRate flakyRate rng ≠ "" := by
  have hpool : ∀ i : Fin 5, productPool.getD i "" ≠ "" := by decide
  unfold chooseProduct
  split
  · decide
  · split
    · decide
    · exact hpool rng.choice

/-- An order with an id, a product and a positive price passes. -/
theorem passes_of_positive {o : AvroOrder} {q : ℚ} (hid : o.orderId ≠ "")
    (hproduct : o.product ≠ "") (hprice : o.price = .finite q) (hq : 0 < q) :
    (dictToOrder o).passes = true := by
  have hle : ¬q ≤ 0 := not_le.mpr hq
  rw [passes_iff]
  unfold validate dictToOrder
  simp [hid, hproduct, hprice, hle]

section Generated

variable {count : ℤ} {poisonRate flakyRate : ℚ} {draws : ℕ → OrderDraws} {startId : ℤ}

/-- Every generated order passes `validate`, with its own price and with the
converted one. -/
theorem generated_passes {avroFloat : ℚ → ℚ} (hmono : Monotone avroFloat)
    (hexact : avroFloat minPrice = minPrice) {o : AvroOrder}
    (ho : o ∈ generateOrders count poisonRate flakyRate draws startId) :
    (dictToOrder o).passes = true ∧ (dictToOrder (o.onWire avroFloat)).passes = true := by
  obtain ⟨n, -, rfl⟩ := List.mem_map.mp ho
  have hprice := generated_price_ge (draws n).uniform
  have hpositive : 0 < minPrice := by norm_num [minPrice]
  have hconverted := hmono hprice
  rw [hexact] at hconverted
  exact ⟨passes_of_positive (PyStr.toString_int_ne_empty _) (chooseProduct_ne_empty _ _ _) rfl
      (hpositive.trans_le hprice),
    passes_of_positive (PyStr.toString_int_ne_empty _) (chooseProduct_ne_empty _ _ _) rfl
      (hpositive.trans_le hconverted)⟩

/-- The generated ids are pairwise distinct. -/
theorem generated_ids_nodup :
    ((generateOrders count poisonRate flakyRate draws startId).map
      AvroOrder.orderId).Nodup := by
  unfold generateOrders
  rw [List.map_map]
  refine List.nodup_range.map ?_
  intro i j hij
  have hids : toString (startId + (i : ℤ)) = toString (startId + (j : ℤ)) := hij
  have hsum := PyStr.toString_injective hids
  omega

/-- There are as many orders as were asked for; a negative count asks for none. -/
theorem generated_length :
    (generateOrders count poisonRate flakyRate draws startId).length = count.toNat := by
  simp [generateOrders]

end Generated

/-! ## The orders of a drained topic -/

/-- The order in a record. -/
def Record.order? (r : Record) : Option Order :=
  match r.content with
  | .order o => some (dictToOrder o)
  | _ => none

/-- A message of a partition names that partition. -/
theorem Topic.messages_partition {t : Topic} {p : ℕ} {m : Message}
    (h : m ∈ t.messages p) : m.partition = p := by
  obtain ⟨n, r, -, hm⟩ := Topic.mem_messages h
  exact (Record.message?_coordinates hm).1

/-- Of the messages of one partition, those of another partition are none. -/
theorem Topic.messages_filter (t : Topic) (p q : ℕ) :
    (t.messages q).filter (fun m => m.partition = p) =
      if q = p then t.messages p else [] := by
  split
  · next h =>
    subst h
    exact List.filter_eq_self.mpr fun m hm => by simp [Topic.messages_partition hm]
  · next h =>
    exact List.filter_eq_nil_iff.mpr fun m hm => by simp [Topic.messages_partition hm, h]

/-- Collecting the partitions one after the other keeps each of them. -/
theorem Topic.filter_all_messages (t : Topic) (p n : ℕ) :
    (((List.range n).flatMap t.messages).filter fun m => m.partition = p) =
      if p < n then t.messages p else [] := by
  induction n with
  | zero => simp
  | succ n ih =>
      rw [List.range_succ, List.flatMap_append, List.filter_append, ih, List.flatMap_singleton,
        Topic.messages_filter]
      rcases Nat.lt_trichotomy p n with hlt | heq | hgt
      · rw [if_pos hlt, if_neg (by omega), if_pos (by omega), List.append_nil]
      · rw [if_neg (by omega), if_pos heq.symm, if_pos (by omega), List.nil_append]
      · rw [if_neg (by omega), if_neg (by omega), if_neg (by omega), List.nil_append]

/-- Beyond the partitions of the topic there is no message. -/
theorem Topic.messages_beyond (t : Topic) {p : ℕ} (h : t.partitions.length ≤ p) :
    t.messages p = [] := by
  have hlog : t.log p = [] := by
    simp [Topic.log, List.getD_eq_getElem?_getD, List.getElem?_eq_none h]
  unfold Topic.messages
  rw [hlog]
  rfl

/-- A drained topic has been polled completely. -/
theorem Drains.perm {t : Topic} {ticks : List Tick} (h : Drains t ticks) :
    (polledMessages ticks).Perm
      ((List.range t.partitions.length).flatMap t.messages) := by
  refine Interleaving.perm_of_filter_eq Message.partition ?_
  intro p
  rw [h p, Topic.filter_all_messages]
  split
  · rfl
  · next hp =>
    exact t.messages_beyond (not_lt.mp hp)

/-- The orders among the messages of a partition are those of its log. -/
theorem Topic.messages_orders (t : Topic) (p : ℕ) :
    (t.messages p).filterMap Message.value = (t.log p).filterMap Record.order? := by
  unfold Topic.messages
  rw [List.reduceOption, List.filterMap_filterMap, List.mapIdx_eq_zipIdx_map,
    List.filterMap_map]
  have hfst : (t.log p).filterMap Record.order? =
      ((t.log p).zipIdx.map Prod.fst).filterMap Record.order? := by
    rw [List.zipIdx_map_fst]
  rw [hfst, List.filterMap_map]
  congr 1
  funext x
  obtain ⟨⟨key, content⟩, n⟩ := x
  cases content <;> rfl

/-- To go through the indexes of a list of lists is to go through the lists. -/
theorem flatMap_range_getD {α β : Type*} (f : List α → List β) (ls : List (List α)) :
    ((List.range ls.length).flatMap fun p => f (ls.getD p [])) = ls.flatMap f := by
  induction ls with
  | nil => rfl
  | cons l ls ih =>
      rw [List.length_cons, List.range_succ_eq_map, List.flatMap_cons, List.flatMap_map,
        List.flatMap_cons]
      exact congrArg _ ih

/-- The polled orders are the orders of the partitions, up to the interleaving of the
partitions. -/
theorem Drains.orders_perm {t : Topic} {ticks : List Tick} (h : Drains t ticks) :
    ((polledOrders ticks).map Prod.snd).Perm
      (t.partitions.flatten.filterMap Record.order?) := by
  have hvalues : (polledOrders ticks).map Prod.snd =
      (polledMessages ticks).filterMap Message.value := by
    rw [polledOrders_eq, List.map_filterMap]
    congr 1
    funext m
    cases m.value <;> rfl
  have hlogs : ((List.range t.partitions.length).flatMap t.messages).filterMap
      Message.value = t.partitions.flatten.filterMap Record.order? := by
    rw [List.filterMap_flatMap]
    simp only [Topic.messages_orders]
    rw [List.filterMap_flatten]
    exact flatMap_range_getD (List.filterMap Record.order?) t.partitions
  rw [hvalues, ← hlogs]
  exact h.perm.filterMap _

/-- A topic that carries orders hands exactly these to the consumer. -/
theorem Topic.Carries.orders_perm {t : Topic} {orders : List AvroOrder}
    (hcarries : t.Carries orders) {ticks : List Tick} (hdrains : Drains t ticks) :
    ((polledOrders ticks).map Prod.snd).Perm (orders.map dictToOrder) := by
  refine hdrains.orders_perm.trans ?_
  have hrecords : (orders.map AvroOrder.record).filterMap Record.order? =
      orders.map dictToOrder := by
    rw [List.filterMap_map]
    exact congrFun (List.filterMap_eq_map (f := dictToOrder)) orders
  rw [← hrecords]
  exact hcarries.filterMap _

/-! ## What happens to each order -/

/-- The handlings that failed, by what the handlings show. -/
theorem failedOf_shows {hs : List Handling} {xs : List ((Message × Order) × UnitEffect)}
    (h : List.Forall₂ Handling.Shows hs xs) :
    (failedOf hs).map Handling.order =
      (xs.filter fun x => !x.2.outcome.succeeded).map fun x => x.1.2 := by
  induction h with
  | nil => rfl
  | @cons h x hs xs hhead _ ih =>
      obtain ⟨-, horder, houtcome, -⟩ := hhead
      rw [failedOf_cons, List.map_append, ih, List.filter_cons, houtcome]
      cases x.2.outcome.succeeded with
      | true => rfl
      | false => simp [horder]

/-- The orders that succeeded, read off the trace instead of the handlings. -/
theorem succeededOf_shows {hs : List Handling}
    {xs : List ((Message × Order) × UnitEffect)} (h : List.Forall₂ Handling.Shows hs xs) :
    (succeededOf hs).map Handling.order =
      (xs.filter fun x => x.2.outcome.succeeded).map fun x => x.1.2 := by
  induction h with
  | nil => rfl
  | @cons h x hs xs hhead _ ih =>
      obtain ⟨-, horder, houtcome, -⟩ := hhead
      rw [succeededOf_cons, List.map_append, ih, List.filter_cons, houtcome]
      cases x.2.outcome.succeeded with
      | true => simp [horder]
      | false => rfl

/-- A valid order with a counter of its own fails exactly when it is
dead-lettered. -/
theorem fresh_succeeded_iff {args : Args} {policy : RetryPolicy}
    (hpolicy : policy.maxAttempts = args.maxAttempts) (hbudget : 1 ≤ args.maxAttempts)
    {order : Order} (hpasses : order.passes = true) :
    (unitEffect policy args.flakyAttempts order 0).outcome.succeeded = true ↔
      ¬DeadLettered args order := by
  have hunit := unitEffect_succeeded_iff (hpolicy ▸ hbudget) args.flakyAttempts order 0
  rw [hunit, hpolicy]
  unfold DeadLettered
  push_cast
  constructor
  · rintro ⟨-, hpoison, hflaky⟩ (h | ⟨h, hle⟩)
    · exact hpoison h
    · have hlt := hflaky h
      omega
  · intro h
    refine ⟨hpasses, fun hpoison => h (Or.inl hpoison), ?_⟩
    intro hflaky
    by_contra hge
    exact h (Or.inr ⟨hflaky, by omega⟩)

/-- The invocations and the reported attempts of a valid order that fails: a POISON
order is invoked once, a FLAKY one as often as the budget allows. -/
theorem fresh_effort {args : Args} {policy : RetryPolicy}
    (hpolicy : policy.maxAttempts = args.maxAttempts) (hbudget : 1 ≤ args.maxAttempts)
    {order : Order} (hpasses : order.passes = true)
    (hfailed : (unitEffect policy args.flakyAttempts order 0).outcome.succeeded = false) :
    (unitEffect policy args.flakyAttempts order 0).invocations = effort args order ∧
      (unitEffect policy args.flakyAttempts order 0).outcome.attempts =
        effort args order := by
  have hzero : policy.maxAttempts.toNat ≠ 0 := by omega
  have hvalid := passes_iff.mp hpasses
  unfold effort
  unfold unitEffect at hfailed ⊢
  simp only [hzero, if_false, hvalid] at hfailed ⊢
  by_cases hpoison : order.product = some poisonProduct
  · rw [if_pos hpoison, if_pos hpoison]
    exact ⟨rfl, rfl⟩
  · rw [if_neg hpoison] at hfailed ⊢
    rw [if_neg hpoison]
    by_cases hflaky : order.product = some flakyProduct
    · rw [if_pos hflaky] at hfailed ⊢
      split at hfailed
      · cases hfailed
      · next hexhausted =>
        rw [if_neg hexhausted]
        refine ⟨by rw [hpolicy], ?_⟩
        show policy.maxAttempts = _
        rw [hpolicy]
        omega
    · rw [if_neg hflaky] at hfailed
      cases hfailed

/-- The retry header of a record is the attempt count of its outcome. -/
theorem Handling.PublishedAs.retry_header {dlqTopic : String} {h : Handling} {r : DlqRecord}
    (hpublished : h.PublishedAs dlqTopic r) :
    r.headers.lookup hdrRetryCount =
      some (PyStr.encodeString (toString h.outcome.attempts)) := by
  obtain ⟨failedAt, hrecord⟩ := hpublished
  exact buildRecord_retryCount hrecord

/-- Every handling of the run has its entry in the trace. -/
theorem exists_shown {hs : List Handling} {xs : List ((Message × Order) × UnitEffect)}
    (h : List.Forall₂ Handling.Shows hs xs) {g : Handling} (hg : g ∈ hs) :
    ∃ x ∈ xs, g.Shows x := by
  induction h with
  | nil => cases hg
  | @cons h x hs xs hhead _ ih =>
      rcases List.mem_cons.mp hg with rfl | hg
      · exact ⟨x, by simp, hhead⟩
      · obtain ⟨y, hy, hshows⟩ := ih hg
        exact ⟨y, by simp [hy], hshows⟩

/-- Where the function is defined everywhere, nothing is filtered out. -/
theorem map_some_filterMap {α β : Type*} {f : α → Option β} {xs : List α}
    (h : ∀ x ∈ xs, ∃ y, f x = some y) : (xs.filterMap f).map some = xs.map f := by
  induction xs with
  | nil => rfl
  | cons x xs ih =>
      obtain ⟨y, hy⟩ := h x (by simp)
      rw [List.filterMap_cons_some hy, List.map_cons, List.map_cons, hy,
        ih fun z hz => h z (by simp [hz])]

/-- A valid order has a sale. -/
theorem sale_of_passes {order : Order} (h : order.passes = true) :
    ∃ sale, order.sale? = some sale := by
  obtain ⟨product, price, hproduct, hprice⟩ := validate_ok_fields (passes_iff.mp h)
  refine ⟨(product, price), ?_⟩
  unfold Order.sale?
  rw [hproduct, hprice]

/-! ## Runs over orders with pairwise distinct ids -/

section FreshRuns

variable {args : Args} {rng : ℕ → Draw} {dlqTopic : String} {orders : List Order}
  {ticks : List Tick} {c : Consumer FailureSimulator}

/-- What `main` does with an order whose id it has not counted yet. -/
def freshAnswer (args : Args) (rng : ℕ → Draw) (dlqTopic : String) (x : Message × Order) :
    (Message × Order) × UnitEffect :=
  (x, unitEffect (mainSetup args rng dlqTopic).policy args.flakyAttempts x.2 0)

/-- The log of a run over valid orders, each with an id of its own. -/
structure FreshRun (args : Args) (rng : ℕ → Draw) (dlqTopic : String) (orders : List Order)
    (ticks : List Tick) (c : Consumer FailureSimulator) : Prop where
  budget : 1 ≤ args.maxAttempts
  passes : ∀ o ∈ orders, o.passes = true
  polled : ((polledOrders ticks).map Prod.snd).Perm orders
  shows : List.Forall₂ Handling.Shows c.handled
    ((polledOrders ticks).map (freshAnswer args rng dlqTopic))
  ledger : Ledger dlqTopic ticks c

/-- The hypotheses of a fresh run from what is known of the generated orders: they pass
the checks, and no id occurs twice. -/
theorem FreshRun.of_run {offsets : CommitLog.Offsets ℕ} (hbudget : 1 ≤ args.maxAttempts)
    (hpasses : ∀ o ∈ orders, o.passes = true)
    (hids : (orders.map FailureSimulator.keyOf).Nodup)
    (hpolled : ((polledOrders ticks).map Prod.snd).Perm orders)
    (hrun : runLoop (mainSetup args rng dlqTopic) ticks (mainStart args offsets) =
      .next c) : FreshRun args rng dlqTopic orders ticks c where
  budget := hbudget
  passes := hpasses
  polled := hpolled
  shows := by
    have hkeys : ((polledOrders ticks).map orderKey).Nodup := by
      have hperm := hpolled.map FailureSimulator.keyOf
      rw [List.map_map] at hperm
      exact hperm.nodup_iff.mpr hids
    have hshows := handled_of_run hrun
    rw [Interleaving.trace_of_nodup hkeys] at hshows
    exact hshows
  ledger := ledger_at_head hrun

/-- Every order the consumer polls passes the checks, for it is one of those that were
generated. -/
theorem FreshRun.valid (h : FreshRun args rng dlqTopic orders ticks c) :
    ∀ x ∈ polledOrders ticks, x.2.passes = true := by
  intro x hx
  exact h.passes x.2 (h.polled.mem_iff.mp (List.mem_map_of_mem hx))

/-- The outcome of a polled order says whether it is one of the dead-lettered. -/
theorem FreshRun.outcome (h : FreshRun args rng dlqTopic orders ticks c) :
    ∀ x ∈ polledOrders ticks,
      (freshAnswer args rng dlqTopic x).2.outcome.succeeded =
        decide (¬DeadLettered args x.2) := by
  intro x hx
  rw [Bool.eq_iff_iff, decide_eq_true_iff]
  exact fresh_succeeded_iff rfl h.budget (h.valid x hx)

/-- The orders that failed are those that no attempt gets through. -/
theorem FreshRun.failed (h : FreshRun args rng dlqTopic orders ticks c) :
    ((failedOf c.handled).map Handling.order).Perm
      (orders.filter fun o => DeadLettered args o) := by
  have hfilter : (failedOf c.handled).map Handling.order =
      ((polledOrders ticks).map Prod.snd).filter fun o => DeadLettered args o := by
    rw [failedOf_shows h.shows, List.filter_map, List.map_map, List.filter_map]
    refine congrArg (List.map Prod.snd) (List.filter_congr ?_)
    intro x hx
    simp [h.outcome x hx]
  rw [hfilter]
  exact h.polled.filter _

/-- The orders that succeeded are the others. -/
theorem FreshRun.succeeded (h : FreshRun args rng dlqTopic orders ticks c) :
    ((succeededOf c.handled).map Handling.order).Perm
      (orders.filter fun o => ¬DeadLettered args o) := by
  have hfilter : (succeededOf c.handled).map Handling.order =
      ((polledOrders ticks).map Prod.snd).filter fun o => ¬DeadLettered args o := by
    rw [succeededOf_shows h.shows, List.filter_map, List.map_map, List.filter_map]
    refine congrArg (List.map Prod.snd) (List.filter_congr ?_)
    intro x hx
    simp [h.outcome x hx]
  rw [hfilter]
  exact h.polled.filter _

/-- A failure has spent and reports the effort for its order. -/
theorem FreshRun.spent (h : FreshRun args rng dlqTopic orders ticks c) :
    ∀ g ∈ failedOf c.handled, (invocations g.calls).length = effort args g.order ∧
      g.outcome.attempts = effort args g.order := by
  intro g hg
  obtain ⟨hhandled, hfalse⟩ := List.mem_filter.mp hg
  obtain ⟨x, hx, -, horder, hresult, hinvocations⟩ := exists_shown h.shows hhandled
  obtain ⟨y, hy, rfl⟩ := List.mem_map.mp hx
  have hfailed : (freshAnswer args rng dlqTopic y).2.outcome.succeeded = false := by
    rw [← hresult]
    simpa using hfalse
  have heffort := fresh_effort rfl h.budget (h.valid y hy) hfailed
  rw [hinvocations, hresult, horder]
  exact heffort

/-- Each order that is not dead-lettered is in the aggregator once. -/
theorem FreshRun.aggregated (h : FreshRun args rng dlqTopic orders ticks c) :
    ∃ sales, c.work.aggregator = ({} : OrderAggregator).addAll sales ∧
      (sales.map some).Perm
        ((orders.filter fun o => ¬DeadLettered args o).map Order.sale?) := by
  refine ⟨_, h.ledger.aggregator, ?_⟩
  rw [map_some_filterMap]
  · have hsales := h.succeeded.map Order.sale?
    rw [List.map_map] at hsales
    exact hsales
  · intro g hg
    have hmem : g.order ∈ (succeededOf c.handled).map Handling.order :=
      List.mem_map_of_mem hg
    have horder := (List.mem_filter.mp (h.succeeded.mem_iff.mp hmem)).1
    exact sale_of_passes (h.passes _ horder)

/-- The two counters add up to the number of orders: each was handled exactly once. -/
theorem FreshRun.total (h : FreshRun args rng dlqTopic orders ticks c) :
    c.processed + c.failed = orders.length := by
  have hlengths := List.length_eq_length_filter_add (l := orders)
    (fun o => decide (DeadLettered args o))
  have hfailed := h.failed.length_eq
  have hsucceeded := h.succeeded.length_eq
  rw [List.length_map] at hfailed hsucceeded
  rw [h.ledger.processed, h.ledger.failed, hfailed, hsucceeded]
  simp only [decide_not] at hlengths ⊢
  omega

/-- What such a run leaves behind. -/
theorem FreshRun.endToEnd (h : FreshRun args rng dlqTopic orders ticks c) :
    EndToEnd args dlqTopic orders c where
  failed := h.failed
  spent := h.spent
  published := by
    have hboth := (List.forall₂_and_left _ _).mpr ⟨h.spent, h.ledger.published⟩
    refine List.Forall₂.imp ?_ hboth
    rintro g r ⟨⟨-, hattempts⟩, hpublished⟩
    exact ⟨hpublished, by rw [hpublished.retry_header, hattempts]⟩
  aggregated := h.aggregated
  total := h.total

end FreshRuns

/-- **End to end.**  The orders of `generate_orders` pass `validate` and have
pairwise distinct ids.  Distributed over the partitions of a topic in any way and
drained by a fresh `main` in any interleaving, exactly the POISON ones, and the
FLAKY ones if the threshold reaches the budget, are dead-lettered once each with
the effort reported, and all others are aggregated once each. -/
theorem generated_end_to_end (count : ℤ) (poisonRate flakyRate : ℚ)
    (draws : ℕ → OrderDraws) (startId : ℤ) {avroFloat : ℚ → ℚ}
    (hmono : Monotone avroFloat) (hmin : avroFloat minPrice = minPrice) :
    let orders := generateOrders count poisonRate flakyRate draws startId
    (∀ o ∈ orders, (dictToOrder o).passes = true ∧
        (dictToOrder (o.onWire avroFloat)).passes = true) ∧
      (orders.map AvroOrder.orderId).Nodup ∧ orders.length = count.toNat ∧
      ∀ (t : Topic) (args : Args) (rng : ℕ → Draw) (dlqTopic : String)
        (offsets : CommitLog.Offsets ℕ) (ticks : List Tick)
        (c : Consumer FailureSimulator),
        t.Carries (orders.map (AvroOrder.onWire avroFloat)) → Drains t ticks →
        1 ≤ args.maxAttempts →
        runLoop (mainSetup args rng dlqTopic) ticks (mainStart args offsets) = .next c →
        EndToEnd args dlqTopic
          (orders.map fun o => dictToOrder (o.onWire avroFloat)) c := by
  intro orders
  have hpasses : ∀ o ∈ orders, (dictToOrder o).passes = true ∧
      (dictToOrder (o.onWire avroFloat)).passes = true :=
    fun o ho => generated_passes hmono hmin ho
  refine ⟨hpasses, generated_ids_nodup, generated_length, ?_⟩
  intro t args rng dlqTopic offsets ticks c hcarries hdrains hbudget hrun
  refine FreshRun.endToEnd (FreshRun.of_run hbudget ?_ ?_ ?_ hrun)
  · intro o ho
    obtain ⟨g, hg, rfl⟩ := List.mem_map.mp ho
    exact (hpasses g hg).2
  · have hkeys : (orders.map fun o => dictToOrder (o.onWire avroFloat)).map
        FailureSimulator.keyOf = orders.map AvroOrder.orderId := by
      rw [List.map_map]
      rfl
    rw [hkeys]
    exact generated_ids_nodup
  · have hpolled := hcarries.orders_perm hdrains
    rw [List.map_map] at hpolled
    exact hpolled

/-! ## A small run -/

/-- The draws for a POISON order, a FLAKY order, and then good ones. -/
def sampleDraws : ℕ → OrderDraws
  | 0 => ⟨⟨0, by decide +kernel, by decide +kernel⟩, 0, Draw.half⟩
  | 1 => ⟨Draw.half, 1, Draw.half⟩
  | _ => ⟨⟨3 / 4, by decide +kernel, by decide +kernel⟩, 2, Draw.half⟩

def generatedSample : List AvroOrder := generateOrders 3 (1 / 4) (1 / 2) sampleDraws 1001

/-- The three orders on two partitions. -/
def generatedTopic : Topic where
  name := "orders"
  partitions :=
    [(generatedSample.drop 1).map AvroOrder.record,
      (generatedSample.take 1).map AvroOrder.record]

def generatedTicks : List Tick :=
  [generatedTopic.tick 0 0 "t0", generatedTopic.tick 1 0 "t1", generatedTopic.tick 0 1 "t2"]

theorem generatedTicks_drain : Drains generatedTopic generatedTicks := by
  intro p
  match p with
  | 0 => decide +kernel
  | 1 => decide +kernel
  | p + 2 => rfl

theorem generatedTopic_carries :
    generatedTopic.Carries (generatedSample.map (AvroOrder.onWire id)) := by
  unfold Topic.Carries
  decide +kernel

/-- Three generated orders: the POISON one is dead-lettered, the others are
aggregated. -/
theorem generated_end_to_end_sample :
    let c := (runLoop (mainSetup {} (fun _ => Draw.half) "orders.DLQ") generatedTicks
      (mainStart {} CommitLog.Offsets.zero)).state
    (c.processed, c.failed) = (2, 1) ∧
      EndToEnd {} "orders.DLQ"
        (generatedSample.map fun o => dictToOrder (o.onWire id)) c := by
  intro c
  have hrun : runLoop (mainSetup {} (fun _ => Draw.half) "orders.DLQ") generatedTicks
      (mainStart {} CommitLog.Offsets.zero) = .next c := Pass.eq_next (by decide +kernel)
  obtain ⟨-, -, -, hall⟩ := generated_end_to_end 3 (1 / 4) (1 / 2) sampleDraws 1001
    monotone_id rfl
  exact ⟨by decide +kernel, hall generatedTopic {} _ "orders.DLQ" _ generatedTicks c
    generatedTopic_carries generatedTicks_drain (by decide) hrun⟩

end OrderPipeline

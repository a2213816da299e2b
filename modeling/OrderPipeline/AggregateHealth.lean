import OrderPipeline.InterleavingIndependence

/-!
# What the aggregate admits

`validate` rejects a price by the comparison `price <= 0`, which is false for NaN
and for +infinity.  Such a price reaches the aggregator, and its total is never
finite again.  `healthy_iff_finite_prices` says exactly which runs stay healthy:
those in which every order that reaches `add` has a finite price.  Which orders
reach `add` is a function of the polled orders (`admitted`).
-/

namespace OrderPipeline

/-- Statistics that are empty, or finite with the average between the
extremes. -/
def Stat.Healthy (s : Stat) : Prop :=
  1 ≤ s.count → ∃ total average minimum maximum : ℚ, s.total = .finite total ∧
    s.average = .finite average ∧ s.minimum = some (.finite minimum) ∧
    s.maximum = some (.finite maximum) ∧ minimum ≤ average ∧ average ≤ maximum

/-- The overall statistics and those of every product are healthy. -/
def OrderAggregator.Healthy (a : OrderAggregator) : Prop :=
  a.overall.Healthy ∧ ∀ product s, a.perProduct.lookup product = some s → s.Healthy

/-- The FLAKY orders with the id of an order that have passed `validate` before
it. -/
def flakyBefore (before : List Order) (order : Order) : ℕ :=
  before.countP fun o => o.passes && decide (o.product = some flakyProduct) &&
    decide (FailureSimulator.keyOf o = FailureSimulator.keyOf order)

/-- An order reaches `add`: it passes `validate`, is not POISON, and if it is
FLAKY, it and the FLAKY orders of its id before it have enough attempts. -/
def ReachesAdd (args : Args) (before : List Order) (order : Order) : Prop :=
  1 ≤ args.maxAttempts ∧ order.passes = true ∧ order.product ≠ some poisonProduct ∧
    (order.product = some flakyProduct →
      args.flakyAttempts < (flakyBefore before order + 1) * args.maxAttempts)

instance (args : Args) (before : List Order) (order : Order) :
    Decidable (ReachesAdd args before order) :=
  inferInstanceAs (Decidable (_ ∧ _ ∧ _ ∧ (_ → _)))

/-- The orders that reach `add`, in order. -/
def admitted (args : Args) : (before : List Order) → List Order → List Order
  | _, [] => []
  | before, order :: orders =>
    (if ReachesAdd args before order then [order] else []) ++
      admitted args (before ++ [order]) orders

/-! ## Healthy aggregates -/

/-- Batch statistics of finite prices are healthy: the mean of a non-empty list lies
between its extremes. -/
theorem Stat.healthy_batch (prices : List ℚ) :
    (Stat.ofRunning (Running.batch prices)).Healthy := by
  intro hcount
  have hne : prices ≠ [] := by
    intro hnil
    rw [hnil] at hcount
    exact absurd hcount (by decide)
  obtain ⟨lo, hi, hlo, hhi, hle, hge⟩ := Running.batch_bounds hne
  refine ⟨_, _, lo, hi, rfl, rfl, ?_, ?_, hle, hge⟩
  · show (Running.batch prices).minimum.map PyFloat.finite = _
    rw [hlo]
    rfl
  · show (Running.batch prices).maximum.map PyFloat.finite = _
    rw [hhi]
    rfl

/-- A total is finite only if it was and all prices added are: no sum with NaN or an
infinity in it is a number again. -/
theorem addAll_total_finite {sales : List (String × PyFloat)} {a : OrderAggregator}
    {q : ℚ} (h : (a.addAll sales).overall.total = .finite q) :
    (∃ p, a.overall.total = .finite p) ∧ ∀ sale ∈ sales, ∃ p, sale.2 = .finite p := by
  induction sales generalizing a with
  | nil => exact ⟨⟨q, h⟩, by simp⟩
  | cons sale sales ih =>
      have hrest : ((a.add sale.1 sale.2).1.addAll sales).overall.total = .finite q := h
      obtain ⟨hsum, hsales⟩ := ih hrest
      have hadd : ∃ p, a.overall.total.add sale.2 = .finite p := hsum
      obtain ⟨htotal, hprice⟩ := PyFloat.add_finite_iff.mp hadd
      refine ⟨htotal, ?_⟩
      intro s hs
      rcases List.mem_cons.mp hs with rfl | hs
      · exact hprice
      · exact hsales s hs

/-- An aggregate is healthy exactly when all prices in it are finite.  One direction
reads the total off, the other compares with the batch statistics. -/
theorem healthy_addAll_iff (sales : List (String × PyFloat)) :
    (({} : OrderAggregator).addAll sales).Healthy ↔
      ∀ sale ∈ sales, ∃ q, sale.2 = .finite q := by
  constructor
  · rintro ⟨hoverall, -⟩
    by_cases hnil : sales = []
    · simp [hnil]
    · have hcount : 1 ≤ (({} : OrderAggregator).addAll sales).overall.count := by
        have hlength : (({} : OrderAggregator).addAll sales).count = 0 + sales.length :=
          OrderAggregator.count_addAll {} sales
        have hpos := List.length_pos_iff.mpr hnil
        unfold OrderAggregator.count at hlength
        omega
      obtain ⟨total, -, -, -, htotal, -⟩ := hoverall hcount
      exact (addAll_total_finite htotal).2
  · intro hfinite
    obtain ⟨hoverall, hproducts⟩ := OrderAggregator.addAll_finite (finiteSales sales)
    rw [map_finiteSales hfinite] at hoverall hproducts
    refine ⟨?_, ?_⟩
    · rw [hoverall]
      exact Stat.healthy_batch _
    · intro product s hs
      rw [hproducts product, batchEntry] at hs
      split at hs
      · cases hs
      · cases hs
        exact Stat.healthy_batch _

/-! ## Which orders reach the aggregator -/

/-- What the counter of an id says about the FLAKY orders before: as long as
their attempts together stay within the threshold all of them failed, and
beyond it one has got through. -/
def CounterAgrees (args : Args) (k seen : ℕ) : Prop :=
  (k * args.maxAttempts ≤ args.flakyAttempts → (seen : ℤ) = k * args.maxAttempts) ∧
    (args.flakyAttempts < k * args.maxAttempts → args.flakyAttempts < seen)

/-- A FLAKY order gets through by its counter exactly when it does by the number
of orders before it. -/
theorem CounterAgrees.recovers_iff {args : Args} {k seen : ℕ}
    (hbudget : 1 ≤ args.maxAttempts) (h : CounterAgrees args k seen) :
    args.flakyAttempts < seen + args.maxAttempts ↔
      args.flakyAttempts < (k + 1) * args.maxAttempts := by
  obtain ⟨hwithin, hbeyond⟩ := h
  rw [add_mul, one_mul]
  rcases le_or_gt (k * args.maxAttempts) args.flakyAttempts with hle | hlt
  · rw [hwithin hle]
  · have hseen := hbeyond hlt
    exact iff_of_true (by omega) (by omega)

/-- One more FLAKY order keeps the agreement. -/
theorem CounterAgrees.next {args : Args} {k seen : ℕ} (hbudget : 1 ≤ args.maxAttempts)
    (h : CounterAgrees args k seen) :
    CounterAgrees args (k + 1)
      (seen + min (attemptsToRecover args.flakyAttempts seen) args.maxAttempts.toNat) := by
  have hrecovers := h.recovers_iff hbudget
  obtain ⟨hwithin, hbeyond⟩ := h
  unfold CounterAgrees attemptsToRecover
  push_cast
  rw [add_mul, one_mul] at hrecovers ⊢
  constructor
  · intro hle
    have hseen := hwithin (by omega)
    omega
  · intro hlt
    rcases le_or_gt (k * args.maxAttempts) args.flakyAttempts with hle | hgt
    · have hseen := hwithin hle
      omega
    · have hseen := hbeyond hgt
      omega

/-- One more order before: the count of the earlier flaky attempts rises by one exactly
if that order was processed as flaky under the same id. -/
theorem flakyBefore_snoc (before : List Order) (o order : Order) :
    flakyBefore (before ++ [o]) order = flakyBefore before order +
      if o.passes = true ∧ o.product = some flakyProduct ∧
        FailureSimulator.keyOf o = FailureSimulator.keyOf order then 1 else 0 := by
  unfold flakyBefore
  rw [List.countP_append, List.countP_singleton]
  congr 1
  simp [and_assoc]

/-- The counts depend on the id of the order alone. -/
theorem flakyBefore_congr (before : List Order) {order order' : Order}
    (h : FailureSimulator.keyOf order = FailureSimulator.keyOf order') :
    flakyBefore before order = flakyBefore before order' := by
  unfold flakyBefore
  rw [h]

/-- Handling an order keeps every counter in agreement with the orders so far: the
counter of its id moves by what `orderAnswer` says, and the others do not. -/
theorem CounterAgrees.handle {args : Args} {policy : RetryPolicy}
    (hpolicy : policy.maxAttempts = args.maxAttempts) (hbudget : 1 ≤ args.maxAttempts)
    {before : List Order} {state : String → ℕ}
    (hstate : ∀ o, CounterAgrees args (flakyBefore before o)
      (state (FailureSimulator.keyOf o))) (x : Message × Order) :
    ∀ o, CounterAgrees args (flakyBefore (before ++ [x.2]) o)
      (Function.update state (orderKey x)
        (orderAnswer policy args.flakyAttempts x (state (orderKey x))).2
        (FailureSimulator.keyOf o)) := by
  intro o
  rw [flakyBefore_snoc]
  by_cases hkey : FailureSimulator.keyOf o = orderKey x
  · have hkey' : FailureSimulator.keyOf x.2 = FailureSimulator.keyOf o := hkey.symm
    rw [flakyBefore_congr before hkey, hkey, Function.update_self]
    have hbefore := hstate x.2
    show CounterAgrees args _ (state (orderKey x) +
      (unitEffect policy args.flakyAttempts x.2 (state (orderKey x))).counted)
    rw [unitEffect_counted (by omega), hpolicy]
    by_cases hcounts : x.2.passes = true ∧ x.2.product = some flakyProduct
    · rw [if_pos hcounts, if_pos ⟨hcounts.1, hcounts.2, rfl⟩]
      exact hbefore.next hbudget
    · rw [if_neg hcounts, if_neg (fun h => hcounts ⟨h.1, h.2.1⟩)]
      exact hbefore
  · have hkey' : ¬FailureSimulator.keyOf x.2 = FailureSimulator.keyOf o :=
      fun h => hkey h.symm
    rw [Function.update_of_ne hkey, if_neg (fun h => hkey' h.2.2)]
    exact hstate o

/-- The orders that succeed in a run are those that reach `add`.  The induction
is on the polled orders; the counters agree with the orders before. -/
theorem succeeded_admitted {args : Args} {policy : RetryPolicy}
    (hpolicy : policy.maxAttempts = args.maxAttempts) (hbudget : 1 ≤ args.maxAttempts)
    (xs : List (Message × Order)) {before : List Order} {state : String → ℕ}
    (hstate : ∀ o, CounterAgrees args (flakyBefore before o)
      (state (FailureSimulator.keyOf o))) {hs : List Handling}
    (hshows : List.Forall₂ Handling.Shows hs
      (Interleaving.trace orderKey (orderAnswer policy args.flakyAttempts) state xs)) :
    (succeededOf hs).map Handling.order = admitted args before (xs.map Prod.snd) := by
  induction xs generalizing before state hs with
  | nil =>
      cases hshows
      rfl
  | cons x xs ih =>
      obtain ⟨h, hs, hhead, htail, rfl⟩ := List.forall₂_cons_right_iff.mp hshows
      obtain ⟨-, horder, houtcome, -⟩ := hhead
      have horder : h.order = x.2 := horder
      have hrest := ih (CounterAgrees.handle hpolicy hbudget hstate x) htail
      have hreaches : h.outcome.succeeded = true ↔ ReachesAdd args before x.2 := by
        have hunit := unitEffect_succeeded_iff (hpolicy ▸ hbudget) args.flakyAttempts x.2
          (state (FailureSimulator.keyOf x.2))
        rw [hpolicy, (hstate x.2).recovers_iff hbudget] at hunit
        rw [houtcome]
        exact hunit.trans ⟨fun h => ⟨hbudget, h⟩, fun h => h.2⟩
      rw [List.map_cons, admitted, succeededOf_cons, List.map_append, hrest]
      by_cases hsucceeded : h.outcome.succeeded = true
      · rw [if_pos hsucceeded, if_pos (hreaches.mp hsucceeded), ← horder]
        rfl
      · rw [if_neg hsucceeded, if_neg (fun hadd => hsucceeded (hreaches.mpr hadd))]
        rfl

/-- Without a budget nothing reaches `add`. -/
theorem admitted_without_budget {args : Args} (hbudget : ¬1 ≤ args.maxAttempts)
    (before orders : List Order) : admitted args before orders = [] := by
  induction orders generalizing before with
  | nil => rfl
  | cons order orders ih =>
      rw [admitted, ih, if_neg (fun h => hbudget h.1)]
      rfl

/-- Without a budget no handling succeeds. -/
theorem succeeded_without_budget {policy : RetryPolicy}
    (hbudget : ¬1 ≤ policy.maxAttempts) {flakyAttemptsNeeded : ℤ}
    {state : String → ℕ} {xs : List (Message × Order)} {hs : List Handling}
    (hshows : List.Forall₂ Handling.Shows hs
      (Interleaving.trace orderKey (orderAnswer policy flakyAttemptsNeeded) state xs)) :
    succeededOf hs = [] := by
  have hzero : policy.maxAttempts.toNat = 0 := by omega
  induction xs generalizing state hs with
  | nil =>
      cases hshows
      rfl
  | cons x xs ih =>
      obtain ⟨h, hs, ⟨-, -, houtcome, -⟩, htail, rfl⟩ :=
        List.forall₂_cons_right_iff.mp hshows
      have hfailed : ¬h.outcome.succeeded = true := by
        rw [houtcome]
        simp [orderAnswer, unitEffect, hzero, RetryPolicy.failure]
      rw [succeededOf_cons, if_neg hfailed, ih htail]
      rfl

/-- The orders that a run of `main` adds to the aggregator are those admitted, in terms
of the polled orders alone. -/
theorem succeeded_of_run {args : Args} {rng : ℕ → Draw} {dlqTopic : String}
    {offsets : CommitLog.Offsets ℕ} {ticks : List Tick} {c : Consumer FailureSimulator}
    (hrun : runLoop (mainSetup args rng dlqTopic) ticks (mainStart args offsets) =
      .next c) :
    (succeededOf c.handled).map Handling.order =
      admitted args [] ((polledOrders ticks).map Prod.snd) := by
  have hshows := handled_of_run hrun
  by_cases hbudget : 1 ≤ args.maxAttempts
  · refine succeeded_admitted rfl hbudget _ ?_ hshows
    intro o
    have hzero : flakyBefore [] o = 0 := rfl
    rw [hzero]
    refine ⟨?_, ?_⟩
    · intro _
      simp
    · intro hlt
      simpa using hlt
  · have hbudget' : ¬1 ≤ (mainSetup args rng dlqTopic).policy.maxAttempts := hbudget
    rw [succeeded_without_budget hbudget' hshows, admitted_without_budget hbudget]
    rfl

/-! ## Healthy runs -/

/-- An order that reaches `add` has been let through by `validate`. -/
theorem passes_of_admitted {args : Args} {before orders : List Order} {order : Order}
    (h : order ∈ admitted args before orders) : order.passes = true := by
  induction orders generalizing before with
  | nil => cases h
  | cons o orders ih =>
      rw [admitted] at h
      rcases List.mem_append.mp h with h | h
      · split at h
        · next hreaches =>
          rw [List.mem_singleton.mp h]
          exact hreaches.2.1
        · cases h
      · exact ih h

/-- At a loop head the aggregate is healthy exactly when the orders that have
reached it have finite prices. -/
theorem healthy_at_head_iff {args : Args} {rng : ℕ → Draw} {dlqTopic : String}
    {offsets : CommitLog.Offsets ℕ} {ticks : List Tick} {c : Consumer FailureSimulator}
    (hrun : runLoop (mainSetup args rng dlqTopic) ticks (mainStart args offsets) =
      .next c) :
    c.work.aggregator.Healthy ↔
      ∀ order ∈ admitted args [] ((polledOrders ticks).map Prod.snd),
        ∃ q, order.price = some (.finite q) := by
  have hsales : (succeededOf c.handled).filterMap (·.order.sale?) =
      (admitted args [] ((polledOrders ticks).map Prod.snd)).filterMap Order.sale? := by
    rw [← succeeded_of_run hrun, List.filterMap_map]
    rfl
  rw [(ledger_at_head hrun).aggregator, hsales, healthy_addAll_iff]
  have hsale : ∀ order ∈ admitted args [] ((polledOrders ticks).map Prod.snd),
      ∃ product price, order.price = some price ∧
        order.sale? = some (product, price) := by
    intro order horder
    obtain ⟨product, price, hproduct, hprice⟩ :=
      validate_ok_fields (passes_iff.mp (passes_of_admitted horder))
    refine ⟨product, price, hprice, ?_⟩
    unfold Order.sale?
    rw [hproduct, hprice]
  constructor
  · intro hfinite order horder
    obtain ⟨product, price, hprice, hsold⟩ := hsale order horder
    obtain ⟨q, hq⟩ := hfinite _ (List.mem_filterMap.mpr ⟨order, horder, hsold⟩)
    have hq : price = .finite q := hq
    exact ⟨q, by rw [hprice, hq]⟩
  · intro hfinite sale hsale'
    obtain ⟨order, horder, hsold'⟩ := List.mem_filterMap.mp hsale'
    obtain ⟨product, price, hprice, hsold⟩ := hsale order horder
    obtain ⟨q, hq⟩ := hfinite order horder
    rw [hsold] at hsold'
    rw [← Option.some.inj hsold']
    rw [hprice] at hq
    exact ⟨q, Option.some.inj hq⟩

/-- What is admitted of two batches in a row: the second batch is judged with the first
among the orders before it. -/
theorem admitted_append (args : Args) (before xs ys : List Order) :
    admitted args before (xs ++ ys) =
      admitted args before xs ++ admitted args (before ++ xs) ys := by
  induction xs generalizing before with
  | nil => simp [admitted]
  | cons x xs ih => simp [admitted, ih]

/-- **Which runs stay healthy.**  In a run of `main` over any decoded orders the
aggregate is healthy after every message exactly when every order that reaches
`add` has a finite price. -/
theorem healthy_iff_finite_prices {args : Args} {rng : ℕ → Draw} {dlqTopic : String}
    {offsets : CommitLog.Offsets ℕ} {ticks : List Tick} {c : Consumer FailureSimulator}
    (hrun : runLoop (mainSetup args rng dlqTopic) ticks (mainStart args offsets) =
      .next c) :
    (∀ ts d, ts <+: ticks →
        runLoop (mainSetup args rng dlqTopic) ts (mainStart args offsets) = .next d →
        d.work.aggregator.Healthy) ↔
      ∀ order ∈ admitted args [] ((polledOrders ticks).map Prod.snd),
        ∃ q, order.price = some (.finite q) := by
  constructor
  · intro hhealthy
    exact (healthy_at_head_iff hrun).mp (hhealthy ticks c List.prefix_rfl hrun)
  · intro hfinite ts d hprefix hrun'
    obtain ⟨rest, rfl⟩ := hprefix
    refine (healthy_at_head_iff hrun').mpr ?_
    intro order horder
    refine hfinite order ?_
    have hpolled : polledOrders (ts ++ rest) = polledOrders ts ++ polledOrders rest :=
      List.filterMap_append
    rw [hpolled, List.map_append, admitted_append]
    exact List.mem_append_left _ horder

/-- The run over the sample topic adds two orders and stays healthy. -/
theorem sample_stays_healthy :
    (runLoop (mainSetup {} (fun _ => Draw.half) "orders.DLQ") sampleTicks
      (mainStart {} CommitLog.Offsets.zero)).state.processed = 2 ∧
    ∀ ts d, ts <+: sampleTicks →
      runLoop (mainSetup {} (fun _ => Draw.half) "orders.DLQ") ts
        (mainStart {} CommitLog.Offsets.zero) = .next d →
      d.work.aggregator.Healthy := by
  refine ⟨by decide +kernel,
    (healthy_iff_finite_prices (Pass.eq_next (by decide +kernel))).mpr ?_⟩
  have hadmitted : admitted {} [] ((polledOrders sampleTicks).map Prod.snd) =
      [⟨some "1001", some "FLAKY", some (.finite 20)⟩,
        ⟨some "1002", some "Item1", some (.finite 10)⟩] := by
    decide +kernel
  rw [hadmitted]
  intro order horder
  rcases List.mem_cons.mp horder with rfl | horder
  · exact ⟨20, rfl⟩
  · rw [List.mem_singleton.mp horder]
    exact ⟨10, rfl⟩

/-- A decoded order whose price is NaN. -/
def nanTick : Tick where
  poll := .message ⟨"orders", 0, 0, some "1001",
    some (dictToOrder ⟨"1001", "Item1", .nan⟩)⟩

/-- One NaN price passes `validate` and spoils the totals. -/
theorem nan_spoils_the_aggregate :
    let c := (runLoop (mainSetup {} (fun _ => Draw.half) "orders.DLQ") [nanTick]
      (mainStart {} CommitLog.Offsets.zero)).state
    c.processed = 1 ∧ c.work.aggregator.overall.total = .nan ∧
      ¬c.work.aggregator.Healthy := by
  intro c
  have htotal : c.work.aggregator.overall.total = .nan := by decide +kernel
  have hcount : 1 ≤ c.work.aggregator.overall.count := by decide +kernel
  refine ⟨by decide +kernel, htotal, ?_⟩
  rintro ⟨hoverall, -⟩
  obtain ⟨total, -, -, -, hfinite, -⟩ := hoverall hcount
  rw [htotal] at hfinite
  cases hfinite

end OrderPipeline

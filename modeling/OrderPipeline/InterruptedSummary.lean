import Mathlib.Tactic.IntervalCases
import OrderPipeline.Ledger
import OrderPipeline.Summary

/-!
# The summary after an interrupt

`main` prints the table in its `finally` block, also when a `KeyboardInterrupt`
has stopped it anywhere.  `Stat.updateSteps` and `OrderAggregator.addSteps` are
the stores of one `add` in their order, and `interrupted k` is the aggregator
after the first `k` of them.

The table needs the extremes of every statistic that it formats.  Completed
calls leave them set, so a run of the loop that stops between calls prints it
(`summary_renders_after_run`).  But `update` counts first and sets the maximum
last: `summary_renders_iff` says after which stores the table cannot be printed,
and `interrupted_after_head` says it of the orders of a run.
-/

namespace OrderPipeline

/-- The stores of `_Stat.update`, in order. -/
def Stat.updateSteps (price : PyFloat) : List (Stat → Stat) :=
  [fun s => { s with count := s.count + 1 },
    fun s => { s with total := s.total.add price },
    fun s => { s with average := s.average.add ((price.sub s.average).divNat s.count) },
    fun s => { s with minimum := some (match s.minimum with
      | none => price
      | some m => m.min price) },
    fun s => { s with maximum := some (match s.maximum with
      | none => price
      | some m => m.max price) }]

/-- The statistic after the first `k` stores of an `update`. -/
def Stat.interrupted (s : Stat) (price : PyFloat) (k : ℕ) : Stat :=
  ((Stat.updateSteps price).take k).foldl (fun s step => step s) s

namespace OrderAggregator

/-- A store into the overall statistics. -/
def onOverall (step : Stat → Stat) (a : OrderAggregator) : OrderAggregator :=
  { a with overall := step a.overall }

/-- The insertion by `setdefault`. -/
def setdefault (product : String) (a : OrderAggregator) : OrderAggregator :=
  if product ∈ a.perProduct then a
  else { a with perProduct := a.perProduct.insert product {} }

/-- A store into the statistics of a product. -/
def onProduct (product : String) (step : Stat → Stat) (a : OrderAggregator) :
    OrderAggregator :=
  { a with perProduct := a.perProduct.insert product (step (a.productStat product)) }

/-- The stores of `add`, in order. -/
def addSteps (product : String) (price : PyFloat) : List (OrderAggregator → OrderAggregator) :=
  (Stat.updateSteps price).map onOverall ++
    setdefault product :: (Stat.updateSteps price).map (onProduct product)

/-- The aggregator after the first `k` stores of an `add`. -/
def interrupted (a : OrderAggregator) (product : String) (price : PyFloat) (k : ℕ) :
    OrderAggregator :=
  ((addSteps product price).take k).foldl (fun a step => step a) a

end OrderAggregator

/-! ## One statistic -/

/-- All stores together are the `update`. -/
theorem Stat.interrupted_of_le (s : Stat) (price : PyFloat) {k : ℕ} (hk : 5 ≤ k) :
    s.interrupted price k = s.update price := by
  unfold interrupted
  rw [List.take_of_length_le hk]
  rfl

/-- Until the last store the maximum is what it was, and a minimum stays set. -/
theorem Stat.interrupted_of_lt (s : Stat) (price : PyFloat) {k : ℕ} (hk : k < 5) :
    (s.interrupted price k).maximum = s.maximum ∧
      (s.minimum.isSome → (s.interrupted price k).minimum.isSome) := by
  interval_cases k
  · exact ⟨rfl, id⟩
  · exact ⟨rfl, id⟩
  · exact ⟨rfl, id⟩
  · exact ⟨rfl, id⟩
  · exact ⟨rfl, fun _ => rfl⟩

/-- The count is stored first. -/
theorem Stat.interrupted_count (s : Stat) (price : PyFloat) (k : ℕ) :
    (s.interrupted price k).count = s.count + if 1 ≤ k then 1 else 0 := by
  rcases Nat.lt_or_ge k 5 with hlt | hge
  · interval_cases k <;> rfl
  · rw [s.interrupted_of_le price hge, if_pos (by omega)]
    rfl

/-- The extremes of a statistic that has them stay set. -/
theorem Stat.HasExtremes.interrupted {s : Stat} (h : s.HasExtremes) (price : PyFloat)
    (k : ℕ) : (s.interrupted price k).HasExtremes := by
  obtain ⟨hminimum, hmaximum⟩ := h
  rcases Nat.lt_or_ge k 5 with hlt | hge
  · obtain ⟨hsame, hstays⟩ := s.interrupted_of_lt price hlt
    refine ⟨hstays hminimum, ?_⟩
    rw [hsame]
    exact hmaximum
  · rw [s.interrupted_of_le price hge]
    exact ⟨rfl, rfl⟩

/-- A fresh statistic has its extremes only after the last store. -/
theorem Stat.hasExtremes_interrupted_fresh (price : PyFloat) (k : ℕ) :
    (Stat.interrupted {} price k).HasExtremes ↔ 5 ≤ k := by
  rcases Nat.lt_or_ge k 5 with hlt | hge
  · refine iff_of_false ?_ (not_le.mpr hlt)
    intro hextremes
    have hmaximum := hextremes.2
    rw [(Stat.interrupted_of_lt {} price hlt).1] at hmaximum
    cases hmaximum
  · rw [Stat.interrupted_of_le _ price hge]
    exact iff_of_true ⟨rfl, rfl⟩ hge

namespace OrderAggregator

/-! ## The stores of `add` -/

/-- Stores into the overall statistics can be made one after the other on these alone. -/
theorem foldl_onOverall (steps : List (Stat → Stat)) (a : OrderAggregator) :
    (steps.map onOverall).foldl (fun a step => step a) a =
      { a with overall := steps.foldl (fun s step => step s) a.overall } := by
  induction steps generalizing a with
  | nil => rfl
  | cons step steps ih => exact ih (onOverall step a)

/-- Stores into the statistics of a product leave everything else alone, the overall
statistics and the other products alike. -/
theorem foldl_onProduct (product : String) (steps : List (Stat → Stat))
    (a : OrderAggregator) {s : Stat} (hs : a.perProduct.lookup product = some s) :
    let b := (steps.map (onProduct product)).foldl (fun a step => step a) a
    b.overall = a.overall ∧
      b.perProduct.lookup product = some (steps.foldl (fun s step => step s) s) ∧
      ∀ q, q ≠ product → b.perProduct.lookup q = a.perProduct.lookup q := by
  induction steps generalizing a s with
  | nil => exact ⟨rfl, hs, fun _ _ => rfl⟩
  | cons step steps ih =>
      have hstored : (onProduct product step a).perProduct.lookup product = some (step s) := by
        rw [onProduct, productStat_of_lookup hs]
        exact Finmap.lookup_insert _
      obtain ⟨hoverall, hself, hothers⟩ := ih (onProduct product step a) hstored
      refine ⟨hoverall, hself, ?_⟩
      intro q hq
      exact (hothers q hq).trans (Finmap.lookup_insert_of_ne _ hq)

/-- After `setdefault` the product has an entry: the one it had, or an empty one. -/
theorem setdefault_lookup_self (product : String) (a : OrderAggregator) :
    (setdefault product a).perProduct.lookup product = some (a.productStat product) := by
  unfold setdefault
  by_cases hmem : product ∈ a.perProduct
  · obtain ⟨s, hs⟩ := Finmap.mem_iff.mp hmem
    rw [if_pos hmem, hs, productStat_of_lookup hs]
  · rw [if_neg hmem, productStat, Finmap.lookup_eq_none.mpr hmem]
    exact Finmap.lookup_insert _

/-- No other entry is touched. -/
theorem setdefault_lookup_of_ne {product q : String} (a : OrderAggregator)
    (h : q ≠ product) :
    (setdefault product a).perProduct.lookup q = a.perProduct.lookup q := by
  unfold setdefault
  by_cases hmem : product ∈ a.perProduct
  · rw [if_pos hmem]
  · rw [if_neg hmem]
    exact Finmap.lookup_insert_of_ne _ h

/-- Nor are the overall statistics, which are stored before. -/
theorem setdefault_overall (product : String) (a : OrderAggregator) :
    (setdefault product a).overall = a.overall := by
  unfold setdefault
  by_cases hmem : product ∈ a.perProduct
  · rw [if_pos hmem]
  · rw [if_neg hmem]

variable (a : OrderAggregator) (product : String) (price : PyFloat)

/-- Up to the insertion only the overall statistics have changed. -/
theorem interrupted_of_le {k : ℕ} (hk : k ≤ 5) :
    a.interrupted product price k = { a with overall := a.overall.interrupted price k } := by
  have hlength : k ≤ ((Stat.updateSteps price).map onOverall).length := hk
  unfold interrupted addSteps
  rw [List.take_append_of_le_length hlength, ← List.map_take, foldl_onOverall]
  rfl

/-- From the insertion on the overall statistics are updated, and those of the
product are present. -/
theorem interrupted_add_six (j : ℕ) :
    (a.interrupted product price (j + 6)).overall = a.overall.update price ∧
      (a.interrupted product price (j + 6)).perProduct.lookup product =
        some ((a.productStat product).interrupted price j) ∧
      ∀ q, q ≠ product → (a.interrupted product price (j + 6)).perProduct.lookup q =
        a.perProduct.lookup q := by
  have hsteps : (addSteps product price).take (j + 6) =
      (Stat.updateSteps price).map onOverall ++
        setdefault product :: ((Stat.updateSteps price).take j).map (onProduct product) := by
    rw [List.map_take]
    rfl
  have hstart : a.interrupted product price (j + 6) =
      (((Stat.updateSteps price).take j).map (onProduct product)).foldl (fun a step => step a)
        (setdefault product { a with overall := a.overall.update price }) := by
    unfold interrupted
    rw [hsteps, List.foldl_append, foldl_onOverall]
    rfl
  obtain ⟨hoverall, hself, hothers⟩ := foldl_onProduct product
    ((Stat.updateSteps price).take j) _
    (setdefault_lookup_self product { a with overall := a.overall.update price })
  rw [hstart]
  refine ⟨hoverall.trans (setdefault_overall product _), hself, ?_⟩
  intro q hq
  exact (hothers q hq).trans (setdefault_lookup_of_ne _ hq)

/-- All stores together are the `add`. -/
theorem interrupted_eq_add {k : ℕ} (hk : 11 ≤ k) :
    a.interrupted product price k = (a.add product price).1 := by
  obtain ⟨j, rfl⟩ : ∃ j, k = j + 6 := ⟨k - 6, by omega⟩
  obtain ⟨hoverall, hself, hothers⟩ := a.interrupted_add_six product price j
  refine OrderAggregator.ext hoverall ?_
  apply Finmap.ext_lookup
  intro q
  by_cases hq : q = product
  · rw [hq, hself, add_lookup_self, Stat.interrupted_of_le _ _ (by omega)]
  · rw [hothers q hq, add_lookup_of_ne _ _ hq]

/-! ## Completed calls -/

variable {a product price}

/-- A completed call leaves the extremes set. -/
theorem Printable.add (h : a.Printable) : (a.add product price).1.Printable := by
  refine ⟨fun _ => ⟨rfl, rfl⟩, ?_⟩
  intro q s hs
  by_cases hq : q = product
  · rw [hq, add_lookup_self] at hs
    cases hs
    exact ⟨rfl, rfl⟩
  · rw [add_lookup_of_ne _ _ hq] at hs
    exact h.2 q s hs

/-- **Representation invariant.**  After completed calls every statistic that is
formatted has its extremes. -/
theorem printable_addAll (sales : List (String × PyFloat)) :
    (({} : OrderAggregator).addAll sales).Printable := by
  induction sales using List.reverseRecOn with
  | nil =>
      refine ⟨fun hcount => absurd rfl hcount, ?_⟩
      intro product s hs
      cases hs
  | append_singleton sales sale ih =>
      rw [addAll_append, addAll_singleton]
      exact ih.add

/-- After completed calls of `add` the entries are those of the products sold. -/
theorem mem_perProduct_addAll (sales : List (String × PyFloat)) (product : String) :
    product ∈ (({} : OrderAggregator).addAll sales).perProduct ↔
      product ∈ sales.map Prod.fst := by
  induction sales using List.reverseRecOn with
  | nil => exact iff_of_false Finmap.notMem_empty List.not_mem_nil
  | append_singleton sales sale ih =>
      rw [addAll_append, addAll_singleton, List.map_append, List.mem_append, ← ih]
      show product ∈ Finmap.insert _ _ _ ↔ _
      rw [Finmap.mem_insert, or_comm]
      simp

/-! ## Interrupted calls -/

/-- Before the insertion only the overall statistics can stop the table. -/
theorem printable_interrupted_of_le (h : a.Printable) {k : ℕ} (hk : k ≤ 5) :
    (a.interrupted product price k).Printable ↔
      ((a.overall.interrupted price k).count ≠ 0 →
        (a.overall.interrupted price k).HasExtremes) := by
  rw [interrupted_of_le a product price hk]
  exact ⟨fun hprintable => hprintable.1, fun hoverall => ⟨hoverall, h.2⟩⟩

/-- From the insertion on only the statistics of the product can. -/
theorem printable_interrupted_add_six (h : a.Printable) (j : ℕ) :
    (a.interrupted product price (j + 6)).Printable ↔
      ((a.productStat product).interrupted price j).HasExtremes := by
  obtain ⟨hoverall, hself, hothers⟩ := a.interrupted_add_six product price j
  constructor
  · intro hprintable
    exact hprintable.2 product _ hself
  · intro hextremes
    refine ⟨?_, ?_⟩
    · rw [hoverall]
      exact fun _ => ⟨rfl, rfl⟩
    · intro q s hs
      by_cases hq : q = product
      · rw [hq, hself] at hs
        cases hs
        exact hextremes
      · rw [hothers q hq] at hs
        exact h.2 q s hs

/-- Which stores of an `add` after completed ones leave the table printable: not those
between the first count and the extremes, of all orders or of a product that is new. -/
theorem printable_interrupted_iff (sales : List (String × PyFloat)) (product : String)
    (price : PyFloat) (k : ℕ) :
    ((({} : OrderAggregator).addAll sales).interrupted product price k).Printable ↔
      ¬(sales = [] ∧ 1 ≤ k ∧ k ≤ 4) ∧
        ¬(product ∉ sales.map Prod.fst ∧ 6 ≤ k ∧ k ≤ 10) := by
  have hprintable := printable_addAll sales
  rcases Nat.lt_or_ge k 6 with hlt | hge
  · rw [printable_interrupted_of_le hprintable (by omega), Stat.interrupted_count]
    by_cases hsales : sales = []
    · rw [hsales]
      show ((0 + if 1 ≤ k then 1 else 0) ≠ 0 → (Stat.interrupted {} price k).HasExtremes) ↔ _
      rw [Stat.hasExtremes_interrupted_fresh]
      by_cases hk : 1 ≤ k
      · rw [if_pos hk]
        simp only [true_and]
        omega
      · rw [if_neg hk]
        simp only [true_and]
        omega
    · have hcount : (({} : OrderAggregator).addAll sales).overall.count ≠ 0 := by
        have hlength := count_addAll {} sales
        have hpos := List.length_pos_iff.mpr hsales
        unfold count at hlength
        omega
      refine iff_of_true ?_ ⟨fun h => hsales h.1, fun h => by omega⟩
      intro _
      exact (hprintable.1 hcount).interrupted price k
  · obtain ⟨j, rfl⟩ : ∃ j, k = j + 6 := ⟨k - 6, by omega⟩
    rw [printable_interrupted_add_six hprintable]
    by_cases hproduct : product ∈ sales.map Prod.fst
    · obtain ⟨s, hs⟩ := Finmap.mem_iff.mp ((mem_perProduct_addAll sales product).mpr hproduct)
      rw [productStat_of_lookup hs]
      refine iff_of_true ((hprintable.2 product s hs).interrupted price j) ⟨?_, ?_⟩
      · omega
      · exact fun h => h.1 hproduct
    · have hnone : (({} : OrderAggregator).addAll sales).perProduct.lookup product = none := by
        rw [Finmap.lookup_eq_none, mem_perProduct_addAll]
        exact hproduct
      rw [productStat, hnone]
      show (Stat.interrupted {} price j).HasExtremes ↔ _
      rw [Stat.hasExtremes_interrupted_fresh]
      simp only [hproduct, not_false_eq_true, true_and]
      omega

end OrderAggregator

/-! ## Runs of the loop -/

section Runs

variable {σ : Type} {setup : Setup σ}

/-- An execution adds at most one sale, by a completed call, so a table that could be
printed can still be. -/
theorem attempt_printable (setup : Setup σ) (order : Order) (c : Consumer σ)
    (h : c.work.aggregator.Printable) :
    (setup.attempt order c).state.aggregator.Printable := by
  rcases attempt_aggregator setup order c with ⟨n, sale, -, -, hadded⟩ | ⟨-, hsame⟩
  · rw [hadded]
    exact h.add
  · rw [hsame]
    exact h

/-- The same for a pass through the loop, whether it completes or raises. -/
theorem iterate_printable (tick : Tick) (c : Consumer σ) (h : c.work.aggregator.Printable) :
    (iterate setup tick c).state.work.aggregator.Printable := by
  rcases iterate_effect setup tick c with ⟨hsame, -⟩ | ⟨m, order, -, -, hwork, -⟩
  · rw [hsame]
    exact h
  · rw [hwork]
    exact attempt_printable setup order (c.receive m) h

/-- The summary is printed after every run, whatever exception has ended it. -/
theorem summary_renders_after_run (effect : σ) (offsets : CommitLog.Offsets ℕ)
    (ticks : List Tick) :
    let c := (runLoop setup ticks (Consumer.fresh effect offsets)).state
    ∃ text, c.work.aggregator.formatSummary = .ok text ∧ c.work.aggregator.Rendered text := by
  intro c
  have hprintable : c.work.aggregator.Printable :=
    runLoop_state (fun c => c.work.aggregator.Printable)
      (fun tick c => iterate_printable tick c) ticks (OrderAggregator.printable_addAll [])
  obtain ⟨text, htext⟩ := OrderAggregator.formatSummary_returns_iff.mpr hprintable
  exact ⟨text, htext, OrderAggregator.formatSummary_rendered htext⟩

/-- From a loop head, an interrupt inside the `add` of the next order spares the
table unless nothing has been processed or the product is new. -/
theorem interrupted_after_head {effect : σ} {offsets : CommitLog.Offsets ℕ}
    {ticks : List Tick} {c : Consumer σ}
    (hrun : runLoop setup ticks (Consumer.fresh effect offsets) = .next c)
    (product : String) (price : PyFloat) (k : ℕ) :
    (∃ text, (c.work.aggregator.interrupted product price k).formatSummary = .ok text) ↔
      ¬(c.processed = 0 ∧ 1 ≤ k ∧ k ≤ 4) ∧
        ¬(product ∉ c.work.aggregator.perProduct ∧ 6 ≤ k ∧ k ≤ 10) := by
  have hbooks := (ledger_at_head hrun).toBooks
  generalize hsales : (succeededOf c.handled).filterMap (·.order.sale?) = sales
  have haggregator := hbooks.aggregator
  rw [hsales] at haggregator
  have hprocessed : c.processed = 0 + sales.length := by
    rw [hbooks.count, haggregator]
    exact OrderAggregator.count_addAll {} sales
  have hnothing : c.processed = 0 ↔ sales = [] := by
    rw [hprocessed, Nat.zero_add, List.length_eq_zero_iff]
  rw [OrderAggregator.formatSummary_returns_iff, haggregator,
    OrderAggregator.printable_interrupted_iff, hnothing, OrderAggregator.mem_perProduct_addAll]

end Runs

/-! ## Interrupts -/

/-- **When the shutdown summary survives an interrupt.**  After completed calls and
the first `k` stores of one more the table is printed, unless the call is the
first one of all and its maximum is still to come, or the first one of its
product and the maximum of the product is. -/
theorem summary_renders_iff (sales : List (String × PyFloat)) (product : String)
    (price : PyFloat) (k : ℕ) :
    (∃ text,
      ((({} : OrderAggregator).addAll sales).interrupted product price k).formatSummary =
        .ok text ∧
      ((({} : OrderAggregator).addAll sales).interrupted product price k).Rendered text) ↔
      ¬(sales = [] ∧ 1 ≤ k ∧ k ≤ 4) ∧
        ¬(product ∉ sales.map Prod.fst ∧ 6 ≤ k ∧ k ≤ 10) := by
  rw [← OrderAggregator.printable_interrupted_iff, ← OrderAggregator.formatSummary_returns_iff]
  constructor
  · intro hrenders
    obtain ⟨text, h, -⟩ := hrenders
    exact ⟨text, h⟩
  · intro hreturns
    obtain ⟨text, h⟩ := hreturns
    exact ⟨text, h, OrderAggregator.formatSummary_rendered h⟩

/-- An interrupt right after the first order of all has been counted, and one
right after a new product has been inserted: the table raises `TypeError`. -/
theorem interrupted_summary_raises :
    ((({} : OrderAggregator).addAll []).interrupted "Item1" (.finite 10) 1).formatSummary =
        .error noneFormatError ∧
      ((({} : OrderAggregator).addAll [("Item1", .finite 10)]).interrupted "Item2"
        (.finite 20) 6).formatSummary = .error noneFormatError := by
  constructor
  · rw [OrderAggregator.formatSummary_raises_iff, OrderAggregator.printable_interrupted_iff]
    decide
  · rw [OrderAggregator.formatSummary_raises_iff, OrderAggregator.printable_interrupted_iff]
    decide

end OrderPipeline

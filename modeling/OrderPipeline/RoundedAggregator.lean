import OrderPipeline.AggregateHealth
import OrderPipeline.Foundation.Binary64Rounding

/-!
# The aggregator in binary64

`consumer/aggregator.py` with every float operation rounded, as the interpreter does it,
against the exact aggregator of the other modules.

The two agree in the counts and the extremes.  The rounded averages stay between the
extremes (`rounded_healthy_iff`): no sequence of binary32 prices, however long, makes the
aggregate infinite or puts an average outside the prices it averages.  And they follow the
exact averages at a distance that grows with the number of the orders, in units of the
last place (`rounded_tracks_exact`).
-/

namespace OrderPipeline

open PyFloat

/-! ## Rounded updates -/

/-- `_Stat.update`, each operation rounded. -/
def Stat.updateRounded (s : Stat) (price : PyFloat) : Stat :=
  { s.update price with
    total := (s.total.add price).rounded
    average := (s.average.add
      ((price.sub s.average).rounded.divRounded (s.count + 1))).rounded }

namespace OrderAggregator

/-- `add`, each operation rounded. -/
def addRounded (a : OrderAggregator) (product : String) (price : PyFloat) :
    OrderAggregator × PyFloat :=
  let overall := a.overall.updateRounded price
  ({ overall := overall
     perProduct :=
       a.perProduct.insert product ((a.productStat product).updateRounded price) },
    overall.average)

/-- Add a list of sales, oldest first. -/
def addAllRounded (a : OrderAggregator) (sales : List (String × PyFloat)) : OrderAggregator :=
  sales.foldl (fun a sale => (a.addRounded sale.1 sale.2).1) a

end OrderAggregator

/-- The statistics of some prices. -/
def Stat.roundedAll (prices : List PyFloat) : Stat := prices.foldl Stat.updateRounded {}

/-- The prices of a product. -/
def floatPricesOf (product : String) (sales : List (String × PyFloat)) : List PyFloat :=
  (sales.filter fun sale => sale.1 = product).map Prod.snd

/-- The entry of a product: none unless it has been sold. -/
def roundedEntry (product : String) (sales : List (String × PyFloat)) : Option Stat :=
  if floatPricesOf product sales = [] then none
  else some (Stat.roundedAll (floatPricesOf product sales))

/-- The aggregator keeps all prices together, and those of each product, in the order of
the sales; rounding makes that order matter. -/
theorem OrderAggregator.addAllRounded_eq (sales : List (String × PyFloat)) :
    (({} : OrderAggregator).addAllRounded sales).overall =
        Stat.roundedAll (sales.map Prod.snd) ∧
      ∀ product, (({} : OrderAggregator).addAllRounded sales).perProduct.lookup product =
        roundedEntry product sales := by
  induction sales using List.reverseRecOn with
  | nil => exact ⟨rfl, fun product => rfl⟩
  | append_singleton sales sale ih =>
      obtain ⟨hoverall, hproducts⟩ := ih
      have hsnoc : ({} : OrderAggregator).addAllRounded (sales ++ [sale]) =
          ((({} : OrderAggregator).addAllRounded sales).addRounded sale.1 sale.2).1 := by
        simp [addAllRounded]
      rw [hsnoc]
      refine ⟨?_, ?_⟩
      · simp [addRounded, hoverall, Stat.roundedAll]
      · intro product
        by_cases hproduct : product = sale.1
        · subst hproduct
          have hprices : floatPricesOf sale.1 (sales ++ [sale]) =
              floatPricesOf sale.1 sales ++ [sale.2] := by simp [floatPricesOf]
          have hstat : (({} : OrderAggregator).addAllRounded sales).productStat sale.1 =
              Stat.roundedAll (floatPricesOf sale.1 sales) := by
            rw [productStat, hproducts sale.1, roundedEntry]
            split
            · next hnil => rw [hnil]; rfl
            · rfl
          unfold addRounded
          simp only
          rw [Finmap.lookup_insert, hstat, roundedEntry, hprices, if_neg (by simp)]
          simp [Stat.roundedAll]
        · have hprices : floatPricesOf product (sales ++ [sale]) =
              floatPricesOf product sales := by
            simp [floatPricesOf, Ne.symm hproduct]
          unfold addRounded
          simp only
          rw [Finmap.lookup_insert_of_ne _ hproduct, hproducts product, roundedEntry,
            roundedEntry, hprices]

/-! ## Finite prices -/

/-- The powers of two are on the grid of binary64. -/
theorem representable_power (n : ℕ) : binary64.Representable (2 ^ n) := by
  have hexact := nearestBinary64_exact (m := 1) (j := n) (by norm_num) (by omega)
  rw [Int.cast_one, one_mul, zpow_natCast] at hexact
  exact hexact

/-- No average of binary32 prices exceeds the largest one. -/
theorem average_le {prices : List ℚ} (h : ∀ x ∈ prices, IsBinary32 x) :
    |(binary64.stream prices).average| ≤ 2 ^ 128 := by
  rcases eq_or_ne prices [] with rfl | hne
  · simp [Rounding.stream, Running.empty]
  · rw [abs_le]
    exact Rounding.average_between hne (fun x hx => (h x hx).representable)
      fun x hx => abs_le.mp (h x hx).abs_le

/-- The total of binary32 prices stays finite: at `2 ^ 182` they are rounded away. -/
theorem total_le {prices : List ℚ} (h : ∀ x ∈ prices, IsBinary32 x) :
    |(binary64.stream prices).total| ≤ 2 ^ 182 := by
  have hpower : IsBinary64 (2 ^ 182) := ⟨1, 182, by norm_num, by norm_num, by norm_num, by norm_num⟩
  have hlog : Int.log 2 |(2 ^ 182 : ℚ)| = 182 := by
    rw [abs_of_pos (by norm_num)]
    exact_mod_cast Int.log_zpow (R := ℚ) (by norm_num : 1 < 2) 182
  have hclose : (2 ^ 128 : ℚ) < ulp (2 ^ 182) / 2 := by
    unfold ulp
    rw [hlog]
    norm_num
  apply Rounding.total_bounded (by norm_num) fun x hx => (h x hx).abs_le
  exact (hpower.absorbs (by norm_num) (by norm_num) hclose).le

/-- Within the range an operation returns the rounded result. -/
theorem ofDecimal_of_le {q : ℚ} {n : ℕ} (h : |q| ≤ 2 ^ n) (hn : n < 1024) :
    ofDecimal q = .finite (binary64.fl q) ∧ |binary64.fl q| ≤ 2 ^ n := by
  refine ⟨ofDecimal_of_lt (h.trans_lt (two_pow_lt_limit hn)), ?_⟩
  exact (Rounding.abs_fl_le h).trans (representable_power n).le

/-- No operation of an update overflows, so an update is a step of the rounded stream.
The bounds on the total and on the mean are those of binary32 prices. -/
theorem Stat.updateRounded_stream {prices : List ℚ} {x : ℚ}
    (h : ∀ y ∈ prices, IsBinary32 y) (hx : IsBinary32 x) :
    (Stat.ofRunning (binary64.stream prices)).updateRounded (.finite x) =
      Stat.ofRunning (binary64.stream (prices ++ [x])) := by
  have hexact := Stat.update_ofRunning (binary64.stream prices) x
  have htotal := total_le h
  have haverage := average_le h
  have hprice := hx.abs_le
  rw [Rounding.stream_concat]
  generalize binary64.stream prices = r at *
  have hsum : |r.total + x| ≤ 2 ^ 183 := by
    refine (abs_add_le _ _).trans ((add_le_add htotal hprice).trans ?_)
    norm_num
  have hdiff : |x - r.average| ≤ 2 ^ 129 := by
    refine (abs_sub x r.average).trans ((add_le_add hprice haverage).trans ?_)
    norm_num
  obtain ⟨hdiffRound, hdiffBound⟩ := ofDecimal_of_le hdiff (by norm_num)
  have hcount : (1 : ℚ) ≤ nearestBinary64 ((r.count + 1 : ℕ) : ℚ) := by
    have hone : (1 : ℚ) ≤ (r.count + 1 : ℕ) := by exact_mod_cast Nat.succ_pos r.count
    have hround := binary64.mono hone
    rwa [binary64.one] at hround
  have hquotient : |binary64.fl (x - r.average) / nearestBinary64 ((r.count + 1 : ℕ) : ℚ)| ≤
      2 ^ 129 := by
    have hpos : 0 < nearestBinary64 ((r.count + 1 : ℕ) : ℚ) := by linarith
    rw [abs_div, abs_of_pos hpos]
    exact (div_le_self (abs_nonneg _) hcount).trans hdiffBound
  obtain ⟨hquotientRound, hquotientBound⟩ := ofDecimal_of_le hquotient (by norm_num)
  have hcorrected : |r.average + binary64.fl (binary64.fl (x - r.average) /
      nearestBinary64 ((r.count + 1 : ℕ) : ℚ))| ≤ 2 ^ 130 := by
    refine (abs_add_le _ _).trans ((add_le_add haverage hquotientBound).trans ?_)
    norm_num
  unfold Stat.updateRounded
  rw [hexact]
  simp only [Stat.ofRunning, PyFloat.add_finite, PyFloat.sub_finite, rounded, divRounded,
    hdiffRound, hquotientRound, (ofDecimal_of_le hsum (by norm_num)).1,
    (ofDecimal_of_le hcorrected (by norm_num)).1]
  rfl

/-- On binary32 prices `_Stat` is the rounded stream. -/
theorem Stat.roundedAll_finite {prices : List ℚ} (h : ∀ x ∈ prices, IsBinary32 x) :
    Stat.roundedAll (prices.map .finite) = Stat.ofRunning (binary64.stream prices) := by
  induction prices using List.reverseRecOn with
  | nil => rfl
  | append_singleton prices x ih =>
      simp only [List.forall_mem_append, List.forall_mem_singleton] at h
      have hsnoc : Stat.roundedAll ((prices ++ [x]).map .finite) =
          (Stat.roundedAll (prices.map .finite)).updateRounded (.finite x) := by
        simp [Stat.roundedAll]
      rw [hsnoc, ih h.1, Stat.updateRounded_stream h.1 h.2]

/-- The rounded statistics of binary32 prices are healthy: the mean stays between the
extremes in spite of the roundings. -/
theorem Stat.healthy_stream {prices : List ℚ} (h : ∀ x ∈ prices, IsBinary32 x) :
    (Stat.ofRunning (binary64.stream prices)).Healthy := by
  obtain ⟨hcount, hminimum, hmaximum⟩ := Rounding.stream_exact (R := binary64) prices
  intro hpos
  have hne : prices ≠ [] := by
    rintro rfl
    exact absurd hpos (by decide)
  obtain ⟨lo, hlo⟩ := Option.ne_none_iff_exists'.mp
    (fun hnone => hne (List.min?_eq_none_iff.mp hnone))
  obtain ⟨hi, hhi⟩ := Option.ne_none_iff_exists'.mp
    (fun hnone => hne (List.max?_eq_none_iff.mp hnone))
  obtain ⟨hlow, hhigh⟩ := Rounding.average_between hne (fun x hx => (h x hx).representable)
    fun x hx => ⟨(List.min?_eq_some_iff.mp hlo).2 x hx, (List.max?_eq_some_iff.mp hhi).2 x hx⟩
  refine ⟨_, _, lo, hi, rfl, rfl, ?_, ?_, hlow, hhigh⟩
  · show (binary64.stream prices).minimum.map PyFloat.finite = _
    rw [hminimum, hlo]
    rfl
  · show (binary64.stream prices).maximum.map PyFloat.finite = _
    rw [hmaximum, hhi]
    rfl

/-- The count is exact: one for each price. -/
theorem Stat.roundedAll_count (prices : List PyFloat) :
    (Stat.roundedAll prices).count = prices.length := by
  induction prices using List.reverseRecOn with
  | nil => rfl
  | append_singleton prices x ih =>
      have hsnoc : (Stat.roundedAll (prices ++ [x])).count =
          (Stat.roundedAll prices).count + 1 := by
        simp [Stat.roundedAll, Stat.updateRounded, Stat.update]
      rw [hsnoc, ih, List.length_append, List.length_singleton]

/-- A rounded total is finite only if all prices are. -/
theorem Stat.roundedAll_total_finite {prices : List PyFloat} {q : ℚ}
    (h : (Stat.roundedAll prices).total = .finite q) : ∀ x ∈ prices, ∃ p, x = .finite p := by
  induction prices using List.reverseRecOn generalizing q with
  | nil => simp
  | append_singleton prices x ih =>
      have hsnoc : Stat.roundedAll (prices ++ [x]) =
          (Stat.roundedAll prices).updateRounded x := by simp [Stat.roundedAll]
      rw [hsnoc] at h
      obtain ⟨p, hp⟩ := rounded_finite h
      obtain ⟨⟨total, htotal⟩, hx⟩ := PyFloat.add_finite_iff.mp ⟨p, hp⟩
      simp only [List.forall_mem_append, List.forall_mem_singleton]
      exact ⟨ih htotal, hx⟩

/-! ## The aggregator -/

/-- The prices of a product, for sales that are all finite. -/
theorem floatPricesOf_finite (product : String) (sales : List (String × ℚ)) :
    floatPricesOf product (sales.map finiteSale) = (pricesOf product sales).map .finite := by
  unfold floatPricesOf pricesOf
  rw [List.filter_map, List.map_map, List.map_map]
  rfl

/-- A price of a product is the price of one of the sales. -/
theorem mem_pricesOf {product : String} {sales : List (String × ℚ)} {x : ℚ}
    (h : x ∈ pricesOf product sales) : ∃ sale ∈ sales, sale.2 = x := by
  obtain ⟨sale, hsale, hx⟩ := List.mem_map.mp h
  exact ⟨sale, (List.mem_filter.mp hsale).1, hx⟩

/-- The rounded aggregator after finite sales, in terms of rounded streams. -/
theorem OrderAggregator.addAllRounded_finite {sales : List (String × ℚ)}
    (h : ∀ sale ∈ sales, IsBinary32 sale.2) :
    (({} : OrderAggregator).addAllRounded (sales.map finiteSale)).overall =
        Stat.ofRunning (binary64.stream (sales.map Prod.snd)) ∧
      ∀ product,
        (({} : OrderAggregator).addAllRounded (sales.map finiteSale)).perProduct.lookup product =
          if pricesOf product sales = [] then none
          else some (Stat.ofRunning (binary64.stream (pricesOf product sales))) := by
  obtain ⟨hoverall, hproducts⟩ := OrderAggregator.addAllRounded_eq (sales.map finiteSale)
  have hprices : (sales.map finiteSale).map Prod.snd = (sales.map Prod.snd).map .finite := by
    simp [finiteSale]
  refine ⟨?_, ?_⟩
  · rw [hoverall, hprices, Stat.roundedAll_finite]
    intro x hx
    obtain ⟨sale, hsale, rfl⟩ := List.mem_map.mp hx
    exact h sale hsale
  · intro product
    rw [hproducts product, roundedEntry, floatPricesOf_finite, Stat.roundedAll_finite]
    · simp
    · intro x hx
      obtain ⟨sale, hsale, rfl⟩ := mem_pricesOf hx
      exact h sale hsale

/-- Finite sales at binary32 prices. -/
theorem binary32_finiteSales {sales : List (String × PyFloat)}
    (h : ∀ sale ∈ sales, ∀ q, sale.2 = .finite q → IsBinary32 q)
    (hfinite : ∀ sale ∈ sales, ∃ q, sale.2 = .finite q) :
    ∀ sale ∈ finiteSales sales, IsBinary32 sale.2 := by
  intro sale hsale
  have hmem : finiteSale sale ∈ sales := by
    rw [← map_finiteSales hfinite]
    exact List.mem_map_of_mem hsale
  exact h _ hmem sale.2 rfl

/-- **Rounding does not spoil the aggregate.**  After any number of binary32 prices, the
special ones among them, the aggregator with rounded operations is healthy, its sums
finite and each average between the extremes of its prices, exactly when all prices are
finite. -/
theorem rounded_healthy_iff (sales : List (String × PyFloat))
    (h : ∀ sale ∈ sales, ∀ q, sale.2 = .finite q → IsBinary32 q) :
    (({} : OrderAggregator).addAllRounded sales).Healthy ↔
      ∀ sale ∈ sales, ∃ q, sale.2 = .finite q := by
  constructor
  · rintro ⟨hoverall, -⟩ sale hsale
    rw [(OrderAggregator.addAllRounded_eq sales).1] at hoverall
    have hcount : 1 ≤ (Stat.roundedAll (sales.map Prod.snd)).count := by
      rw [Stat.roundedAll_count, List.length_map]
      exact List.length_pos_of_mem hsale
    obtain ⟨total, -, -, -, htotal, -⟩ := hoverall hcount
    exact Stat.roundedAll_total_finite htotal sale.2 (List.mem_map_of_mem hsale)
  · intro hfinite
    have hsales := binary32_finiteSales h hfinite
    obtain ⟨hoverall, hproducts⟩ := OrderAggregator.addAllRounded_finite hsales
    rw [map_finiteSales hfinite] at hoverall hproducts
    refine ⟨?_, ?_⟩
    · rw [hoverall]
      apply Stat.healthy_stream
      intro x hx
      obtain ⟨sale, hsale, rfl⟩ := List.mem_map.mp hx
      exact hsales sale hsale
    · intro product s hs
      rw [hproducts product] at hs
      split at hs
      · cases hs
      · cases hs
        apply Stat.healthy_stream
        intro x hx
        obtain ⟨sale, hsale, rfl⟩ := mem_pricesOf hx
        exact hsales sale hsale

/-- Three sales, at prices nearest to 0.1, 0.2 and at 12. -/
def threeSales : List (String × ℚ) :=
  [("Item1", 13421773 / 134217728), ("Item2", 13421773 / 67108864), ("Item1", 12)]

/-- The three sample prices are binary32 numbers of at most 12. -/
theorem threeSales_prices : ∀ sale ∈ threeSales, IsBinary32 sale.2 ∧ |sale.2| ≤ 12 := by
  simp only [threeSales, List.forall_mem_cons]
  refine ⟨⟨⟨13421773, -27, ?_⟩, ?_⟩, ⟨⟨13421773, -26, ?_⟩, ?_⟩, ⟨⟨12, 0, ?_⟩, ?_⟩,
    List.forall_mem_nil _⟩ <;> norm_num [abs_of_pos]

theorem threeSales_binary32 :
    ∀ sale ∈ threeSales.map finiteSale, ∀ q, sale.2 = .finite q → IsBinary32 q := by
  rintro sale hsale q hq
  obtain ⟨origin, horigin, rfl⟩ := List.mem_map.mp hsale
  cases hq
  exact (threeSales_prices origin horigin).1

/-- The aggregate of the three sales is healthy, and no longer with an infinite price. -/
theorem rounded_healthy_threeSales :
    (({} : OrderAggregator).addAllRounded (threeSales.map finiteSale)).Healthy ∧
      ¬ (({} : OrderAggregator).addAllRounded
        (("Item1", .posInf) :: threeSales.map finiteSale)).Healthy := by
  have hprices := threeSales_binary32
  refine ⟨(rounded_healthy_iff _ hprices).mpr ?_, fun hhealthy => ?_⟩
  · rintro sale hsale
    obtain ⟨origin, -, rfl⟩ := List.mem_map.mp hsale
    exact ⟨origin.2, rfl⟩
  · have hfinite := (rounded_healthy_iff _
      (List.forall_mem_cons.mpr ⟨by simp, hprices⟩)).mp hhealthy
    simpa using hfinite _ List.mem_cons_self

/-- Rounded statistics beside exact ones of the same prices, which are at most `M`. -/
structure Stat.Tracks (M : ℚ) (s exact : Stat) : Prop where
  count : s.count = exact.count
  minimum : s.minimum = exact.minimum
  maximum : s.maximum = exact.maximum
  average : ∃ average mean : ℚ, s.average = .finite average ∧ exact.average = .finite mean ∧
    |average - mean| ≤ (s.count + 1) / 2 * (5 * (2 ^ (-53 : ℤ) * M) + 3 * 2 ^ (-1075 : ℤ))

/-- The rounded stream of prices tracks the batch statistics of the same prices. -/
theorem Stat.stream_tracks {prices : List ℚ} {M : ℚ} (hM : 0 ≤ M)
    (h : ∀ x ∈ prices, IsBinary32 x) (hbound : ∀ x ∈ prices, |x| ≤ M) :
    (Stat.ofRunning (binary64.stream prices)).Tracks M
      (Stat.ofRunning (Running.batch prices)) := by
  obtain ⟨hcount, hminimum, hmaximum⟩ := Rounding.stream_exact (R := binary64) prices
  have herror := Rounding.average_error (R := binary64) hM
    (fun x hx => (h x hx).representable) hbound
  have hlowest : (Stat.ofRunning (binary64.stream prices)).minimum =
      (Stat.ofRunning (Running.batch prices)).minimum :=
    congrArg (Option.map PyFloat.finite) hminimum
  have hhighest : (Stat.ofRunning (binary64.stream prices)).maximum =
      (Stat.ofRunning (Running.batch prices)).maximum :=
    congrArg (Option.map PyFloat.finite) hmaximum
  refine ⟨hcount, hlowest, hhighest, _, _, rfl, rfl, ?_⟩
  rw [show (Stat.ofRunning (binary64.stream prices)).count = prices.length from hcount]
  exact herror

/-- **The rounded averages track the exact ones.**  After any sales at finite binary32
prices of at most `M` the aggregator with rounded operations has the counts and the
extremes of the exact one, for all orders and for each product; and an average of `n`
prices is no further from the exact one than `n + 1` times `5 / 2` units of the last place
of `M`, and as many times the least subnormal numbers. -/
theorem rounded_tracks_exact {sales : List (String × ℚ)} {M : ℚ} (hM : 0 ≤ M)
    (h : ∀ sale ∈ sales, IsBinary32 sale.2 ∧ |sale.2| ≤ M) :
    (({} : OrderAggregator).addAllRounded (sales.map finiteSale)).overall.Tracks M
        (OrderAggregator.afterSales sales).overall ∧
      ∀ product, Option.Rel (Stat.Tracks M)
        ((({} : OrderAggregator).addAllRounded (sales.map finiteSale)).perProduct.lookup product)
        ((OrderAggregator.afterSales sales).perProduct.lookup product) := by
  obtain ⟨hrounded, hroundedProducts⟩ :=
    OrderAggregator.addAllRounded_finite fun sale hsale => (h sale hsale).1
  obtain ⟨hexact, hexactProducts⟩ := OrderAggregator.addAll_finite sales
  refine ⟨?_, ?_⟩
  · rw [hrounded, OrderAggregator.afterSales, hexact]
    have hprices : ∀ x ∈ sales.map Prod.snd, IsBinary32 x ∧ |x| ≤ M := by
      intro x hx
      obtain ⟨sale, hsale, rfl⟩ := List.mem_map.mp hx
      exact h sale hsale
    exact Stat.stream_tracks hM (fun x hx => (hprices x hx).1) fun x hx => (hprices x hx).2
  · intro product
    rw [hroundedProducts product, OrderAggregator.afterSales, hexactProducts product, batchEntry]
    have hprices : ∀ x ∈ pricesOf product sales, IsBinary32 x ∧ |x| ≤ M := by
      intro x hx
      obtain ⟨sale, hsale, rfl⟩ := mem_pricesOf hx
      exact h sale hsale
    split
    · exact .none
    · exact .some (Stat.stream_tracks hM (fun x hx => (hprices x hx).1)
        fun x hx => (hprices x hx).2)

theorem rounded_tracks_threeSales :
    (({} : OrderAggregator).addAllRounded (threeSales.map finiteSale)).overall.Tracks 12
        (OrderAggregator.afterSales threeSales).overall ∧
      ∀ product, Option.Rel (Stat.Tracks 12)
        ((({} : OrderAggregator).addAllRounded
          (threeSales.map finiteSale)).perProduct.lookup product)
        ((OrderAggregator.afterSales threeSales).perProduct.lookup product) :=
  rounded_tracks_exact (by norm_num) threeSales_prices

end OrderPipeline

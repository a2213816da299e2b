import OrderPipeline.JsonRoundTrip
import OrderPipeline.RoundedAggregator
import OrderPipeline.Summary

/-!
# The snapshot of the aggregator

`OrderAggregator.snapshot`.  The snapshot is a dict of dicts with all numbers rounded to
two digits.

It is serialisable: JSON gives it back as it is.  And rounding, to binary64 in every
update and to two digits in the end, does not spoil it: each average is between its
minimum and its maximum (`snapshot_reports`).
-/

namespace OrderPipeline

open PyFloat

/-- `round(x, 2)` of a float: the float nearest to the rounded value. -/
def roundFloat2 : PyFloat → PyFloat
  | .finite q => ofDecimal (round2 q)
  | x => x

/-- A statistic with all its numbers rounded. -/
def Stat.round2 (s : Stat) : Stat where
  count := s.count
  total := roundFloat2 s.total
  average := roundFloat2 s.average
  minimum := s.minimum.map roundFloat2
  maximum := s.maximum.map roundFloat2

/-- A float, or `None`. -/
def floatOrNone : Option PyFloat → PyJson.Value
  | some x => .float x
  | none => .none

/-- A dict with string keys. -/
def stringDict (entries : List (String × PyJson.Value)) : PyJson.Value :=
  .dict (entries.map fun entry => (PyStr.ofString entry.1, entry.2))

/-- `as_dict`. -/
def Stat.asDict (s : Stat) : PyJson.Value :=
  stringDict [("count", .int s.round2.count), ("total", .float s.round2.total),
    ("average", .float s.round2.average), ("min", floatOrNone s.round2.minimum),
    ("max", floatOrNone s.round2.maximum)]

namespace OrderAggregator

/-- `snapshot`. -/
def snapshot (a : OrderAggregator) : PyJson.Value :=
  stringDict [("overall", a.overall.asDict),
    ("per_product",
      stringDict (a.products.map fun product => (product, (a.productStat product).asDict)))]

end OrderAggregator

/-! ## JSON -/

/-- A rounded number is stored as a float again, so it is on the grid of binary64. -/
theorem isBinary64_roundFloat2 {x : PyFloat} {q : ℚ} (h : roundFloat2 x = .finite q) :
    IsBinary64 q := by
  cases x with
  | finite p => exact isBinary64_of_ofDecimal h
  | _ => cases h

/-- A number of the snapshot is a float that JSON gives back. -/
theorem loaded_float (x : PyFloat) : PyJson.Loaded (.float (roundFloat2 x)) :=
  .float fun _ hq => isBinary64_roundFloat2 hq

/-- A minimum or a maximum of the snapshot: such a float, or None as long as there is no
sale. -/
theorem loaded_floatOrNone (x : Option PyFloat) :
    PyJson.Loaded (floatOrNone (x.map roundFloat2)) := by
  cases x with
  | none => exact .none
  | some x => exact loaded_float x

/-- A dict with different string keys comes back from JSON when its values do. -/
theorem stringDict_loaded {entries : List (String × PyJson.Value)}
    (hkeys : (entries.map Prod.fst).Nodup) (h : ∀ entry ∈ entries, PyJson.Loaded entry.2) :
    PyJson.Loaded (stringDict entries) := by
  refine .dict ?_ ?_ ?_
  · have hmap := hkeys.map PyStr.ofString_injective
    rwa [List.map_map] at hmap ⊢
  · intro entry hentry
    obtain ⟨origin, -, rfl⟩ := List.mem_map.mp hentry
    exact reread_ofString origin.1
  · intro entry hentry
    obtain ⟨origin, horigin, rfl⟩ := List.mem_map.mp hentry
    exact h origin horigin

/-- The dict of one statistic is one that JSON gives back, if its count has few enough
digits to be read. -/
theorem Stat.asDict_loaded {s : Stat} (h : s.count < 10 ^ PyJson.maxStrDigits) :
    PyJson.Loaded s.asDict := by
  refine stringDict_loaded (by simp) ?_
  simp only [List.forall_mem_cons]
  exact ⟨.int h, loaded_float _, loaded_float _, loaded_floatOrNone _, loaded_floatOrNone _,
    List.forall_mem_nil _⟩

/-- JSON gives a snapshot back as it is: its keys are strings and sorted, its numbers
floats or counts with few digits. -/
theorem OrderAggregator.snapshot_loaded {a : OrderAggregator}
    (hoverall : a.overall.count < 10 ^ PyJson.maxStrDigits)
    (hproducts : ∀ product, (a.productStat product).count < 10 ^ PyJson.maxStrDigits) :
    PyJson.Loaded a.snapshot := by
  have hinner : PyJson.Loaded (stringDict
      (a.products.map fun product => (product, (a.productStat product).asDict))) := by
    refine stringDict_loaded ?_ ?_
    · rw [List.map_map]
      have hnodup : a.products.Nodup := Finset.sort_nodup _ _
      simpa [Function.comp_def] using hnodup
    · intro entry hentry
      obtain ⟨product, -, rfl⟩ := List.mem_map.mp hentry
      exact Stat.asDict_loaded (hproducts product)
  refine stringDict_loaded (by simp) ?_
  simp only [List.forall_mem_cons]
  exact ⟨Stat.asDict_loaded hoverall, hinner, List.forall_mem_nil _⟩

/-! ## Rounding to two digits -/

/-- Rounding to two digits keeps the order, which is why the average stays between its
bounds. -/
theorem round2_mono {x y : ℚ} (h : x ≤ y) : round2 x ≤ round2 y := by
  have hround : roundHalfEven (x * 100) ≤ roundHalfEven (y * 100) :=
    roundHalfEven_mono (by linarith)
  unfold round2
  have hcast : (roundHalfEven (x * 100) : ℚ) ≤ roundHalfEven (y * 100) := by exact_mod_cast hround
  linarith

/-- Integers have no digits to round. -/
theorem round2_intCast (n : ℤ) : round2 n = n := by
  have hround : roundHalfEven ((n : ℚ) * 100) = n * 100 := by
    have hcast : ((n * 100 : ℤ) : ℚ) = n * 100 := by push_cast; ring
    rw [← hcast]
    exact le_antisymm (roundHalfEven_le le_rfl) (le_roundHalfEven le_rfl)
  unfold round2
  rw [hround]
  push_cast
  ring

/-- Within the range rounding gives a float, in the order of the numbers. -/
theorem roundFloat2_finite {q : ℚ} {n : ℕ} (h : |q| ≤ 2 ^ n) (hn : n < 1024) :
    roundFloat2 (.finite q) = .finite (binary64.fl (round2 q)) := by
  have hpower : ((2 ^ n : ℤ) : ℚ) = 2 ^ n := by push_cast; rfl
  obtain ⟨hlow, hhigh⟩ := abs_le.mp h
  have hbound : |round2 q| ≤ 2 ^ n := by
    rw [abs_le, ← hpower]
    constructor
    · rw [← Int.cast_neg, ← round2_intCast]
      apply round2_mono
      push_cast
      linarith
    · rw [← round2_intCast (2 ^ n)]
      apply round2_mono
      rw [hpower]
      exact hhigh
  exact (ofDecimal_of_le hbound hn).1

/-- The extremes of a stream are among its values. -/
theorem extremes_mem {prices : List ℚ} {lo hi : ℚ}
    (hlo : (Stat.ofRunning (binary64.stream prices)).minimum = some (.finite lo))
    (hhi : (Stat.ofRunning (binary64.stream prices)).maximum = some (.finite hi)) :
    lo ∈ prices ∧ hi ∈ prices := by
  obtain ⟨-, hminimum, hmaximum⟩ := Rounding.stream_exact (R := binary64) prices
  obtain ⟨x, hx, hlo⟩ := Option.map_eq_some_iff.mp hlo
  obtain ⟨y, hy, hhi⟩ := Option.map_eq_some_iff.mp hhi
  cases hlo
  cases hhi
  rw [hminimum] at hx
  rw [hmaximum] at hy
  exact ⟨List.min?_mem hx, List.max?_mem hy⟩

/-- Rounded to two digits the rounded statistics of binary32 prices are healthy, for
rounding keeps the order of minimum, mean and maximum. -/
theorem Stat.healthy_round2 {prices : List ℚ} (h : ∀ x ∈ prices, IsBinary32 x) :
    (Stat.ofRunning (binary64.stream prices)).round2.Healthy := by
  intro hpos
  obtain ⟨total, average, lo, hi, htotal, haverage, hlo, hhi, hlow, hhigh⟩ :=
    Stat.healthy_stream h hpos
  obtain ⟨hloMem, hhiMem⟩ := extremes_mem hlo hhi
  have htotalLe : |total| ≤ 2 ^ 182 := by
    rw [← PyFloat.finite.inj htotal]
    exact total_le h
  have haverageLe : |average| ≤ 2 ^ 128 := by
    rw [← PyFloat.finite.inj haverage]
    exact average_le h
  refine ⟨binary64.fl (OrderPipeline.round2 total), _, _, _, ?_, ?_, ?_, ?_,
    binary64.mono (round2_mono hlow), binary64.mono (round2_mono hhigh)⟩
  · rw [Stat.round2, htotal]
    exact roundFloat2_finite htotalLe (by norm_num)
  · rw [Stat.round2, haverage]
    exact roundFloat2_finite haverageLe (by norm_num)
  · rw [Stat.round2, hlo, Option.map_some,
      roundFloat2_finite (h lo hloMem).abs_le (by norm_num)]
  · rw [Stat.round2, hhi, Option.map_some,
      roundFloat2_finite (h hi hhiMem).abs_le (by norm_num)]

/-! ## The snapshot -/

/-- The products of the aggregator are those that have been sold. -/
theorem OrderAggregator.mem_products_rounded {sales : List (String × PyFloat)}
    {product : String} :
    product ∈ (({} : OrderAggregator).addAllRounded sales).products ↔
      ∃ sale ∈ sales, sale.1 = product := by
  rw [mem_products, ← Finmap.lookup_isSome, (addAllRounded_eq sales).2 product, roundedEntry]
  by_cases hnone : floatPricesOf product sales = []
  · simp only [hnone, if_true, Option.isSome_none, Bool.false_eq_true, false_iff]
    rintro ⟨sale, hsale, rfl⟩
    simp only [floatPricesOf, List.map_eq_nil_iff, List.filter_eq_nil_iff] at hnone
    exact hnone sale hsale (by simp)
  · simp only [hnone, if_false, Option.isSome_some, true_iff]
    obtain ⟨price, hprice⟩ := List.exists_mem_of_ne_nil _ hnone
    obtain ⟨sale, hsale, -⟩ := List.mem_map.mp hprice
    obtain ⟨hmem, hsame⟩ := List.mem_filter.mp hsale
    exact ⟨sale, hmem, by simpa using hsame⟩

/-- The statistics of a product are those of its own prices, rounded at every update. -/
theorem OrderAggregator.productStat_rounded (sales : List (String × PyFloat))
    (product : String) :
    (({} : OrderAggregator).addAllRounded sales).productStat product =
      Stat.roundedAll (floatPricesOf product sales) := by
  rw [productStat, (addAllRounded_eq sales).2 product, roundedEntry]
  split
  · next hnone => rw [hnone]; rfl
  · rfl

/-- **The snapshot reports the sales.**  After any number of sales at binary32 prices, the
special ones among them, which Python can print, JSON gives the snapshot back as it is; its
products are those that have been sold, ascending; and when all prices are finite every
average in it is between its minimum and its maximum, all rounded to two digits. -/
theorem snapshot_reports {sales : List (String × PyFloat)}
    (hprices : ∀ sale ∈ sales, ∀ q, sale.2 = .finite q → IsBinary32 q)
    (hlength : sales.length < 10 ^ PyJson.maxStrDigits) :
    let a := ({} : OrderAggregator).addAllRounded sales
    (∃ text, Json.dumps (Json.toPy a.snapshot) = .ok text ∧
      PyJson.loads text = some a.snapshot) ∧
    (a.products.Pairwise (· < ·) ∧
      ∀ product, product ∈ a.products ↔ ∃ sale ∈ sales, sale.1 = product) ∧
    ((∀ sale ∈ sales, ∃ q, sale.2 = .finite q) →
      a.overall.round2.Healthy ∧ ∀ product, (a.productStat product).round2.Healthy) := by
  intro a
  have hoverall : a.overall = Stat.roundedAll (sales.map Prod.snd) :=
    (OrderAggregator.addAllRounded_eq sales).1
  have hproduct := OrderAggregator.productStat_rounded sales
  refine ⟨Json.loads_dumps_toPy (OrderAggregator.snapshot_loaded ?_ ?_), ⟨?_, ?_⟩, ?_⟩
  · rw [hoverall, Stat.roundedAll_count, List.length_map]
    exact hlength
  · intro product
    rw [hproduct, Stat.roundedAll_count, floatPricesOf, List.length_map]
    exact (List.length_filter_le _ _).trans_lt hlength
  · exact (Finset.sortedLT_sort _).pairwise
  · intro product
    exact OrderAggregator.mem_products_rounded
  · intro hfinite
    have hsales := binary32_finiteSales hprices hfinite
    have hmap := map_finiteSales hfinite
    refine ⟨?_, fun product => ?_⟩
    · have hall : sales.map Prod.snd = ((finiteSales sales).map Prod.snd).map .finite := by
        conv_lhs => rw [← hmap]
        simp [finiteSale]
      have hbinary : ∀ x ∈ (finiteSales sales).map Prod.snd, IsBinary32 x := by
        intro x hx
        obtain ⟨sale, hsale, rfl⟩ := List.mem_map.mp hx
        exact hsales sale hsale
      rw [hoverall, hall, Stat.roundedAll_finite hbinary]
      exact Stat.healthy_round2 hbinary
    · have hbinary : ∀ x ∈ pricesOf product (finiteSales sales), IsBinary32 x := by
        intro x hx
        obtain ⟨sale, hsale, rfl⟩ := mem_pricesOf hx
        exact hsales sale hsale
      rw [hproduct, ← hmap, floatPricesOf_finite, Stat.roundedAll_finite hbinary]
      exact Stat.healthy_round2 hbinary

/-- The snapshot after three sales. -/
theorem snapshot_reports_threeSales :
    let a := ({} : OrderAggregator).addAllRounded (threeSales.map finiteSale)
    (∃ text, Json.dumps (Json.toPy a.snapshot) = .ok text ∧
      PyJson.loads text = some a.snapshot) ∧
    a.overall.round2.Healthy ∧ ∀ product, (a.productStat product).round2.Healthy := by
  intro a
  have hfinite : ∀ sale ∈ threeSales.map finiteSale, ∃ q, sale.2 = .finite q := by
    intro sale hsale
    obtain ⟨origin, -, rfl⟩ := List.mem_map.mp hsale
    exact ⟨origin.2, rfl⟩
  have hlength : (threeSales.map finiteSale).length < 10 ^ PyJson.maxStrDigits :=
    (by decide : 3 < 10 ^ 1).trans_le (Nat.pow_le_pow_right (by decide) (by decide))
  obtain ⟨hjson, -, hhealthy⟩ := snapshot_reports threeSales_binary32 hlength
  exact ⟨hjson, hhealthy hfinite⟩

end OrderPipeline

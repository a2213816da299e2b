import Mathlib.Data.Finmap
import OrderPipeline.Foundation.PyFloat
import OrderPipeline.Foundation.RunningMean

/-!
# The order aggregator

`consumer/aggregator.py`.  `Stat` is `_Stat`, and `per_product` is a finite map
from product names to statistics.

On finite prices a `Stat` is the image of the streaming statistics of
`RunningMean` (`Stat.ofRunning`), and that image is kept by `update`.  So after
finite prices an aggregator holds the batch statistics of all prices and of the
prices of each product (`OrderAggregator.addAll_finite`), whatever their order,
and every call of `add` has returned the mean so far
(`OrderAggregator.incremental_eq_batch`).
-/

namespace OrderPipeline

/-- `_Stat`. -/
structure Stat where
  count : ℕ := 0
  total : PyFloat := .finite 0
  average : PyFloat := .finite 0
  minimum : Option PyFloat := none
  maximum : Option PyFloat := none
  deriving DecidableEq

/-- `_Stat.update`. -/
def Stat.update (s : Stat) (price : PyFloat) : Stat :=
  let count := s.count + 1
  { count := count
    total := s.total.add price
    average := s.average.add ((price.sub s.average).divNat count)
    minimum := some (match s.minimum with
      | none => price
      | some m => m.min price)
    maximum := some (match s.maximum with
      | none => price
      | some m => m.max price) }

/-- `OrderAggregator`. -/
@[ext]
structure OrderAggregator where
  overall : Stat := {}
  perProduct : Finmap (fun _ : String => Stat) := ∅

namespace OrderAggregator

/-- The statistics of a product, fresh when it has not been seen. -/
def productStat (a : OrderAggregator) (product : String) : Stat :=
  (a.perProduct.lookup product).getD {}

/-- `add`: the new state and the running average it returns. -/
def add (a : OrderAggregator) (product : String) (price : PyFloat) :
    OrderAggregator × PyFloat :=
  let overall := a.overall.update price
  ({ overall := overall
     perProduct :=
       a.perProduct.insert product ((a.productStat product).update price) },
    overall.average)

/-- `count`. -/
def count (a : OrderAggregator) : ℕ := a.overall.count

@[simp] theorem add_overall (a : OrderAggregator) (product : String) (price : PyFloat) :
    (a.add product price).1.overall = a.overall.update price := rfl

@[simp] theorem add_lookup_self (a : OrderAggregator) (product : String) (price : PyFloat) :
    (a.add product price).1.perProduct.lookup product =
      some ((a.productStat product).update price) :=
  Finmap.lookup_insert _

/-- `add` leaves the statistics of every other product as they are. -/
theorem add_lookup_of_ne (a : OrderAggregator) {product q : String} (price : PyFloat)
    (h : q ≠ product) :
    (a.add product price).1.perProduct.lookup q = a.perProduct.lookup q :=
  Finmap.lookup_insert_of_ne _ h

/-- Add a list of sales, oldest first, in exact arithmetic. -/
def addAll (a : OrderAggregator) (sales : List (String × PyFloat)) : OrderAggregator :=
  sales.foldl (fun a sale => (a.add sale.1 sale.2).1) a

/-- Two batches of sales, one after the other, are their concatenation in one go. -/
theorem addAll_append (a : OrderAggregator) (xs ys : List (String × PyFloat)) :
    a.addAll (xs ++ ys) = (a.addAll xs).addAll ys := List.foldl_append

@[simp] theorem addAll_nil (a : OrderAggregator) : a.addAll [] = a := rfl

@[simp] theorem addAll_singleton (a : OrderAggregator) (sale : String × PyFloat) :
    a.addAll [sale] = (a.add sale.1 sale.2).1 := rfl

/-- The aggregator counts what has been added. -/
theorem count_addAll (a : OrderAggregator) (sales : List (String × PyFloat)) :
    (a.addAll sales).count = a.count + sales.length := by
  induction sales generalizing a with
  | nil => rfl
  | cons sale sales ih =>
      have hstep : (a.add sale.1 sale.2).1.count = a.count + 1 := rfl
      show ((a.add sale.1 sale.2).1.addAll sales).count = _
      rw [ih, hstep, List.length_cons]
      omega

/-- The running averages that the calls of `add` return. -/
def returned : OrderAggregator → List (String × PyFloat) → List PyFloat
  | _, [] => []
  | a, sale :: sales =>
    (a.add sale.1 sale.2).2 :: returned (a.add sale.1 sale.2).1 sales

/-- The returned means of two batches: the second starts from where the first left the
aggregator. -/
theorem returned_append (a : OrderAggregator) (xs ys : List (String × PyFloat)) :
    a.returned (xs ++ ys) = a.returned xs ++ (a.addAll xs).returned ys := by
  induction xs generalizing a with
  | nil => rfl
  | cons x xs ih =>
      show _ :: (a.add x.1 x.2).1.returned (xs ++ ys) = _
      rw [ih]
      rfl

end OrderAggregator

/-! ## Finite prices -/

/-- Exact streaming statistics, read as a `Stat`. -/
def Stat.ofRunning (r : Running ℚ) : Stat where
  count := r.count
  total := .finite r.total
  average := .finite r.average
  minimum := r.minimum.map .finite
  maximum := r.maximum.map .finite

@[simp] theorem Stat.ofRunning_empty : Stat.ofRunning Running.empty = {} := rfl

/-- On finite prices `_Stat.update` is the exact streaming update. -/
theorem Stat.update_ofRunning (r : Running ℚ) (x : ℚ) :
    (Stat.ofRunning r).update (.finite x) = Stat.ofRunning (r.update x) := by
  have hminimum : (match r.minimum.map PyFloat.finite with
      | none => PyFloat.finite x
      | some m => m.min (.finite x)) = .finite (r.minimum.elim x (· ⊓ x)) := by
    cases r.minimum <;> simp
  have hmaximum : (match r.maximum.map PyFloat.finite with
      | none => PyFloat.finite x
      | some m => m.max (.finite x)) = .finite (r.maximum.elim x (· ⊔ x)) := by
    cases r.maximum <;> simp
  simp only [Stat.update, Stat.ofRunning, Running.update, hminimum, hmaximum,
    PyFloat.add_finite, PyFloat.sub_finite, PyFloat.divNat_finite, Option.map_some]

/-- A sale at a finite price. -/
def finiteSale (sale : String × ℚ) : String × PyFloat := (sale.1, .finite sale.2)

/-- The prices of one product among the sales. -/
def pricesOf (product : String) (sales : List (String × ℚ)) : List ℚ :=
  (sales.filter (fun sale => sale.1 = product)).map Prod.snd

/-- The entry of a product: none unless it has been sold. -/
def batchEntry (product : String) (sales : List (String × ℚ)) : Option Stat :=
  if pricesOf product sales = [] then none
  else some (Stat.ofRunning (Running.batch (pricesOf product sales)))

/-- **Streaming equals batch**, for the whole aggregator: after finite prices
it holds the batch statistics of all of them, and for each product those of
its own prices. -/
theorem OrderAggregator.addAll_finite (sales : List (String × ℚ)) :
    (({} : OrderAggregator).addAll (sales.map finiteSale)).overall =
        Stat.ofRunning (Running.batch (sales.map Prod.snd)) ∧
      ∀ product,
        (({} : OrderAggregator).addAll (sales.map finiteSale)).perProduct.lookup product =
          batchEntry product sales := by
  induction sales using List.reverseRecOn with
  | nil =>
      refine ⟨?_, fun product => ?_⟩
      · simp [← Running.foldl_update]
      · simp [batchEntry, pricesOf]
  | append_singleton sales sale ih =>
      obtain ⟨hoverall, hproducts⟩ := ih
      obtain ⟨product, price⟩ := sale
      rw [List.map_append, OrderAggregator.addAll_append]
      simp only [List.map_cons, List.map_nil, finiteSale, OrderAggregator.addAll_singleton]
      refine ⟨?_, fun q => ?_⟩
      · rw [OrderAggregator.add_overall, hoverall, Stat.update_ofRunning,
          Running.update_batch, List.map_append]
        rfl
      · by_cases hq : q = product
        · subst q
          have hstat : (({} : OrderAggregator).addAll (sales.map finiteSale)).productStat
              product = Stat.ofRunning (Running.batch (pricesOf product sales)) := by
            rw [OrderAggregator.productStat, hproducts product, batchEntry]
            split
            · next hnil => simp [hnil, ← Running.foldl_update]
            · rfl
          have hprices : pricesOf product (sales ++ [(product, price)]) =
              pricesOf product sales ++ [price] := by
            simp [pricesOf]
          rw [OrderAggregator.add_lookup_self, hstat, Stat.update_ofRunning,
            Running.update_batch, batchEntry, hprices, if_neg (by simp)]
        · have hprices : pricesOf q (sales ++ [(product, price)]) = pricesOf q sales := by
            simp [pricesOf, Ne.symm hq]
          rw [OrderAggregator.add_lookup_of_ne _ _ hq, hproducts q, batchEntry,
            batchEntry, hprices]

/-- The statistics of a list of prices, computed from the whole of it. -/
def Stat.batch (prices : List ℚ) : Stat where
  count := prices.length
  total := .finite prices.sum
  average := .finite (if prices = [] then 0 else prices.sum / prices.length)
  minimum := prices.min?.map .finite
  maximum := prices.max?.map .finite

/-- The batch statistics of the prices are the batch statistics of the running mean,
read as a `Stat`. -/
theorem Stat.ofRunning_batch (prices : List ℚ) :
    Stat.ofRunning (Running.batch prices) = Stat.batch prices := by
  have haverage : prices.sum / (prices.length : ℚ) =
      if prices = [] then 0 else prices.sum / prices.length := by
    split
    · next hnil => simp [hnil]
    · rfl
  unfold Stat.ofRunning Running.batch Stat.batch
  rw [← haverage]

/-- A product has no prices exactly if it is not among the sales; this is how the keys
of the dict are told from the products without an entry. -/
theorem pricesOf_eq_nil_iff {product : String} {sales : List (String × ℚ)} :
    pricesOf product sales = [] ↔ product ∉ sales.map Prod.fst := by
  unfold pricesOf
  rw [List.map_eq_nil_iff, List.filter_eq_nil_iff, List.mem_map]
  constructor
  · rintro hnone ⟨sale, hsale, rfl⟩
    exact hnone sale hsale (by simp)
  · intro hnone sale hsale hproduct
    exact hnone ⟨sale, hsale, by simpa using hproduct⟩

/-- Every call of `add` returns the mean of the prices up to its own, over all products.
By induction from the end: the last call returns the average it stores. -/
theorem OrderAggregator.returned_finite (sales : List (String × ℚ)) :
    ({} : OrderAggregator).returned (sales.map finiteSale) =
      (List.range sales.length).map fun i =>
        .finite (((sales.map Prod.snd).take (i + 1)).sum / ((i + 1 : ℕ) : ℚ)) := by
  induction sales using List.reverseRecOn with
  | nil => rfl
  | append_singleton sales sale ih =>
      have hlast : (({} : OrderAggregator).addAll (sales.map finiteSale)).returned
          [finiteSale sale] =
            [.finite (((sales ++ [sale]).map Prod.snd).sum / ((sales.length + 1 : ℕ) : ℚ))] := by
        have hoverall := (OrderAggregator.addAll_finite (sales ++ [sale])).1
        rw [List.map_append, OrderAggregator.addAll_append] at hoverall
        have haverage := congrArg Stat.average hoverall
        simp only [Stat.ofRunning, Running.batch, List.length_map, List.length_append,
          List.length_singleton] at haverage
        exact congrArg (fun average => [average]) haverage
      have hall : ((sales ++ [sale]).map Prod.snd).take (sales.length + 1) =
          (sales ++ [sale]).map Prod.snd := by
        apply List.take_of_length_le
        simp
      have hearlier : ∀ i ∈ List.range sales.length,
          ((sales ++ [sale]).map Prod.snd).take (i + 1) =
            (sales.map Prod.snd).take (i + 1) := by
        intro i hi
        rw [List.map_append]
        apply List.take_append_of_le_length
        rw [List.length_map]
        exact List.mem_range.mp hi
      rw [List.map_append, OrderAggregator.returned_append, ih, List.map_singleton, hlast,
        List.length_append, List.length_singleton, List.range_succ]
      refine Eq.trans ?_ List.map_append.symm
      rw [List.map_singleton, hall]
      congr 1
      apply List.map_congr_left
      intro i hi
      rw [hearlier i hi]

/-- The aggregator after finite sales. -/
def OrderAggregator.afterSales (sales : List (String × ℚ)) : OrderAggregator :=
  ({} : OrderAggregator).addAll (sales.map finiteSale)

/-- **Incremental equals batch.**  After any sequence of finite sales the
aggregator holds the statistics of all prices, for each product that occurs and
for no other one those of its prices, and each `add` has returned the mean of the
prices up to its own. -/
theorem OrderAggregator.incremental_eq_batch (sales : List (String × ℚ)) :
    (OrderAggregator.afterSales sales).overall = Stat.batch (sales.map Prod.snd) ∧
      (∀ product, product ∈ (OrderAggregator.afterSales sales).perProduct ↔
        product ∈ sales.map Prod.fst) ∧
      (∀ product ∈ sales.map Prod.fst,
        (OrderAggregator.afterSales sales).perProduct.lookup product =
          some (Stat.batch (pricesOf product sales))) ∧
      ({} : OrderAggregator).returned (sales.map finiteSale) =
        (List.range sales.length).map fun i =>
          .finite (((sales.map Prod.snd).take (i + 1)).sum / ((i + 1 : ℕ) : ℚ)) := by
  obtain ⟨hoverall, hproducts⟩ := OrderAggregator.addAll_finite sales
  change ∀ product, (OrderAggregator.afterSales sales).perProduct.lookup product = _
    at hproducts
  have hentry : ∀ product ∈ sales.map Prod.fst,
      (OrderAggregator.afterSales sales).perProduct.lookup product =
        some (Stat.batch (pricesOf product sales)) := by
    intro product hproduct
    have hsold : pricesOf product sales ≠ [] := fun hnil =>
      pricesOf_eq_nil_iff.mp hnil hproduct
    rw [hproducts product, batchEntry, if_neg hsold, Stat.ofRunning_batch]
  refine ⟨hoverall.trans (Stat.ofRunning_batch _), ?_, hentry,
    OrderAggregator.returned_finite sales⟩
  intro product
  constructor
  · intro hmem
    by_contra hproduct
    have hnone := hproducts product
    rw [batchEntry, if_pos (pricesOf_eq_nil_iff.mpr hproduct)] at hnone
    exact Finmap.lookup_eq_none.mp hnone hmem
  · intro hproduct
    exact Finmap.mem_of_lookup_eq_some (hentry product hproduct)

/-- The order of finite sales does not matter, for sums, counts and extremes of
rationals do not depend on it. -/
theorem OrderAggregator.addAll_perm {xs ys : List (String × ℚ)} (h : xs.Perm ys) :
    ({} : OrderAggregator).addAll (xs.map finiteSale) =
      ({} : OrderAggregator).addAll (ys.map finiteSale) := by
  obtain ⟨hx, hxs⟩ := OrderAggregator.addAll_finite xs
  obtain ⟨hy, hys⟩ := OrderAggregator.addAll_finite ys
  apply OrderAggregator.ext
  · rw [hx, hy, Running.batch_perm (h.map Prod.snd)]
  · apply Finmap.ext_lookup
    intro product
    have hprices : (pricesOf product xs).Perm (pricesOf product ys) :=
      (h.filter _).map Prod.snd
    rw [hxs, hys, batchEntry, batchEntry, Running.batch_perm hprices]
    by_cases hnil : pricesOf product xs = []
    · rw [hnil] at hprices
      rw [if_pos hnil, if_pos (List.nil_perm.mp hprices)]
    · have hnil' : pricesOf product ys ≠ [] := by
        intro hys'
        rw [hys'] at hprices
        exact hnil (List.perm_nil.mp hprices)
      rw [if_neg hnil, if_neg hnil']

/-- The finite sales among a list of sales. -/
def finiteSales (sales : List (String × PyFloat)) : List (String × ℚ) :=
  sales.filterMap fun sale =>
    match sale.2 with
    | .finite q => some (sale.1, q)
    | _ => none

/-- Sales whose prices are all finite come back from their rational form unchanged. -/
theorem map_finiteSales {sales : List (String × PyFloat)}
    (h : ∀ sale ∈ sales, ∃ q, sale.2 = .finite q) :
    (finiteSales sales).map finiteSale = sales := by
  induction sales with
  | nil => rfl
  | cons sale sales ih =>
      obtain ⟨product, price⟩ := sale
      obtain ⟨q, rfl⟩ : ∃ q, price = .finite q := h (product, price) (by simp)
      have hrest := ih fun s hs => h s (by simp [hs])
      simpa [finiteSales, finiteSale] using hrest

/-- The order of sales at finite prices does not matter. -/
theorem OrderAggregator.addAll_perm_of_finite {xs ys : List (String × PyFloat)}
    (h : xs.Perm ys) (hfinite : ∀ sale ∈ xs, ∃ q, sale.2 = .finite q) :
    ({} : OrderAggregator).addAll xs = ({} : OrderAggregator).addAll ys := by
  have hfinite' : ∀ sale ∈ ys, ∃ q, sale.2 = .finite q :=
    fun sale hsale => hfinite sale (h.mem_iff.mpr hsale)
  rw [← map_finiteSales hfinite, ← map_finiteSales hfinite']
  exact OrderAggregator.addAll_perm (h.filterMap _)

end OrderPipeline

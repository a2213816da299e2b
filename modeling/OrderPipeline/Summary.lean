import Mathlib.Data.Finset.Sort
import Mathlib.Data.String.Basic
import OrderPipeline.Aggregator
import OrderPipeline.Failures
import OrderPipeline.Foundation.RaisingLoop

/-!
# The summary table

`OrderAggregator.format_summary`: a row for every product, sorted, and the row
ALL.  A row formats the minimum and the maximum as floats, so it raises
`TypeError` for a statistic that has none.

What is returned is such a table (`formatSummary_rendered`), and something is
returned exactly when every statistic that is formatted has its extremes
(`formatSummary_returns_iff`); otherwise `TypeError` is raised
(`formatSummary_raises_iff`).
-/

namespace OrderPipeline

/-- `f"{s:<n}"`. -/
def ljust (n : ℕ) (s : String) : String := s ++ String.ofList (List.replicate (n - s.length) ' ')

/-- `f"{s:>n}"`. -/
def rjust (n : ℕ) (s : String) : String := String.ofList (List.replicate (n - s.length) ' ') ++ s

/-- A line across the table. -/
def divider (c : Char) : String := String.ofList (List.replicate 62 c)

/-- Formatting `None` with a `.2f` specification. -/
def noneFormatError : Exn :=
  Exn.ofText "TypeError" [] "unsupported format string passed to NoneType.__format__"

/-- The columns of a line of the table. -/
def columns (product count total average minimum maximum : String) : String :=
  ljust 12 product ++ rjust 7 count ++ rjust 12 total ++ rjust 11 average ++
    rjust 10 minimum ++ rjust 10 maximum

/-- The line of a statistic with its extremes. -/
def Stat.line (s : Stat) (label : String) (minimum maximum : PyFloat) : String :=
  columns label (toString s.count) s.total.fixed2 s.average.fixed2 minimum.fixed2
    maximum.fixed2

/-- A row of the table. -/
def Stat.row (s : Stat) (label : String) : Except Exn String :=
  match s.minimum, s.maximum with
  | some minimum, some maximum => .ok (s.line label minimum maximum)
  | _, _ => .error noneFormatError

/-- The lines above the rows. -/
def summaryHead : List String :=
  ["", divider '=', "FINAL AGGREGATE SUMMARY", divider '=',
    columns "PRODUCT" "COUNT" "TOTAL" "AVERAGE" "MIN" "MAX", divider '-']

/-- The row ALL of an empty aggregator. -/
def noOrdersRow : String := ljust 12 "ALL" ++ rjust 7 "0" ++ rjust 43 "  (no orders processed)"

namespace OrderAggregator

/-- The products in the order of their rows. -/
def products (a : OrderAggregator) : List String := a.perProduct.keys.sort (· ≤ ·)

/-- The rows of the products. -/
def rows (a : OrderAggregator) : Except Exn (List String) :=
  a.products.mapM fun product => (a.productStat product).row product

/-- The row ALL. -/
def allRow (a : OrderAggregator) : Except Exn String :=
  if a.overall.count ≠ 0 then a.overall.row "ALL" else .ok noOrdersRow

/-- `format_summary`. -/
def formatSummary (a : OrderAggregator) : Except Exn String := do
  let rows ← a.rows
  let all ← a.allRow
  .ok ("\n".intercalate (summaryHead ++ rows ++ [divider '-', all, divider '=']))

end OrderAggregator

/-- The row of a statistic that has its extremes. -/
def Stat.IsRow (s : Stat) (label row : String) : Prop :=
  ∃ minimum maximum, s.minimum = some minimum ∧ s.maximum = some maximum ∧
    row = s.line label minimum maximum

/-- The table: one row for each product, ascending, and the row ALL. -/
def OrderAggregator.Rendered (a : OrderAggregator) (text : String) : Prop :=
  ∃ products rows all, products.Pairwise (· < ·) ∧
    (∀ product, product ∈ products ↔ product ∈ a.perProduct) ∧
    List.Forall₂ (fun product row => ∃ s, a.perProduct.lookup product = some s ∧
      s.IsRow product row) products rows ∧
    (a.overall.count ≠ 0 ∧ a.overall.IsRow "ALL" all ∨
      a.overall.count = 0 ∧ all = noOrdersRow) ∧
    text = "\n".intercalate (summaryHead ++ rows ++ [divider '-', all, divider '='])

/-- A statistic has its minimum and its maximum. -/
def Stat.HasExtremes (s : Stat) : Prop := s.minimum.isSome ∧ s.maximum.isSome

/-- Every statistic that the table formats has its extremes. -/
def OrderAggregator.Printable (a : OrderAggregator) : Prop :=
  (a.overall.count ≠ 0 → a.overall.HasExtremes) ∧
    ∀ product s, a.perProduct.lookup product = some s → s.HasExtremes

/-! ## One row -/

/-- A row is printed exactly if the statistics have both extremes, and it is the row of
these. -/
theorem Stat.row_ok_iff {s : Stat} {label row : String} :
    s.row label = .ok row ↔ s.IsRow label row := by
  unfold Stat.row Stat.IsRow
  cases hminimum : s.minimum with
  | none => simp
  | some minimum =>
      cases hmaximum : s.maximum with
      | none => simp
      | some maximum =>
          constructor
          · intro h
            exact ⟨minimum, maximum, rfl, rfl, (Except.ok.inj h).symm⟩
          · intro h
            obtain ⟨minimum', maximum', hmin, hmax, hrow⟩ := h
            cases hmin
            cases hmax
            rw [hrow]

/-- The only thing that goes wrong is a None where a number is formatted. -/
theorem Stat.row_error {s : Stat} {label : String} {exc : Exn} (h : s.row label = .error exc) :
    exc = noneFormatError := by
  unfold Stat.row at h
  cases hminimum : s.minimum with
  | none =>
      rw [hminimum] at h
      exact (Except.error.inj h).symm
  | some minimum =>
      rw [hminimum] at h
      cases hmaximum : s.maximum with
      | none =>
          rw [hmaximum] at h
          exact (Except.error.inj h).symm
      | some maximum =>
          rw [hmaximum] at h
          cases h

/-- There is a row exactly if both extremes are numbers. -/
theorem Stat.exists_isRow_iff {s : Stat} {label : String} :
    (∃ row, s.IsRow label row) ↔ s.HasExtremes := by
  unfold Stat.IsRow Stat.HasExtremes
  rw [Option.isSome_iff_exists, Option.isSome_iff_exists]
  constructor
  · intro h
    obtain ⟨_, minimum, maximum, hminimum, hmaximum, -⟩ := h
    exact ⟨⟨minimum, hminimum⟩, ⟨maximum, hmaximum⟩⟩
  · intro h
    obtain ⟨⟨minimum, hminimum⟩, ⟨maximum, hmaximum⟩⟩ := h
    exact ⟨_, minimum, maximum, hminimum, hmaximum, rfl⟩

/-- A row is returned exactly for a statistic that has its extremes. -/
theorem Stat.row_returns_iff {s : Stat} {label : String} :
    (∃ row, s.row label = .ok row) ↔ s.HasExtremes := by
  simp only [Stat.row_ok_iff, Stat.exists_isRow_iff]

/-! ## The table -/

namespace OrderAggregator

variable {a : OrderAggregator}

/-- The products with a row are those with an entry. -/
theorem mem_products {product : String} : product ∈ a.products ↔ product ∈ a.perProduct := by
  rw [products, Finset.mem_sort, Finmap.mem_keys]

/-- The statistics of a product that has an entry are that entry. -/
theorem productStat_of_lookup {product : String} {s : Stat}
    (h : a.perProduct.lookup product = some s) : a.productStat product = s := by
  rw [productStat, h]
  rfl

/-- And every product with a row has one. -/
theorem lookup_of_mem_products {product : String} (h : product ∈ a.products) :
    a.perProduct.lookup product = some (a.productStat product) := by
  obtain ⟨s, hs⟩ := Finmap.mem_iff.mp (mem_products.mp h)
  rw [hs, productStat_of_lookup hs]

/-- The rows of the products are returned when each of them has its extremes. -/
theorem rows_returns_iff : (∃ rows, a.rows = .ok rows) ↔
    ∀ product s, a.perProduct.lookup product = some s → s.HasExtremes := by
  rw [rows, RaisingLoop.mapM_returns_iff]
  simp only [Stat.row_returns_iff]
  constructor
  · intro h product s hs
    have hextremes := h product (mem_products.mpr (Finmap.mem_of_lookup_eq_some hs))
    rw [productStat_of_lookup hs] at hextremes
    exact hextremes
  · intro h product hproduct
    exact h product _ (lookup_of_mem_products hproduct)

/-- The row ALL is that of the overall statistics; without any order it is a fixed text. -/
theorem allRow_ok_iff {all : String} :
    a.allRow = .ok all ↔ a.overall.count ≠ 0 ∧ a.overall.IsRow "ALL" all ∨
      a.overall.count = 0 ∧ all = noOrdersRow := by
  unfold allRow
  by_cases hcount : a.overall.count = 0
  · rw [if_neg (not_not.mpr hcount)]
    simp [hcount, eq_comm]
  · rw [if_pos hcount, Stat.row_ok_iff]
    simp [hcount]

/-- The row ALL needs the extremes only if something has been counted. -/
theorem allRow_returns_iff : (∃ all, a.allRow = .ok all) ↔
    (a.overall.count ≠ 0 → a.overall.HasExtremes) := by
  unfold allRow
  by_cases hcount : a.overall.count = 0
  · rw [if_neg (not_not.mpr hcount)]
    exact iff_of_true ⟨_, rfl⟩ (absurd hcount)
  · rw [if_pos hcount, Stat.row_returns_iff]
    exact ⟨fun hextremes _ => hextremes, fun h => h hcount⟩

/-- The row ALL fails for the same reason as any other. -/
theorem allRow_error {exc : Exn} (h : a.allRow = .error exc) : exc = noneFormatError := by
  unfold allRow at h
  by_cases hcount : a.overall.count = 0
  · rw [if_neg (not_not.mpr hcount)] at h
    cases h
  · rw [if_pos hcount] at h
    exact Stat.row_error h

/-- `format_summary` returns the lines put together when all its rows return: those of
the products and the row ALL. -/
theorem formatSummary_ok_iff {text : String} :
    a.formatSummary = .ok text ↔ ∃ rows all, a.rows = .ok rows ∧ a.allRow = .ok all ∧
      text = "\n".intercalate (summaryHead ++ rows ++ [divider '-', all, divider '=']) := by
  unfold formatSummary
  constructor
  · intro h
    cases hrows : a.rows with
    | error exc =>
        rw [hrows] at h
        cases h
    | ok rows =>
        rw [hrows] at h
        cases hall : a.allRow with
        | error exc =>
            rw [hall] at h
            cases h
        | ok all =>
            rw [hall] at h
            cases h
            exact ⟨rows, all, rfl, rfl, rfl⟩
  · intro h
    obtain ⟨rows, all, hrows, hall, rfl⟩ := h
    rw [hrows, hall]
    rfl

/-- What `format_summary` returns is the table. -/
theorem formatSummary_rendered {text : String} (h : a.formatSummary = .ok text) :
    a.Rendered text := by
  obtain ⟨rows, all, hrows, hall, htext⟩ := formatSummary_ok_iff.mp h
  have hmem : List.Forall₂ (fun product row => product ∈ a.products ∧
      (a.productStat product).row product = .ok row) a.products rows :=
    (List.forall₂_and_left _ _).mpr ⟨fun _ => id, RaisingLoop.mapM_ok_iff.mp hrows⟩
  refine ⟨a.products, rows, all, (Finset.sortedLT_sort _).pairwise, fun _ => mem_products,
    ?_, allRow_ok_iff.mp hall, htext⟩
  refine List.Forall₂.imp ?_ hmem
  intro product row h
  exact ⟨_, lookup_of_mem_products h.1, Stat.row_ok_iff.mp h.2⟩

/-- `format_summary` returns exactly when every statistic it formats has its
extremes. -/
theorem formatSummary_returns_iff : (∃ text, a.formatSummary = .ok text) ↔ a.Printable := by
  rw [Printable, ← allRow_returns_iff, ← rows_returns_iff]
  constructor
  · intro h
    obtain ⟨text, htext⟩ := h
    obtain ⟨rows, all, hrows, hall, -⟩ := formatSummary_ok_iff.mp htext
    exact ⟨⟨all, hall⟩, rows, hrows⟩
  · intro h
    obtain ⟨⟨all, hall⟩, rows, hrows⟩ := h
    exact ⟨_, formatSummary_ok_iff.mpr ⟨rows, all, hrows, hall, rfl⟩⟩

/-- What `format_summary` raises is the `TypeError` of a missing extreme, from whichever
row has it. -/
theorem formatSummary_error {exc : Exn} (h : a.formatSummary = .error exc) :
    exc = noneFormatError := by
  unfold formatSummary at h
  cases hrows : a.rows with
  | error e =>
      rw [hrows] at h
      cases h
      obtain ⟨product, -, hrow⟩ := RaisingLoop.mapM_error hrows
      exact Stat.row_error hrow
  | ok rows =>
      rw [hrows] at h
      cases hall : a.allRow with
      | error e =>
          rw [hall] at h
          cases h
          exact allRow_error hall
      | ok all =>
          rw [hall] at h
          cases h

/-- `format_summary` raises exactly when a statistic it formats lacks an extreme. -/
theorem formatSummary_raises_iff :
    a.formatSummary = .error noneFormatError ↔ ¬a.Printable := by
  rw [← formatSummary_returns_iff]
  cases h : a.formatSummary with
  | error exc =>
      rw [formatSummary_error h]
      simp
  | ok text => simp

end OrderAggregator

end OrderPipeline

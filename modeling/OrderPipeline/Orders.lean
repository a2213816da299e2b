import OrderPipeline.Records

/-!
# Order generation

`producer/orders.py`.  The random generator is a stream of draws: for each
order the value of `random()`, the index that `choice` picks and the `random()`
value inside `uniform`.
-/

namespace OrderPipeline

/-- `PRODUCT_POOL`. -/
def productPool : List String := ["Item1", "Item2", "Item3", "Item4", "Item5"]

/-- `POISON_PRODUCT`: permanent failure. -/
def poisonProduct : String := "POISON"

/-- `FLAKY_PRODUCT`: transient failure. -/
def flakyProduct : String := "FLAKY"

def firstOrderId : ℤ := 1001

def minPrice : ℚ := 5

def maxPrice : ℚ := 500

/-- A value of `random.random()`.  The right end is included: a rounded `uniform`
can return its upper bound. -/
structure Draw where
  val : ℚ
  nonneg : 0 ≤ val
  le_one : val ≤ 1

/-- A draw in the middle of the range. -/
def Draw.half : Draw := ⟨1 / 2, by decide +kernel, by decide +kernel⟩

/-- The draws spent on one order. -/
structure OrderDraws where
  random : Draw
  choice : Fin 5
  uniform : Draw

/-- Python's `round(x, 2)`. -/
def round2 (x : ℚ) : ℚ := PyFloat.roundHalfEven (x * 100) / 100

/-- `make_order`. -/
def makeOrder (orderId : ℤ) (product : String) (rng : OrderDraws) : AvroOrder where
  orderId := toString orderId
  product := product
  price := .finite (round2 (minPrice + (maxPrice - minPrice) * rng.uniform.val))

/-- The product that one draw decides on. -/
def chooseProduct (poisonRate flakyRate : ℚ) (rng : OrderDraws) : String :=
  if rng.random.val < poisonRate then poisonProduct
  else if rng.random.val < poisonRate + flakyRate then flakyProduct
  else productPool.getD rng.choice ""

/-- `generate_orders`: the orders it yields, in order. -/
def generateOrders (count : ℤ) (poisonRate flakyRate : ℚ)
    (draws : ℕ → OrderDraws) (startId : ℤ) : List AvroOrder :=
  (List.range count.toNat).map fun (offset : ℕ) =>
    makeOrder (startId + offset) (chooseProduct poisonRate flakyRate (draws offset))
      (draws offset)

end OrderPipeline

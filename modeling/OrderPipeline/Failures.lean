import Mathlib.Data.Finmap
import OrderPipeline.Foundation.PyText
import OrderPipeline.Orders

/-!
# Exceptions and the failure simulator

`consumer/failures.py`.  An exception is its class and its text, where a class
is its name and those of the base classes the pipeline asks for that it
inherits from.  So an `isinstance` test is a membership test, and a class from
anywhere can be described.
-/

namespace OrderPipeline

/-- The classes that the code tests for. -/
inductive ExnBase
  | transientError
  | permanentError
  | timeoutError
  | connectionError
  | kafkaException
  deriving DecidableEq

structure ExnClass where
  name : PyStr
  bases : List ExnBase
  deriving DecidableEq

/-- A raised `Exception`. -/
structure Exn where
  cls : ExnClass
  text : PyStr
  deriving DecidableEq

/-- `isinstance(exc, base)`. -/
def Exn.isInstance (exc : Exn) (base : ExnBase) : Bool := base ∈ exc.cls.bases

/-- An exception whose class name and text are plain text. -/
def Exn.ofText (name : String) (bases : List ExnBase) (text : String) : Exn :=
  ⟨⟨PyStr.ofString name, bases⟩, PyStr.ofString text⟩

def transientError : String → Exn := Exn.ofText "TransientError" [.transientError]

def permanentError : String → Exn := Exn.ofText "PermanentError" [.permanentError]

def overflowError : Exn :=
  Exn.ofText "OverflowError" [] "(34, 'Numerical result out of range')"

/-- `FailureSimulator`: the threshold and the attempts counted per order id. -/
structure FailureSimulator where
  flakyAttemptsNeeded : ℤ := 2
  attempts : Finmap (fun _ : String => ℕ) := ∅

namespace FailureSimulator

/-- The attempts seen so far for an order id. -/
def seen (sim : FailureSimulator) (orderId : String) : ℕ :=
  (sim.attempts.lookup orderId).getD 0

/-- The key under which the attempts of an order are counted. -/
def keyOf (order : Order) : String := order.orderId.getD "<unknown>"

def poisonError : Exn :=
  permanentError ("business rule violation: product '" ++ poisonProduct ++
    "' is not sellable")

def flakyError (seen : ℕ) (flakyAttemptsNeeded : ℤ) : Exn :=
  transientError ("simulated downstream timeout (attempt " ++ toString seen ++
    " of " ++ toString (flakyAttemptsNeeded + 1) ++ " before recovery)")

/-- `process`: the simulated side effect. -/
def process (order : Order) (sim : FailureSimulator) :
    Except Exn Unit × FailureSimulator :=
  if order.product = some poisonProduct then
    (.error poisonError, sim)
  else if order.product = some flakyProduct then
    let seen := sim.seen (keyOf order) + 1
    let sim' := { sim with attempts := sim.attempts.insert (keyOf order) seen }
    if (seen : ℤ) ≤ sim.flakyAttemptsNeeded then
      (.error (flakyError seen sim.flakyAttemptsNeeded), sim')
    else (.ok (), sim')
  else (.ok (), sim)

/-- Another attempt of a FLAKY order has been counted. -/
def count (sim : FailureSimulator) (orderId : String) (n : ℕ) : FailureSimulator :=
  { sim with attempts := sim.attempts.insert orderId (sim.seen orderId + n) }

@[simp] theorem count_flakyAttemptsNeeded (sim : FailureSimulator) (id : String) (n : ℕ) :
    (sim.count id n).flakyAttemptsNeeded = sim.flakyAttemptsNeeded := rfl

@[simp] theorem seen_count_self (sim : FailureSimulator) (id : String) (n : ℕ) :
    (sim.count id n).seen id = sim.seen id + n := by
  simp [seen, count]

/-- Counting an attempt of one order leaves the counts of the other orders alone. -/
theorem seen_count_of_ne (sim : FailureSimulator) {id id' : String} (n : ℕ)
    (h : id' ≠ id) : (sim.count id n).seen id' = sim.seen id' := by
  simp [seen, count, Finmap.lookup_insert_of_ne _ h]

/-- Counting twice is counting the sum. -/
theorem count_count (sim : FailureSimulator) (id : String) (m n : ℕ) :
    (sim.count id m).count id n = sim.count id (m + n) := by
  have hseen := seen_count_self sim id m
  simp only [count] at hseen ⊢
  rw [hseen, Finmap.insert_insert, Nat.add_assoc]

/-- A poison order fails at every attempt, with the same error, and is not counted. -/
theorem process_poison {order : Order} (h : order.product = some poisonProduct)
    (sim : FailureSimulator) : process order sim = (.error poisonError, sim) := by
  simp [process, h]

/-- A flaky order is counted first and then compared: it fails while its count, the
attempt at hand included, is within the threshold. -/
theorem process_flaky {order : Order} (h : order.product = some flakyProduct)
    (sim : FailureSimulator) :
    process order sim =
      (if ((sim.seen (keyOf order) + 1 : ℕ) : ℤ) ≤ sim.flakyAttemptsNeeded then
          .error (flakyError (sim.seen (keyOf order) + 1) sim.flakyAttemptsNeeded)
        else .ok (),
        sim.count (keyOf order) 1) := by
  have hne : flakyProduct ≠ poisonProduct := by decide
  unfold process count
  rw [h]
  simp only [Option.some.injEq, hne, if_false, if_true]
  split <;> rfl

/-- Any other product succeeds at once and leaves the simulator as it was. -/
theorem process_other {order : Order} (hpoison : order.product ≠ some poisonProduct)
    (hflaky : order.product ≠ some flakyProduct) (sim : FailureSimulator) :
    process order sim = (.ok (), sim) := by
  simp [process, hpoison, hflaky]

end FailureSimulator

end OrderPipeline

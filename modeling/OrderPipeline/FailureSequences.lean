import OrderPipeline.Failures
import OrderPipeline.Foundation.Interleaving

/-!
# Failure sequences

What a sequence of `FailureSimulator.process` calls answers.  The simulator
counts the FLAKY calls of every order id (`seen_after`), so a call is answered
from the FLAKY calls with its own id before it, and the calls with other ids can
be deleted from the sequence.
-/

namespace OrderPipeline

namespace FailureSimulator

/-- The simulator after a sequence of calls. -/
def after (orders : List Order) (sim : FailureSimulator) : FailureSimulator :=
  orders.foldl (fun sim order => (process order sim).2) sim

/-- The calls of a sequence, each with what it returns or raises. -/
def processAll : List Order → FailureSimulator → List (Order × Except Exn Unit)
  | [], _ => []
  | order :: orders, sim =>
    (order, (process order sim).1) :: processAll orders (process order sim).2

/-- The FLAKY calls with an order id. -/
def flakyCalls (orders : List Order) (orderId : String) : ℕ :=
  orders.countP fun order =>
    decide (order.product = some flakyProduct) && decide (keyOf order = orderId)

/-- What a call is to answer after the calls `before` it. -/
structure Answers (flakyAttemptsNeeded : ℤ) (before : List Order) (order : Order)
    (result : Except Exn Unit) : Prop where
  permanent : (∃ text, result = .error (permanentError text)) ↔
    order.product = some poisonProduct
  transient : (∃ text, result = .error (transientError text)) ↔
    order.product = some flakyProduct ∧
      (flakyCalls before (keyOf order) : ℤ) < flakyAttemptsNeeded
  returns : result = .ok () ↔ order.product ≠ some poisonProduct ∧
    ¬(order.product = some flakyProduct ∧
      (flakyCalls before (keyOf order) : ℤ) < flakyAttemptsNeeded)

/-! ## One call -/

/-- The two kinds of error are told apart by their class, never by their text. -/
theorem transientError_ne_permanentError (text text' : String) :
    transientError text ≠ permanentError text' := by
  intro h
  have hbases : [ExnBase.transientError] = [ExnBase.permanentError] :=
    congrArg (fun exc : Exn => exc.cls.bases) h
  exact absurd hbases (by decide)

/-- The threshold stays as it is. -/
theorem process_flakyAttemptsNeeded (order : Order) (sim : FailureSimulator) :
    (process order sim).2.flakyAttemptsNeeded = sim.flakyAttemptsNeeded := by
  by_cases hpoison : order.product = some poisonProduct
  · rw [process_poison hpoison]
  by_cases hflaky : order.product = some flakyProduct
  · rw [process_flaky hflaky]
    rfl
  · rw [process_other hpoison hflaky]

/-- A call adds itself to the count of its id if it is FLAKY. -/
theorem seen_process (order : Order) (sim : FailureSimulator) (orderId : String) :
    (process order sim).2.seen orderId = sim.seen orderId + flakyCalls [order] orderId := by
  have hne : some poisonProduct ≠ some flakyProduct := by decide
  by_cases hpoison : order.product = some poisonProduct
  · rw [process_poison hpoison]
    simp [flakyCalls, hpoison, hne]
  by_cases hflaky : order.product = some flakyProduct
  · rw [process_flaky hflaky]
    by_cases hkey : keyOf order = orderId
    · subst hkey
      rw [seen_count_self]
      simp [flakyCalls, hflaky]
    · rw [seen_count_of_ne sim 1 (Ne.symm hkey)]
      simp [flakyCalls, hkey]
  · rw [process_other hpoison hflaky]
    simp [flakyCalls, hflaky]

/-- A call whose count is that of the calls before it answers as it should.  The three
products are the three cases, and none of them is another. -/
theorem answers_process {sim : FailureSimulator} {before : List Order} (order : Order)
    (hseen : sim.seen (keyOf order) = flakyCalls before (keyOf order)) :
    Answers sim.flakyAttemptsNeeded before order (process order sim).1 := by
  have hne : some flakyProduct ≠ some poisonProduct := by decide
  by_cases hpoison : order.product = some poisonProduct
  · have hnotFlaky : order.product ≠ some flakyProduct := by
      rw [hpoison]
      exact hne.symm
    rw [process_poison hpoison]
    refine ⟨iff_of_true ⟨_, rfl⟩ hpoison, iff_of_false ?_ (fun h => hnotFlaky h.1),
      iff_of_false (by simp) (fun h => h.1 hpoison)⟩
    intro htransient
    obtain ⟨text, h⟩ := htransient
    exact transientError_ne_permanentError _ _ (Except.error.inj h).symm
  by_cases hflaky : order.product = some flakyProduct
  · rw [process_flaky hflaky, hseen]
    by_cases hfew : (flakyCalls before (keyOf order) : ℤ) < sim.flakyAttemptsNeeded
    · have hle : ((flakyCalls before (keyOf order) + 1 : ℕ) : ℤ) ≤
          sim.flakyAttemptsNeeded := by
        push_cast
        omega
      rw [if_pos hle]
      refine ⟨iff_of_false ?_ hpoison, iff_of_true ⟨_, rfl⟩ ⟨hflaky, hfew⟩,
        iff_of_false (by simp) (fun h => h.2 ⟨hflaky, hfew⟩)⟩
      intro hpermanent
      obtain ⟨text, h⟩ := hpermanent
      exact transientError_ne_permanentError _ _ (Except.error.inj h)
    · have hnle : ¬((flakyCalls before (keyOf order) + 1 : ℕ) : ℤ) ≤
          sim.flakyAttemptsNeeded := by
        push_cast
        omega
      rw [if_neg hnle]
      exact ⟨iff_of_false (by simp) hpoison, iff_of_false (by simp) (fun h => hfew h.2),
        iff_of_true rfl ⟨hpoison, fun h => hfew h.2⟩⟩
  · rw [process_other hpoison hflaky]
    exact ⟨iff_of_false (by simp) hpoison, iff_of_false (by simp) (fun h => hflaky h.1),
      iff_of_true rfl ⟨hpoison, fun h => hflaky h.1⟩⟩

/-! ## A sequence of calls -/

/-- No sequence of calls changes the threshold; only the counts move. -/
theorem after_flakyAttemptsNeeded (orders : List Order) (sim : FailureSimulator) :
    (after orders sim).flakyAttemptsNeeded = sim.flakyAttemptsNeeded := by
  induction orders generalizing sim with
  | nil => rfl
  | cons order orders ih => exact (ih _).trans (process_flakyAttemptsNeeded order sim)

/-- The simulator counts the FLAKY calls of every id. -/
theorem seen_after (orders : List Order) (sim : FailureSimulator) (orderId : String) :
    (after orders sim).seen orderId = sim.seen orderId + flakyCalls orders orderId := by
  induction orders generalizing sim with
  | nil => rfl
  | cons order orders ih =>
      have hcount : flakyCalls (order :: orders) orderId =
          flakyCalls [order] orderId + flakyCalls orders orderId := by
        rw [← List.singleton_append]
        exact List.countP_append
      have hrest := ih (process order sim).2
      rw [seen_process] at hrest
      rw [hcount, ← Nat.add_assoc]
      exact hrest

/-- A call is answered by the simulator as the calls before it have left it. -/
theorem processAll_getElem? (orders : List Order) (sim : FailureSimulator) (i : ℕ) :
    (processAll orders sim)[i]? =
      orders[i]?.map fun order => (order, (process order (after (orders.take i) sim)).1) := by
  induction orders generalizing sim i with
  | nil => rfl
  | cons order orders ih =>
      cases i with
      | zero => rfl
      | succ i => exact ih (process order sim).2 i

/-- A call as an item of the trace: its answer and the next count of its id. -/
def answer (flakyAttemptsNeeded : ℤ) (order : Order) (seen : ℕ) : Except Exn Unit × ℕ :=
  let alone := process order
    ((⟨flakyAttemptsNeeded, ∅⟩ : FailureSimulator).count (keyOf order) seen)
  (alone.1, seen + flakyCalls [order] (keyOf order))

/-- The answer depends on the threshold and the count of the id alone. -/
theorem process_fst_eq {sim sim' : FailureSimulator} {order : Order}
    (hneeded : sim.flakyAttemptsNeeded = sim'.flakyAttemptsNeeded)
    (hseen : sim.seen (keyOf order) = sim'.seen (keyOf order)) :
    (process order sim).1 = (process order sim').1 := by
  by_cases hpoison : order.product = some poisonProduct
  · rw [process_poison hpoison, process_poison hpoison]
  by_cases hflaky : order.product = some flakyProduct
  · rw [process_flaky hflaky, process_flaky hflaky, hneeded, hseen]
  · rw [process_other hpoison hflaky, process_other hpoison hflaky]

/-- The calls are a machine that keeps one count for each id, so a call depends on the
calls with its id alone. -/
theorem processAll_eq_trace (orders : List Order) (sim : FailureSimulator) :
    processAll orders sim =
      Interleaving.trace keyOf (answer sim.flakyAttemptsNeeded) sim.seen orders := by
  induction orders generalizing sim with
  | nil => rfl
  | cons order orders ih =>
      have hseen : (process order sim).2.seen =
          Function.update sim.seen (keyOf order)
            (answer sim.flakyAttemptsNeeded order (sim.seen (keyOf order))).2 := by
        funext orderId
        by_cases hkey : orderId = keyOf order
        · rw [hkey, Function.update_self, seen_process]
          rfl
        · rw [Function.update_of_ne hkey, seen_process]
          simp [flakyCalls, Ne.symm hkey]
      have hanswer : (process order sim).1 =
          (answer sim.flakyAttemptsNeeded order (sim.seen (keyOf order))).1 := by
        refine process_fst_eq rfl ?_
        rw [seen_count_self]
        exact (Nat.zero_add _).symm
      rw [processAll, Interleaving.trace, ih, process_flakyAttemptsNeeded, hseen, hanswer]

/-- **Independent sequences.**  From a fresh simulator every call answers from
the FLAKY calls with its id before it, and deleting the calls with other ids
leaves the answers as they are. -/
theorem failure_sequences_independent (flakyAttemptsNeeded : ℤ) (orders : List Order) :
    let sim : FailureSimulator := { flakyAttemptsNeeded := flakyAttemptsNeeded }
    (processAll orders sim).map Prod.fst = orders ∧
      (∀ i order, orders[i]? = some order →
        ∃ result, (processAll orders sim)[i]? = some (order, result) ∧
          Answers flakyAttemptsNeeded (orders.take i) order result) ∧
      ∀ orderId, (processAll orders sim).filter (fun call => keyOf call.1 = orderId) =
        processAll (orders.filter fun order => keyOf order = orderId) sim := by
  intro sim
  refine ⟨?_, ?_, ?_⟩
  · apply List.ext_getElem?
    intro i
    rw [List.getElem?_map, processAll_getElem?, Option.map_map]
    exact Option.map_id'
  · intro i order horder
    refine ⟨(process order (after (orders.take i) sim)).1, ?_, ?_⟩
    · rw [processAll_getElem?, horder]
      rfl
    · have hseen : (after (orders.take i) sim).seen (keyOf order) =
          flakyCalls (orders.take i) (keyOf order) := by
        rw [seen_after]
        exact Nat.zero_add _
      have hanswers := answers_process order hseen
      rw [after_flakyAttemptsNeeded] at hanswers
      exact hanswers
  · intro orderId
    rw [processAll_eq_trace, processAll_eq_trace]
    refine Interleaving.trace_filter (fun order => decide (keyOf order = orderId)) _ ?_
    intro x _ y _ hkey
    simp only [hkey]

/-- Two FLAKY orders that take turns: each fails once, then the first recovers. -/
example :
    let x : Order := ⟨some "X", some flakyProduct, none⟩
    let y : Order := ⟨some "Y", some flakyProduct, none⟩
    (processAll [x, y, x] { flakyAttemptsNeeded := 1 }).map (fun call => call.2.toBool) =
      [false, false, true] := by
  decide

end FailureSimulator

end OrderPipeline

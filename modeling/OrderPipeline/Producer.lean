import OrderPipeline.Failures
import OrderPipeline.Foundation.Delivery
import OrderPipeline.Foundation.Runs

/-!
# The producer and its exit status

`main` of `producer/producer.py` in small steps: the loop over the orders, the
`finally` block with its `flush`, and the delivery reports, which may come between any
two statements.  `delivery_report` only logs, and `main` returns 1 exactly when `flush`
leaves messages queued.

So a message that is given up leaves no trace in the exit status.
`producer_truthful_iff` says what a return of 0 is worth: every order queued has been
acknowledged exactly when no report gave one up.
-/

namespace OrderPipeline

namespace Producer

open Runs

/-! ## The orders -/

/-- The options of `parse_args` that decide which orders are sent. -/
structure Args where
  count : ℤ := 100
  poisonRate : PyFloat := .finite (1 / 10)
  flakyRate : PyFloat := .finite 0
  product : Option String := none
  startId : ℤ := firstOrderId

/-- `0.0 <= rate <= 1.0`. -/
def rateOk (rate : PyFloat) : Bool := (PyFloat.finite 0).le rate && rate.le (.finite 1)

/-- The orders that the loop goes over; `none` if a rate is refused. -/
def Args.orders (args : Args) (draws : ℕ → OrderDraws) : Option (List AvroOrder) :=
  if rateOk args.poisonRate && rateOk args.flakyRate then
    match args.product, args.poisonRate, args.flakyRate with
    | some product, _, _ =>
      some ((List.range args.count.toNat).map fun (i : ℕ) =>
        makeOrder (args.startId + i) product (draws i))
    | none, .finite poisonRate, .finite flakyRate =>
      some (generateOrders args.count poisonRate flakyRate draws args.startId)
    | none, _, _ => none
  else none

/-! ## The steps -/

/-- Where `main` stands: before the next order, between `produce` and `sent += 1`, in
the `finally` block with the exception that led there, or after it.  An exception that
leaves `main` has no status. -/
inductive Pc
  | loop (rest : List AvroOrder)
  | queued (order : AvroOrder) (rest : List AvroOrder)
  | closing (exc : Option Exn)
  | exited (status : Option ℤ)

/-- The producer program: where it stands, its counter, the orders handed to the client,
and what has become of them. -/
structure State where
  pc : Pc
  sent : ℕ := 0
  handed : List AvroOrder := []
  delivery : Delivery AvroOrder := Delivery.empty

/-- Before the first order; refused rates end `main` with 2. -/
def start : Option (List AvroOrder) → State
  | none => { pc := .exited (some 2) }
  | some orders => { pc := .loop orders }

/-- The steps of the producer program, with what the outside contributes to them. -/
inductive Label
  | produce
  | count
  | finish
  | raised (exc : Exn)
  | raisedBeforeCount (exc : Exn)
  | interrupt
  | interruptBeforeCount
  | flush
  | flushInterrupted
  | report (i : ℕ) (r : Report)

/-- What `main` returns after `flush`: the `return 1` in the `finally` block replaces
an exception that is under way. -/
def statusAfter (remaining : ℕ) (exc : Option Exn) : Option ℤ :=
  if remaining ≠ 0 then some 1
  else
    match exc with
    | none => some 0
    | some _ => none

/-- `main` of the producer, statement by statement; a delivery report may come at any
time before the end. -/
inductive Step : State → Label → State → Prop
  | produce {s : State} {order : AvroOrder} {rest : List AvroOrder}
      (hpc : s.pc = .loop (order :: rest)) :
      Step s .produce
        { s with
          pc := .queued order rest
          handed := s.handed ++ [order]
          delivery := s.delivery.produce order }
  | count {s : State} {order : AvroOrder} {rest : List AvroOrder}
      (hpc : s.pc = .queued order rest) :
      Step s .count { s with pc := .loop rest, sent := s.sent + 1 }
  | finish {s : State} (hpc : s.pc = .loop []) : Step s .finish { s with pc := .closing none }
  | raised {s : State} {rest : List AvroOrder} (exc : Exn) (hpc : s.pc = .loop rest) :
      Step s (.raised exc) { s with pc := .closing (some exc) }
  | raisedBeforeCount {s : State} {order : AvroOrder} {rest : List AvroOrder} (exc : Exn)
      (hpc : s.pc = .queued order rest) :
      Step s (.raisedBeforeCount exc) { s with pc := .closing (some exc) }
  | interrupt {s : State} {rest : List AvroOrder} (hpc : s.pc = .loop rest) :
      Step s .interrupt { s with pc := .closing none }
  | interruptBeforeCount {s : State} {order : AvroOrder} {rest : List AvroOrder}
      (hpc : s.pc = .queued order rest) :
      Step s .interruptBeforeCount { s with pc := .closing none }
  | flush {s : State} {exc : Option Exn} (hpc : s.pc = .closing exc) :
      Step s .flush { s with pc := .exited (statusAfter s.delivery.queue.length exc) }
  | flushInterrupted {s : State} {exc : Option Exn} (hpc : s.pc = .closing exc) :
      Step s .flushInterrupted { s with pc := .exited none }
  | report {s : State} (i : ℕ) (r : Report) (hi : i < s.delivery.queue.length)
      (hpc : ∀ status, s.pc ≠ .exited status) :
      Step s (.report i r) { s with delivery := s.delivery.report i r }

/-! ## What a run leaves behind -/

/-- A delivery report with an error. -/
def Label.givesUp : Label → Bool
  | .report _ .givenUp => true
  | _ => false

/-- The loop is left between `produce` and `sent += 1`. -/
def Label.cutsShort : Label → Bool
  | .raisedBeforeCount _ => true
  | .interruptBeforeCount => true
  | _ => false

/-- The orders handed over that `sent` is about to count. -/
def Pc.uncounted : Pc → ℕ
  | .queued _ _ => 1
  | _ => 0

/-- The orders that the loop has not reached. -/
def Pc.rest? : Pc → Option (List AvroOrder)
  | .loop rest => some rest
  | .queued _ rest => some rest
  | _ => none

/-- The orders handed over and their count, after the events `ls` of a run that started
with `orders`. -/
structure Balanced (orders : List AvroOrder) (ls : List Label) (s : State) : Prop where
  handed : s.handed <+: orders
  rest : ∀ rest, s.pc.rest? = some rest → s.handed ++ rest = orders
  finished : .finish ∈ ls → s.pc.rest? = none ∧ s.handed = orders
  audit : s.delivery.Audit s.handed (∃ l ∈ ls, l.givesUp = true)
  counted : s.handed.length = s.sent + s.pc.uncounted + ls.countP Label.cutsShort
  returned : s.pc = .exited (some 0) → s.delivery.queue = []

/-- Leaving the loop or `main` changes no books. -/
theorem Balanced.moved {orders : List AvroOrder} {ls : List Label} {s : State} {l : Label}
    {pc : Pc} (h : Balanced orders ls s) (hrest : pc.rest? = none)
    (hfinish : l = .finish → s.handed = orders) (hgives : l.givesUp = false)
    (hcounted : s.pc.uncounted = pc.uncounted + if l.cutsShort then 1 else 0)
    (hreturned : pc = .exited (some 0) → s.delivery.queue = []) :
    Balanced orders (ls ++ [l]) { s with pc := pc } where
  handed := h.handed
  rest := by simp [hrest]
  finished := by
    intro hmem
    refine ⟨hrest, ?_⟩
    rcases List.mem_append.mp hmem with hbefore | hlast
    · exact (h.finished hbefore).2
    · exact hfinish (List.mem_singleton.mp hlast).symm
  audit := by
    have haudit := h.audit
    simpa [hgives] using haudit
  counted := by
    have hbefore := h.counted
    simp only [List.countP_append, List.countP_singleton]
    omega
  returned := hreturned

/-- **Step lemma.** The orders handed over are the first ones of the list, and each
report is counted once, as delivered or as failed. -/
theorem Balanced.step {orders : List AvroOrder} {ls : List Label} {s s' : State}
    {l : Label} (h : Balanced orders ls s) (hstep : Step s l s') :
    Balanced orders (ls ++ [l]) s' := by
  have hcounted := h.counted
  have hinLoop : ∀ rest, s.pc.rest? = some rest → .finish ∉ ls := by
    intro rest hrest hmem
    rw [(h.finished hmem).1] at hrest
    cases hrest
  cases hstep with
  | @produce order rest hpc =>
      have hrest : s.pc.rest? = some (order :: rest) := by simp [hpc, Pc.rest?]
      have hsplit : s.handed ++ [order] ++ rest = orders := by
        simpa using h.rest _ hrest
      refine ⟨⟨rest, hsplit⟩, ?_, ?_, ?_, ?_, by simp⟩
      · intro rest' hrest'
        cases hrest'
        exact hsplit
      · simp [hinLoop _ hrest]
      · have hproduce := h.audit.produce order
        simpa [Label.givesUp] using hproduce
      · simp only [hpc, Pc.uncounted, Label.cutsShort, List.length_append,
          List.length_singleton, List.countP_append, List.countP_singleton,
          Bool.false_eq_true, if_false] at hcounted ⊢
        omega
  | @count order rest hpc =>
      have hrest : s.pc.rest? = some rest := by simp [hpc, Pc.rest?]
      refine ⟨h.handed, ?_, ?_, ?_, ?_, by simp⟩
      · intro rest' hrest'
        cases hrest'
        exact h.rest rest hrest
      · simp [hinLoop _ hrest]
      · have haudit := h.audit
        simpa [Label.givesUp] using haudit
      · simp only [hpc, Pc.uncounted, Label.cutsShort, List.countP_append,
          List.countP_singleton, Bool.false_eq_true, if_false] at hcounted ⊢
        omega
  | finish hpc =>
      have hall : s.handed = orders := by simpa using h.rest [] (by simp [hpc, Pc.rest?])
      exact h.moved rfl (fun _ => hall) rfl (by simp [hpc, Pc.uncounted, Label.cutsShort])
        (by simp)
  | raised exc hpc =>
      exact h.moved rfl (by simp) rfl (by simp [hpc, Pc.uncounted, Label.cutsShort]) (by simp)
  | raisedBeforeCount exc hpc =>
      exact h.moved rfl (by simp) rfl (by simp [hpc, Pc.uncounted, Label.cutsShort]) (by simp)
  | interrupt hpc =>
      exact h.moved rfl (by simp) rfl (by simp [hpc, Pc.uncounted, Label.cutsShort]) (by simp)
  | interruptBeforeCount hpc =>
      exact h.moved rfl (by simp) rfl (by simp [hpc, Pc.uncounted, Label.cutsShort]) (by simp)
  | @flush exc hpc =>
      refine h.moved rfl (by simp) rfl (by simp [hpc, Pc.uncounted, Label.cutsShort]) ?_
      intro hstatus
      have hzero : statusAfter s.delivery.queue.length exc = some 0 := by simpa using hstatus
      unfold statusAfter at hzero
      by_cases hremaining : s.delivery.queue.length = 0
      · exact List.length_eq_zero_iff.mp hremaining
      · rw [if_pos hremaining] at hzero
        simp at hzero
  | flushInterrupted hpc =>
      exact h.moved rfl (by simp) rfl (by simp [hpc, Pc.uncounted, Label.cutsShort]) (by simp)
  | @report i r hi hpc =>
      refine ⟨h.handed, h.rest, ?_, ?_, ?_, fun hexited => absurd hexited (hpc _)⟩
      · simpa using h.finished
      · have hreport := h.audit.report hi r
        cases r with
        | acknowledged => simpa [Label.givesUp] using hreport
        | givenUp => simpa [Label.givesUp] using hreport
      · simpa [Label.cutsShort] using hcounted

/-- **Run lemma.** -/
theorem balanced_of_run {orders : List AvroOrder} {ls : List Label} {s : State}
    (hrun : Run Step (start (some orders)) ls s) : Balanced orders ls s := by
  refine hrun.trace_invariant (Balanced orders) ?_ (fun _ _ _ _ h hstep => h.step hstep)
  refine ⟨List.nil_prefix, ?_, by simp, ?_, rfl, fun hexited => by cases hexited⟩
  · intro rest hrest
    cases hrest
    rfl
  · simpa [start] using (Delivery.audit_empty (α := AvroOrder))

/-- What is queued is an initial part of the orders, and all of them if the loop has
come to its end. -/
theorem handed_of_run {orders : List AvroOrder} {ls : List Label} {s : State}
    (hrun : Run Step (start (some orders)) ls s) :
    s.handed <+: orders ∧ (.finish ∈ ls → s.handed = orders) := by
  have hbalanced := balanced_of_run hrun
  exact ⟨hbalanced.handed, fun hfinish => (hbalanced.finished hfinish).2⟩

/-- Refused rates end `main` before anything is sent. -/
theorem refused_of_run {ls : List Label} {s : State} (hrun : Run Step (start none) ls s) :
    s.pc = .exited (some 2) := by
  refine hrun.invariant (fun s => s.pc = .exited (some 2)) rfl ?_
  intro u l v hpc hstep
  cases hstep with
  | report i r hi hnot => exact absurd hpc (hnot _)
  | _ => simp_all

/-- **What a return of 0 is worth.**  In a run that ends with `main` returning 0:

* every order queued is acknowledged exactly when no report gave one up;
* that and `sent` being the number of the acknowledged orders hold exactly when,
  besides, the loop was not left between `produce` and `sent += 1`. -/
theorem producer_truthful_iff {orders : Option (List AvroOrder)} {ls : List Label}
    {s : State} (hrun : Run Step (start orders) ls s) (hpc : s.pc = .exited (some 0)) :
    (s.handed.Perm s.delivery.acked ↔ ∀ l ∈ ls, l.givesUp = false) ∧
    ((s.handed.Perm s.delivery.acked ∧ s.sent = s.delivery.acked.length) ↔
      (∀ l ∈ ls, l.givesUp = false) ∧ ∀ l ∈ ls, l.cutsShort = false) := by
  cases orders with
  | none =>
      have hrefused := refused_of_run hrun
      rw [hpc] at hrefused
      cases hrefused
  | some orders =>
      have hbalanced := balanced_of_run hrun
      have hacked : s.handed.Perm s.delivery.acked ↔ ∀ l ∈ ls, l.givesUp = false := by
        rw [hbalanced.audit.acked_perm_iff]
        simp [hbalanced.returned hpc]
      have hsent : s.sent = s.handed.length ↔ ∀ l ∈ ls, l.cutsShort = false := by
        have hcounted := hbalanced.counted
        have hzero : ls.countP Label.cutsShort = 0 ↔ ∀ l ∈ ls, l.cutsShort = false := by
          simp [List.countP_eq_zero]
        rw [← hzero, hcounted, hpc]
        simp only [Pc.uncounted]
        omega
      refine ⟨hacked, ?_⟩
      constructor
      · rintro ⟨hperm, hcount⟩
        exact ⟨hacked.mp hperm, hsent.mp (by rw [hcount, hperm.length_eq])⟩
      · rintro ⟨hreports, hcuts⟩
        have hperm := hacked.mpr hreports
        exact ⟨hperm, by rw [hsent.mpr hcuts, hperm.length_eq]⟩

/-! ## One order -/

/-- `--count 1 --product Item1`. -/
def oneOrder : Args where
  count := 1
  product := some "Item1"

def halfDraws : ℕ → OrderDraws := fun _ => ⟨Draw.half, ⟨0, Nat.zero_lt_succ 4⟩, Draw.half⟩

/-- One order, sent and reported before `flush`. -/
theorem one_order_run (report : Report) : ∃ (s : State) (order : AvroOrder),
    Run Step (start (oneOrder.orders halfDraws))
      [.produce, .count, .finish, .report 0 report, .flush] s ∧
    s.pc = .exited (some 0) ∧ s.sent = 1 ∧ s.handed = [order] ∧
    s.delivery = Delivery.empty.file order report := by
  have hrates : (rateOk oneOrder.poisonRate && rateOk oneOrder.flakyRate) = true := by
    decide +kernel
  obtain ⟨order, horders⟩ : ∃ order, oneOrder.orders halfDraws = some [order] := by
    refine ⟨makeOrder 1001 "Item1" (halfDraws 0), ?_⟩
    unfold Args.orders
    rw [if_pos hrates]
    rfl
  rw [horders]
  refine ⟨_, order, Run.cons (.produce rfl) <| Run.cons (.count rfl) <|
    Run.cons (.finish rfl) <| Run.cons (.report 0 report Nat.zero_lt_one (by simp)) <|
    Run.single (.flush rfl), ?_, rfl, rfl, rfl⟩
  cases report <;> rfl

/-- If the report gives the order up, `main` returns 0 and the order is lost. -/
theorem returns_zero_over_lost_order : ∃ s : State,
    Run Step (start (oneOrder.orders halfDraws))
      [.produce, .count, .finish, .report 0 .givenUp, .flush] s ∧
    s.pc = .exited (some 0) ∧ s.sent = 1 ∧ s.delivery.acked = [] ∧
    ¬s.handed.Perm s.delivery.acked := by
  obtain ⟨s, order, hrun, hpc, hsent, hhanded, hdelivery⟩ := one_order_run .givenUp
  have hacked : s.delivery.acked = [] := by
    rw [hdelivery]
    rfl
  refine ⟨s, hrun, hpc, hsent, hacked, ?_⟩
  rw [hhanded, hacked]
  simp

/-- If the report acknowledges it, the return of 0 is truthful. -/
theorem returns_zero_over_delivered_order : ∃ s : State,
    Run Step (start (oneOrder.orders halfDraws))
      [.produce, .count, .finish, .report 0 .acknowledged, .flush] s ∧
    s.pc = .exited (some 0) ∧ s.handed.Perm s.delivery.acked ∧
    s.sent = s.delivery.acked.length := by
  obtain ⟨s, order, hrun, hpc, -⟩ := one_order_run .acknowledged
  obtain ⟨-, hdelivered⟩ := producer_truthful_iff hrun hpc
  refine ⟨s, hrun, hpc, hdelivered.mpr ?_⟩
  simp [Label.givesUp, Label.cutsShort]

end Producer

end OrderPipeline

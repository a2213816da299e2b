import Mathlib.Data.List.Forall2
import OrderPipeline.Ledger

/-!
# What a DLQ record is evidence of

A record of the dead letter queue should stand for a failure that happened: the
unit of work was invoked, its last invocation raised, and the error headers name
the exception of that invocation.  With a budget of at least one attempt every
record of every run is such evidence.  Without a budget `execute` invokes nothing
and reports a failure without an error, and `main` publishes it all the same
(`evidence_iff_budget`).
-/

namespace OrderPipeline

variable {σ : Type}

/-- The last invocation of the handling raised, and the outcome and the error
headers of the record name its exception. -/
def Handling.EvidencedBy (h : Handling) (r : DlqRecord) : Prop :=
  ∃ exc cls text, (invocations h.calls).getLast? = some (.error exc) ∧
    h.outcome.classification = some (classify exc) ∧
    PyStr.encode exc.cls.name = some cls ∧
    PyStr.encode (exc.text.take 1000) = some text ∧
    r.headers.lookup hdrErrorClass = some cls ∧
    r.headers.lookup hdrErrorMessage = some text

/-- Every record handed to the producer is evidence of the failure it stands
for. -/
def EvidenceOnly (dlqTopic : String) (c : Consumer σ) : Prop :=
  List.Forall₂ (fun h r => h.PublishedAs dlqTopic r ∧ h.EvidencedBy r)
    ((failedOf c.handled).take c.dlq.sent.length) c.dlq.sent

/-- The error headers of a record are those of the outcome's error. -/
theorem Handling.PublishedAs.error_headers {dlqTopic : String} {h : Handling} {r : DlqRecord}
    (hpublished : h.PublishedAs dlqTopic r) :
    ∃ cls text, PyStr.encode (errorClassName h.outcome.error) = some cls ∧
      PyStr.encode ((errorText h.outcome.error).take 1000) = some text ∧
      r.headers.lookup hdrErrorClass = some cls ∧
      r.headers.lookup hdrErrorMessage = some text := by
  obtain ⟨failedAt, hrecord⟩ := hpublished
  obtain ⟨headers, value, hheaders, -, rfl⟩ := buildRecord_ok_iff.mp hrecord
  obtain ⟨cls, text, hcls, htext, rfl⟩ := buildHeaders_ok_iff.mp hheaders
  exact ⟨cls, text, hcls, htext, rfl, rfl⟩

/-- A failed outcome that concludes its invocations makes the record of its
handling evidence. -/
theorem Handling.PublishedAs.evidencedBy {dlqTopic : String} {policy : RetryPolicy}
    {h : Handling} {r : DlqRecord} (hpublished : h.PublishedAs dlqTopic r)
    (hconcludes : Concludes policy (invocations h.calls) h.outcome)
    (hfailed : h.outcome.succeeded = false) : h.EvidencedBy r := by
  rcases hconcludes with ⟨n, houtcome, -⟩ | ⟨exc, houtcome, hlast⟩
  · rw [houtcome] at hfailed
    cases hfailed
  · obtain ⟨cls, text, hcls, htext, hclassHeader, htextHeader⟩ :=
      hpublished.error_headers
    rw [houtcome] at hcls htext
    have hclassification : h.outcome.classification = some (classify exc) := by
      rw [houtcome]
      rfl
    exact ⟨exc, cls, text, hlast, hclassification, hcls, htext, hclassHeader, htextHeader⟩

/-- With a budget, every outcome in the log concludes its invocations: its error is the
one the last of them raised, and its attempts are counted from them. -/
theorem handled_concludes {setup : Setup σ} (hbudget : 1 ≤ setup.policy.maxAttempts)
    (effect : σ) (offsets : CommitLog.Offsets ℕ) (ticks : List Tick) :
    ∀ h ∈ (runLoop setup ticks (Consumer.fresh effect offsets)).state.handled,
      Concludes setup.policy (invocations h.calls) h.outcome := by
  refine runLoop_state
    (fun c => ∀ h ∈ c.handled, Concludes setup.policy (invocations h.calls) h.outcome)
    ?_ ticks ?_
  · intro tick c hc
    rcases iterate_handled setup tick c with hsame | ⟨m, order, outcome, -, -, hresult, hlog⟩
    · rw [hsame]
      exact hc
    · rw [hlog]
      intro h hmem
      rcases List.mem_append.mp hmem with hmem | hmem
      · exact hc h hmem
      · rw [List.mem_singleton.mp hmem]
        have houtcome := setup.policy.execute_outcome (process setup.sideEffect order)
          (c.receive m).drawn (c.receive m).work hresult
        rw [if_pos hbudget] at houtcome
        exact houtcome
  · intro h hmem
    cases hmem

/-- At the end of any run the records handed over are those of the oldest
failures. -/
theorem published_of_run (setup : Setup σ) (effect : σ) (offsets : CommitLog.Offsets ℕ)
    (ticks : List Tick) :
    FinalReport setup.dlqTopic
      (runLoop setup ticks (Consumer.fresh effect offsets)).state := by
  cases hrun : runLoop setup ticks (Consumer.fresh effect offsets) with
  | next c => exact (ledger_at_head hrun).toBooks.report
  | raised c exc => exact report_of_raised hrun

/-- With a budget, every record of every run is evidence. -/
theorem evidence_with_budget {setup : Setup σ} (hbudget : 1 ≤ setup.policy.maxAttempts)
    (effect : σ) (offsets : CommitLog.Offsets ℕ) (ticks : List Tick) :
    EvidenceOnly setup.dlqTopic
      (runLoop setup ticks (Consumer.fresh effect offsets)).state := by
  have hconcludes := handled_concludes hbudget effect offsets ticks
  have hpublished := (published_of_run setup effect offsets ticks).published
  generalize (runLoop setup ticks (Consumer.fresh effect offsets)).state = c at *
  have hmem : ∀ h ∈ (failedOf c.handled).take c.dlq.sent.length,
      Concludes setup.policy (invocations h.calls) h.outcome ∧
        h.outcome.succeeded = false := by
    intro h hh
    have hfailed := List.mem_filter.mp (List.mem_of_mem_take hh)
    exact ⟨hconcludes h hfailed.1, by simpa using hfailed.2⟩
  have hboth : List.Forall₂ (fun h r => (Concludes setup.policy (invocations h.calls)
        h.outcome ∧ h.outcome.succeeded = false) ∧ h.PublishedAs setup.dlqTopic r)
      ((failedOf c.handled).take c.dlq.sent.length) c.dlq.sent :=
    (List.forall₂_and_left _ _).mpr ⟨hmem, hpublished⟩
  refine List.Forall₂.imp ?_ hboth
  rintro h r ⟨⟨hconcludes, hfailed⟩, hrecord⟩
  exact ⟨hrecord, hrecord.evidencedBy hconcludes hfailed⟩

/-! ## No budget -/

/-- Without a budget, the first order of a run is published although nothing
was invoked for it. -/
theorem published_without_budget {setup : Setup σ}
    (hbudget : setup.policy.maxAttempts < 1) (effect : σ)
    (offsets : CommitLog.Offsets ℕ) {m : Message} {order : Order}
    (hvalue : m.value = some order) :
    ∃ c h r, runLoop setup [{ poll := .message m }] (Consumer.fresh effect offsets) =
        .next c ∧
      c.handled = [h] ∧ h.calls = [] ∧ h.outcome.succeeded = false ∧
      c.dlq.sent = [r] := by
  let c : Consumer σ := (Consumer.fresh effect offsets).receive m
  have hattempt : setup.attempt order c =
      ⟨.ok (setup.policy.failure none), c.work, c.drawn, []⟩ :=
    setup.policy.execute_without_budget _ hbudget _ _
  have hresult : (setup.attempt order c).result = .ok (setup.policy.failure none) := by
    rw [hattempt]
  obtain ⟨r, hrecord⟩ := buildRecord_noError setup.dlqTopic m.topic "" (some order) m.key
    m.partition m.offset setup.policy.maxAttempts
  have hhandle : handle setup { poll := .message m } m order c = _ :=
    handle_of_failed hresult rfl hrecord rfl rfl
  have hrun : runLoop setup [{ poll := .message m }] (Consumer.fresh effect offsets) =
      (handle setup { poll := .message m } m order c).andThen Pass.next := by
    show (iterate setup { poll := .message m } _).andThen Pass.next = _
    unfold iterate
    simp only [hvalue]
    rfl
  obtain ⟨summaries, hsummary⟩ := Consumer.summarize_eq setup.summaryEvery
    ((setup.settled m order (setup.policy.failure none) c).countFailed.enqueue
      r).countPublished.commit
  rw [hhandle, hsummary] at hrun
  have hcalls : (setup.attempt order c).calls = [] := by rw [hattempt]
  exact ⟨_, setup.handling m order (setup.policy.failure none) c, r, hrun, rfl, hcalls,
    rfl, rfl⟩

/-- Such a record is no evidence. -/
theorem no_evidence_without_budget {setup : Setup σ}
    (hbudget : setup.policy.maxAttempts < 1) (effect : σ)
    (offsets : CommitLog.Offsets ℕ) {m : Message} {order : Order}
    (hvalue : m.value = some order) :
    ¬EvidenceOnly setup.dlqTopic
      (runLoop setup [{ poll := .message m }] (Consumer.fresh effect offsets)).state := by
  obtain ⟨c, h, r, hrun, hhandled, hcalls, hfailed, hsent⟩ :=
    published_without_budget hbudget effect offsets hvalue
  intro hevidence
  have hone : failedOf c.handled = [h] := by
    rw [hhandled]
    simp [failedOf, hfailed]
  rw [hrun] at hevidence
  unfold EvidenceOnly at hevidence
  simp only [Pass.state, hone, hsent] at hevidence
  obtain ⟨⟨-, exc, cls, text, hlast, -⟩, -⟩ := List.forall₂_cons.mp hevidence
  rw [hcalls] at hlast
  cases hlast

/-- An order message for the runs that have to be shown. -/
def sampleMessage : Message where
  topic := "orders"
  partition := 0
  offset := 0
  key := some "1001"
  value := some ⟨some "1001", some "Item1", some (.finite 10)⟩

/-- **Evidence needs a budget.**  Every record that `main` publishes, in every
run, is evidence of a failure exactly when `--max-attempts` is positive. -/
theorem evidence_iff_budget (args : Args) (dlqTopic : String) :
    (∀ rng offsets ticks, EvidenceOnly dlqTopic
      (runLoop (mainSetup args rng dlqTopic) ticks (mainStart args offsets)).state) ↔
      1 ≤ args.maxAttempts := by
  constructor
  · intro hall
    by_contra hbudget
    have hbudget' : (mainSetup args (fun _ => Draw.half) dlqTopic).policy.maxAttempts < 1 :=
      not_le.mp hbudget
    exact no_evidence_without_budget hbudget' _ CommitLog.Offsets.zero
      (m := sampleMessage) rfl (hall _ _ _)
  · intro hbudget rng offsets ticks
    have hbudget' : 1 ≤ (mainSetup args rng dlqTopic).policy.maxAttempts := hbudget
    exact evidence_with_budget hbudget' _ offsets ticks

/-- With `--max-attempts 0` a good order is published with the class `NoneType`,
and that record is no evidence. -/
theorem no_budget_publishes_noneType :
    let setup := mainSetup { maxAttempts := 0 } (fun _ => Draw.half) "orders.DLQ"
    let c := (runLoop setup [{ poll := .message sampleMessage }]
      (mainStart { maxAttempts := 0 } CommitLog.Offsets.zero)).state
    (c.dlq.sent.map fun r => r.headers.lookup hdrErrorClass) =
        [some (PyStr.encodeString "NoneType")] ∧
      ¬EvidenceOnly "orders.DLQ" c := by
  refine ⟨?_, ?_⟩
  · decide +kernel
  · have hbudget : (mainSetup { maxAttempts := 0 } (fun _ => Draw.half)
        "orders.DLQ").policy.maxAttempts < 1 := Int.zero_lt_one
    exact no_evidence_without_budget hbudget _ CommitLog.Offsets.zero
      (m := sampleMessage) rfl

end OrderPipeline

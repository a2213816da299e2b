import OrderPipeline.DeadLetterSafety

/-!
# What the exit status of the consumer says

A run of one process of `main`, from its first pass to its return.  The `finally`
block flushes the DLQ producer, logs what `flush` leaves queued, and `main` returns 0
unless a `KafkaException` has ended the loop.  What a delivery report says is only
logged.

`Balanced` follows the records handed over and the counter `published` through the
run, and `truthful_return_iff` reads off when a return of 0 is truthful: no report has
given a record up, `flush` has left none behind, and no interrupt came between
`produce` and the counter.
-/

namespace OrderPipeline

open Runs

/-- A delivery report with an error. -/
def Label.givesUp : Label → Bool
  | .report _ .givenUp => true
  | _ => false

/-- An interrupt between `produce` and `self.published += 1`. -/
def Label.cutsShort : Label → Bool
  | .interruptBeforeCount => true
  | _ => false

/-- The records handed over that `published` is about to count. -/
def Pc.uncounted : Pc → ℕ
  | .produced _ _ => 1
  | _ => 0

/-- A process before its first pass, somewhere in the topic. -/
def System.startAt {σ : Type} (effect₀ : σ) (offsets : CommitLog.Offsets ℕ) : System σ :=
  { System.init effect₀ with consumer := Consumer.fresh effect₀ offsets }

section Process

variable {σ : Type} {setup : Setup σ} {effect₀ : σ} {t : Topic}

/-- The records of this process and its counter, after the events `ls`. -/
structure Balanced (ls : List Label) (s : System σ) : Prop where
  audit : s.delivery.Audit s.consumer.dlq.sent (∃ l ∈ ls, l.givesUp = true)
  counted : s.consumer.dlq.sent.length =
    s.consumer.dlq.published + s.pc.uncounted + ls.countP Label.cutsShort
  outstanding : ∀ exit n, s.pc = .exited exit n → n = s.delivery.queue.length

/-- A step that leaves the producer and the counter alone. -/
theorem Balanced.of_same {ls : List Label} {s s' : System σ} {l : Label}
    (h : Balanced ls s) (hdelivery : s'.delivery = s.delivery)
    (hdlq : s'.consumer.dlq = s.consumer.dlq)
    (huncounted : s'.pc.uncounted = s.pc.uncounted) (hgives : l.givesUp = false)
    (hcuts : l.cutsShort = false)
    (houtstanding : ∀ exit n, s'.pc = .exited exit n → n = s.delivery.queue.length) :
    Balanced (ls ++ [l]) s' where
  audit := by
    have haudit := h.audit
    simpa [hdelivery, hdlq, hgives] using haudit
  counted := by
    have hcounted := h.counted
    simpa [hdlq, huncounted, hcuts] using hcounted
  outstanding := by
    rw [hdelivery]
    exact houtstanding

/-- **Step lemma.** `failed` is counted after `produce`, so for a moment a copy is
handed over and not counted; every other step moves both or neither. -/
theorem Balanced.step {ls : List Label} {s s' : System σ} {l : Label}
    (h : Balanced ls s) (hstep : Step setup effect₀ t s l s')
    (hl : ∀ drawn, l ≠ .restart drawn) (hdown : s'.pc ≠ .down) :
    Balanced (ls ++ [l]) s' := by
  cases hstep with
  | idle hpc => exact h.of_same rfl rfl rfl rfl rfl (by simp [hpc])
  | commit hpc =>
      exact h.of_same rfl (by simp [Consumer.commit]) (by simp [hpc, Pc.uncounted]) rfl rfl
        (by simp)
  | @produce m order outcome r failedAt hpc hr =>
      have hcounted := h.counted
      refine ⟨?_, ?_, by simp⟩
      · have hproduce := h.audit.produce r
        simpa [Label.givesUp, Consumer.enqueue] using hproduce
      · simp only [hpc, Pc.uncounted, Consumer.enqueue, List.length_append,
          List.length_singleton, List.countP_append, List.countP_singleton,
          Label.cutsShort, Bool.false_eq_true, if_false] at hcounted ⊢
        omega
  | count hpc =>
      have hcounted := h.counted
      refine ⟨?_, ?_, by simp⟩
      · have haudit := h.audit
        simpa [Label.givesUp, Consumer.countPublished] using haudit
      · simp only [hpc, Pc.uncounted, Consumer.countPublished, List.countP_append,
          List.countP_singleton, Label.cutsShort, Bool.false_eq_true, if_false] at hcounted ⊢
        omega
  | interruptBeforeCount hpc =>
      have hcounted := h.counted
      refine ⟨?_, ?_, by simp [System.raise]⟩
      · have haudit := h.audit
        simpa [Label.givesUp, System.raise] using haudit
      · simp only [hpc, Pc.uncounted, System.raise, List.countP_append,
          List.countP_singleton, Label.cutsShort, if_true] at hcounted ⊢
        omega
  | interrupt hactive hpc =>
      have huncounted : s.pc.uncounted = 0 := by
        cases hp : s.pc with
        | produced m r => exact absurd hp (hpc m r)
        | _ => rfl
      exact h.of_same rfl rfl huncounted.symm rfl rfl (by simp [System.raise])
  | commitRaised exc stored hpc =>
      have hdlq : (if stored then s.consumer.commitLost else s.consumer).dlq =
          s.consumer.dlq := by
        cases stored <;> rfl
      have huncounted : s.pc.uncounted = 0 := by
        rcases hpc with ⟨m, hpc⟩ | ⟨m, r, hpc⟩ <;> rw [hpc] <;> rfl
      exact h.of_same rfl hdlq huncounted.symm rfl rfl (by simp [System.raise])
  | flush hpc =>
      refine h.of_same rfl rfl (by simp [hpc, Pc.uncounted]) rfl rfl ?_
      intro exit n hexit
      cases hexit
      rfl
  | @report i r hi hserving =>
      have hcounted := h.counted
      refine ⟨?_, ?_, ?_⟩
      · have hreport := h.audit.report hi r
        cases r with
        | acknowledged => simpa [Label.givesUp] using hreport
        | givenUp => simpa [Label.givesUp] using hreport
      · simpa [Label.cutsShort] using hcounted
      · intro exit n hexit
        rw [show s.pc = .exited exit n from hexit] at hserving
        cases hserving
  | crash hactive => exact absurd rfl hdown
  | leave hpc => exact absurd rfl hdown
  | restart drawn hpc => exact absurd rfl (hl drawn)
  | _ =>
      refine h.of_same rfl rfl ?_ rfl rfl (by simp [System.raise])
      simp_all [Pc.uncounted, System.raise]

/-- Nothing but a new process follows the end of one. -/
theorem Step.from_down {s s' : System σ} {l : Label} (hstep : Step setup effect₀ t s l s')
    (hpc : s.pc = .down) : ∃ drawn, l = .restart drawn := by
  cases hstep with
  | restart drawn hdown => exact ⟨drawn, rfl⟩
  | interrupt hactive hproduced => simp [hpc, Pc.active] at hactive
  | crash hactive => simp [hpc, Pc.active] at hactive
  | report i r hi hserving => simp [hpc, Pc.serving] at hserving
  | commitRaised exc stored hcommit => simp [hpc] at hcommit
  | leave hleft => simp [hpc] at hleft
  | _ => simp_all

/-- **Run lemma.** The books of one process are balanced in every state of it that is
not down. -/
theorem balanced_of_run {offsets : CommitLog.Offsets ℕ} {s : System σ} {ls : List Label}
    (hrun : Run (Step setup effect₀ t) (System.startAt effect₀ offsets) ls s)
    (hprocess : ∀ l ∈ ls, ∀ drawn, l ≠ .restart drawn) (hdown : s.pc ≠ .down) :
    Balanced ls s := by
  induction hrun with
  | nil =>
      refine ⟨?_, rfl, fun exit n hpc => by cases hpc⟩
      simpa [System.startAt, System.init, Consumer.fresh] using
        (Delivery.audit_empty (α := DlqRecord))
  | @snoc ls u v l hrun hlast ih =>
      have hbefore : u.pc ≠ .down := by
        intro hpc
        obtain ⟨drawn, hl⟩ := hlast.from_down hpc
        exact hprocess l (by simp) drawn hl
      have hbalanced := ih (fun l hl => hprocess l (List.mem_append_left _ hl)) hbefore
      exact hbalanced.step hlast (hprocess l (by simp)) hdown

/-- A return of 0 says what it should: every record that `publish` handed over is
acknowledged, and `dlq_published` is the number of the acknowledged records. -/
def TruthfulReturn (exit : Exit) (s : System σ) : Prop :=
  exit.status = some 0 → s.consumer.dlq.sent.Perm s.delivery.acked ∧
    s.consumer.dlq.published = s.delivery.acked.length

/-- Every record handed over is acknowledged exactly when no report gave one up and
`flush` left none queued, whatever `main` returns. -/
theorem Balanced.acked_perm_iff {ls : List Label} {s : System σ} {exit : Exit}
    {outstanding : ℕ} (h : Balanced ls s) (hpc : s.pc = .exited exit outstanding) :
    s.consumer.dlq.sent.Perm s.delivery.acked ↔
      outstanding = 0 ∧ ∀ l ∈ ls, l.givesUp = false := by
  rw [h.audit.acked_perm_iff, h.outstanding exit outstanding hpc, List.length_eq_zero_iff]
  simp

/-- `published` counts the records handed over exactly when no interrupt came between
`produce` and the counter. -/
theorem Balanced.published_iff {ls : List Label} {s : System σ} {exit : Exit}
    {outstanding : ℕ} (h : Balanced ls s) (hpc : s.pc = .exited exit outstanding) :
    s.consumer.dlq.published = s.consumer.dlq.sent.length ↔
      ∀ l ∈ ls, l.cutsShort = false := by
  have hcounted := h.counted
  rw [hpc] at hcounted
  have hzero : ls.countP Label.cutsShort = 0 ↔ ∀ l ∈ ls, l.cutsShort = false := by
    simp [List.countP_eq_zero]
  rw [← hzero, hcounted]
  simp only [Pc.uncounted]
  omega

/-- **When a return of 0 is truthful.**  In a run of one process up to the return of
`main`: if it returns 0, then no report gave a record up, `flush` left none queued and
no interrupt came between `produce` and the counter. -/
theorem truthful_return_iff {offsets : CommitLog.Offsets ℕ} {s : System σ}
    {ls : List Label} {exit : Exit} {outstanding : ℕ}
    (hrun : Run (Step setup effect₀ t) (System.startAt effect₀ offsets) ls s)
    (hprocess : ∀ l ∈ ls, ∀ drawn, l ≠ .restart drawn)
    (hpc : s.pc = .exited exit outstanding) :
    TruthfulReturn exit s ↔
      (exit.status = some 0 → outstanding = 0 ∧ (∀ l ∈ ls, l.givesUp = false) ∧
        ∀ l ∈ ls, l.cutsShort = false) := by
  have hbalanced := balanced_of_run hrun hprocess (by simp [hpc])
  have hacked := hbalanced.acked_perm_iff hpc
  have hpublished := hbalanced.published_iff hpc
  unfold TruthfulReturn
  constructor
  · intro htruthful hstatus
    obtain ⟨hperm, hcount⟩ := htruthful hstatus
    obtain ⟨houtstanding, hreports⟩ := hacked.mp hperm
    exact ⟨houtstanding, hreports, hpublished.mp (by rw [hcount, hperm.length_eq])⟩
  · intro hevents hstatus
    obtain ⟨houtstanding, hreports, hcuts⟩ := hevents hstatus
    have hperm := hacked.mpr ⟨houtstanding, hreports⟩
    exact ⟨hperm, by rw [hpublished.mpr hcuts, hperm.length_eq]⟩

end Process

/-- The default `main` over the POISON order, stopped by the flag after the report for
its record: `flush` finds an empty queue. -/
theorem poison_shutdown (report : Report) : ∃ (s : System FailureSimulator) (r : DlqRecord),
    Run (Step sampleSetup {} poisonTopic) (System.startAt {} CommitLog.Offsets.zero)
      [.receive 0, .begin, .attempt, .branch, .produce "", .count, .commit,
        .report 0 report, .stop, .flush] s ∧
    s.pc = .exited .stopped 0 ∧ s.consumer.dlq.sent = [r] ∧
    s.consumer.dlq.published = 1 ∧ s.delivery = Delivery.empty.file r report := by
  obtain ⟨s, r, hrun, hpc, hdelivery, hdlq, -⟩ := poison_run
  have hreported : s.delivery.report 0 report = Delivery.empty.file r report := by
    rw [hdelivery]
    rfl
  have hqueued : 0 < s.delivery.queue.length := by simp [hdelivery]
  obtain ⟨s', hrun', hpc', hdlq', hdelivery'⟩ : ∃ s' : System FailureSimulator,
      Run (Step sampleSetup {} poisonTopic) s
        [.count, .commit, .report 0 report, .stop, .flush] s' ∧
      s'.pc = .exited .stopped (s.delivery.report 0 report).queue.length ∧
      s'.consumer.dlq = { s.consumer.dlq with published := s.consumer.dlq.published + 1 } ∧
      s'.delivery = s.delivery.report 0 report := by
    refine ⟨_, Run.cons (.count hpc) <| Run.cons (.commit rfl) <|
      Run.cons (.report 0 report hqueued rfl) <| Run.cons (.stop rfl) <|
      Run.single (.flush rfl), rfl, ?_, rfl⟩
    simp [Consumer.commit, Consumer.countPublished]
  have hempty : (Delivery.empty.file r report).queue = [] := by cases report <;> rfl
  rw [hreported, hempty] at hpc'
  rw [hreported] at hdelivery'
  rw [hdlq] at hdlq'
  exact ⟨s', r, hrun.unguard.append hrun', hpc', by rw [hdlq'], by rw [hdlq'], hdelivery'⟩

/-- If the report gives the record up, `main` returns 0 and the record is lost. -/
theorem returns_zero_over_lost_record : ∃ s : System FailureSimulator,
    Run (Step sampleSetup {} poisonTopic) (System.startAt {} CommitLog.Offsets.zero)
      [.receive 0, .begin, .attempt, .branch, .produce "", .count, .commit,
        .report 0 .givenUp, .stop, .flush] s ∧
    s.pc = .exited .stopped 0 ∧ s.consumer.dlq.published = 1 ∧ s.delivery.acked = [] ∧
    ¬TruthfulReturn .stopped s := by
  obtain ⟨s, r, hrun, hpc, -, hpublished, hdelivery⟩ := poison_shutdown .givenUp
  have hacked : s.delivery.acked = [] := by
    rw [hdelivery]
    rfl
  refine ⟨s, hrun, hpc, hpublished, hacked, ?_⟩
  intro htruthful
  obtain ⟨-, hcount⟩ := htruthful rfl
  rw [hpublished, hacked] at hcount
  cases hcount

/-- If the report acknowledges the record, the return of 0 is truthful. -/
theorem returns_zero_over_delivered_record : ∃ s : System FailureSimulator,
    Run (Step sampleSetup {} poisonTopic) (System.startAt {} CommitLog.Offsets.zero)
      [.receive 0, .begin, .attempt, .branch, .produce "", .count, .commit,
        .report 0 .acknowledged, .stop, .flush] s ∧
    s.pc = .exited .stopped 0 ∧ s.consumer.dlq.published = 1 ∧
    TruthfulReturn .stopped s := by
  obtain ⟨s, r, hrun, hpc, -, hpublished, -⟩ := poison_shutdown .acknowledged
  have hprocess : ∀ l ∈ [Label.receive 0, .begin, .attempt, .branch, .produce "", .count,
      .commit, .report 0 .acknowledged, .stop, .flush], ∀ drawn, l ≠ .restart drawn := by
    simp
  refine ⟨s, hrun, hpc, hpublished, (truthful_return_iff hrun hprocess hpc).mpr ?_⟩
  intro _
  simp [Label.givesUp, Label.cutsShort]

end OrderPipeline

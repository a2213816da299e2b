import OrderPipeline.AtLeastOnce
import OrderPipeline.Ledger

/-!
# Is a dead-lettered record safe?

A record whose last outcome is a failure may be behind the committed position of its
partition only if the DLQ topic holds an acknowledged copy of it
(`DeadLettersSafe`).  `publish` only enqueues the copy, and `main` commits without
waiting for the delivery report.

So safety depends on what has become of the copy when the commit is made: it is kept
as long as every such commit finds the copy reported and not given up
(`dead_letters_safe`), a commit that finds no acknowledged copy breaks it
(`commit_without_copy`), and nothing keeps `main` from making one
(`commit_before_report`).
-/

namespace OrderPipeline

open Runs

/-- The last outcome of the record at some coordinates. -/
def lastOutcome (outcomes : List Handling) (x : ℕ × ℕ) : Option Handling :=
  outcomes.reverse.find? fun h => decide (h.message.coordinates = x)

/-- The outcome recorded last is the one `lastOutcome` finds at its coordinates. -/
theorem lastOutcome_snoc_self (outcomes : List Handling) {h : Handling} {x : ℕ × ℕ}
    (hx : h.message.coordinates = x) : lastOutcome (outcomes ++ [h]) x = some h := by
  simp [lastOutcome, hx]

/-- An outcome at other coordinates does not hide what was found before. -/
theorem lastOutcome_snoc_of_ne (outcomes : List Handling) {h : Handling} {x : ℕ × ℕ}
    (hx : h.message.coordinates ≠ x) :
    lastOutcome (outcomes ++ [h]) x = lastOutcome outcomes x := by
  simp [lastOutcome, hx]

/-- What `lastOutcome` finds is one of the outcomes, and it is an outcome of the message
asked for. -/
theorem lastOutcome_eq_some {outcomes : List Handling} {x : ℕ × ℕ} {h : Handling}
    (hlast : lastOutcome outcomes x = some h) :
    h ∈ outcomes ∧ h.message.coordinates = x := by
  have hmem := List.mem_of_find?_eq_some hlast
  have hfound := List.find?_some hlast
  exact ⟨List.mem_reverse.mp hmem, of_decide_eq_true hfound⟩

section Safety

variable {σ : Type} {setup : Setup σ} {effect₀ : σ} {t : Topic}

/-- The DLQ topic holds an acknowledged copy of what was handled. -/
def System.Copied (dlqTopic : String) (s : System σ) (h : Handling) : Prop :=
  ∃ r ∈ s.delivery.acked, h.PublishedAs dlqTopic r

/-- No dead-lettered record is lost. -/
def DeadLettersSafe (dlqTopic : String) (s : System σ) : Prop :=
  ∀ x h, lastOutcome s.outcomes x = some h → h.outcome.succeeded = false →
    x.2 < s.consumer.offsets.committed x.1 → s.Copied dlqTopic h

/-! ## The outcome and the copy in hand -/

/-- Where the outcome of the message in hand and the copy of its record are. -/
def System.InHand (dlqTopic : String) (s : System σ) : Prop :=
  match s.pc with
  | .executed m order outcome => ∃ calls,
      lastOutcome s.outcomes m.coordinates = some ⟨m, order, outcome, calls⟩
  | .publishing m order outcome => outcome.succeeded = false ∧ ∃ calls,
      lastOutcome s.outcomes m.coordinates = some ⟨m, order, outcome, calls⟩
  | .produced m r => ∃ h, lastOutcome s.outcomes m.coordinates = some h ∧
      h.outcome.succeeded = false ∧ h.PublishedAs dlqTopic r ∧ r ∈ s.delivery.all
  | .committing m (some r) => ∃ h, lastOutcome s.outcomes m.coordinates = some h ∧
      h.outcome.succeeded = false ∧ h.PublishedAs dlqTopic r ∧ r ∈ s.delivery.all
  | .committing m none => ∃ h, lastOutcome s.outcomes m.coordinates = some h ∧
      h.outcome.succeeded = true
  | _ => True

/-- **Step lemma.** The outcome in hand is the last one at its coordinates.  The steps
that end a call record it, and the branches pass it on. -/
theorem System.InHand.step {s s' : System σ} {l : Label} (h : s.InHand setup.dlqTopic)
    (hstep : Step setup effect₀ t s l s') : s'.InHand setup.dlqTopic := by
  unfold System.InHand at h ⊢
  cases hstep with
  | idle hpc => exact h
  | returned hpc ha hverdict => exact ⟨_, lastOutcome_snoc_self _ rfl⟩
  | exhausted hpc => exact ⟨_, lastOutcome_snoc_self _ rfl⟩
  | succeeded hpc houtcome =>
      simp only [hpc] at h
      obtain ⟨calls, hlast⟩ := h
      exact ⟨_, hlast, houtcome⟩
  | failed hpc houtcome =>
      simp only [hpc] at h
      exact ⟨houtcome, h⟩
  | @produce m order outcome r failedAt hpc hr =>
      simp only [hpc] at h
      obtain ⟨houtcome, calls, hlast⟩ := h
      exact ⟨_, hlast, houtcome, ⟨failedAt, hr⟩, by simp [Delivery.all]⟩
  | count hpc =>
      simp only [hpc] at h
      exact h
  | report i r hi hpc =>
      have hall : ∀ a, a ∈ (s.delivery.report i r).all ↔ a ∈ s.delivery.all :=
        fun a => (s.delivery.report_perm i r).mem_iff
      cases hp : s.pc with
      | produced m r =>
          simp only [hp] at h ⊢
          obtain ⟨g, hlast, houtcome, hcopy, hmem⟩ := h
          exact ⟨g, hlast, houtcome, hcopy, (hall _).mpr hmem⟩
      | committing m r =>
          cases r with
          | none =>
              simp only [hp] at h ⊢
              exact h
          | some r =>
              simp only [hp] at h ⊢
              obtain ⟨g, hlast, houtcome, hcopy, hmem⟩ := h
              exact ⟨g, hlast, houtcome, hcopy, (hall _).mpr hmem⟩
      | executed m order outcome =>
          simp only [hp] at h ⊢
          exact h
      | publishing m order outcome =>
          simp only [hp] at h ⊢
          exact h
      | _ => trivial
  | _ => trivial

/-- **Run lemma.** -/
theorem System.inHand_of_run {s : System σ} {ls : List Label}
    (hrun : Run (Step setup effect₀ t) (System.init effect₀) ls s) :
    s.InHand setup.dlqTopic :=
  hrun.invariant (System.InHand setup.dlqTopic) trivial
    (fun _ _ _ h hstep => h.step hstep)

/-- A tombstone has no outcome. -/
theorem lastOutcome_tombstone {s : System σ} (hgenuine : s.Genuine t) {m : Message}
    (hpc : s.pc = .skipping m) : lastOutcome s.outcomes m.coordinates = none := by
  cases hlast : lastOutcome s.outcomes m.coordinates with
  | none => rfl
  | some h =>
      obtain ⟨hmem, hcoordinates⟩ := lastOutcome_eq_some hlast
      obtain ⟨hholds, hvalue⟩ := hgenuine.outcomes h hmem
      have hskipping := hgenuine.pc
      rw [hpc] at hskipping
      obtain ⟨hm, hnone⟩ := hskipping
      have hsame := hholds.unique hm hcoordinates
      rw [hsame, hnone] at hvalue
      cases hvalue

/-! ## What keeps the records safe -/

/-- A step that neither commits nor ends an `execute` call keeps them safe. -/
theorem DeadLettersSafe.of_same {dlqTopic : String} {s s' : System σ}
    (h : DeadLettersSafe dlqTopic s) (houtcomes : s'.outcomes = s.outcomes)
    (hcommitted : s'.consumer.offsets.committed = s.consumer.offsets.committed)
    (hacked : ∀ r ∈ s.delivery.acked, r ∈ s'.delivery.acked) :
    DeadLettersSafe dlqTopic s' := by
  intro x g hlast hfailed hx
  rw [houtcomes] at hlast
  rw [hcommitted] at hx
  obtain ⟨r, hr, hcopy⟩ := h x g hlast hfailed hx
  exact ⟨r, hacked r hr, hcopy⟩

/-- The end of an `execute` call keeps them safe: the record it speaks of is taken and
so not committed, and the other coordinates keep their outcomes. -/
theorem DeadLettersSafe.of_outcome {dlqTopic : String} {s s' : System σ} {g : Handling}
    (h : DeadLettersSafe dlqTopic s) (houtcomes : s'.outcomes = s.outcomes ++ [g])
    (hcommitted : s'.consumer.offsets.committed = s.consumer.offsets.committed)
    (hdelivery : s'.delivery = s.delivery)
    (hg : ¬g.message.offset < s.consumer.offsets.committed g.message.partition) :
    DeadLettersSafe dlqTopic s' := by
  intro x g' hlast hfailed hx
  rw [houtcomes] at hlast
  rw [hcommitted] at hx
  by_cases hsame : g.message.coordinates = x
  · subst hsame
    exact absurd hx hg
  · rw [lastOutcome_snoc_of_ne _ hsame] at hlast
    obtain ⟨r, hr, hcopy⟩ := h x g' hlast hfailed hx
    refine ⟨r, ?_, hcopy⟩
    rw [hdelivery]
    exact hr

/-- A commit keeps them safe if the record in hand is: nothing else becomes
committed. -/
theorem DeadLettersSafe.of_commit {dlqTopic : String} {s s' : System σ} {m : Message}
    (h : DeadLettersSafe dlqTopic s)
    (haligned : CommitLog.Aligned t.parts s.consumer.offsets
      (.settled m.partition m.offset))
    (hm : ∀ g, lastOutcome s.outcomes m.coordinates = some g →
      g.outcome.succeeded = false → s.Copied dlqTopic g)
    (houtcomes : s'.outcomes = s.outcomes) (hdelivery : s'.delivery = s.delivery)
    (hoffsets : s'.consumer.offsets = s.consumer.offsets.commit) :
    DeadLettersSafe dlqTopic s' := by
  intro x g hlast hfailed hx
  rw [houtcomes] at hlast
  rw [hoffsets] at hx
  have hcopied : s.Copied dlqTopic g := by
    rcases CommitLog.lt_commit haligned hx with hbelow | heq
    · exact h x g hlast hfailed hbelow
    · have hcoordinates : x = m.coordinates := heq
      rw [hcoordinates] at hlast
      exact hm g hlast hfailed
  unfold System.Copied
  rw [hdelivery]
  exact hcopied

/-- The condition on a step: an offset commit that follows a publish finds the copy
neither in the queue nor given up. -/
def SettledBeforeCommit (s : System σ) : Label → Prop
  | .commit | .commitRaised _ true => ∀ m r, s.pc = .committing m (some r) →
      r ∉ s.delivery.queue ∧ r ∉ s.delivery.failed
  | _ => True

/-- Under the condition the record in hand may be committed: if its outcome is a
failure, its copy was handed over, is neither queued nor given up, and hence is
acknowledged. -/
theorem copied_before_commit {s : System σ} {m : Message}
    (hgenuine : s.Genuine t) (hinHand : s.InHand setup.dlqTopic)
    (hpc : s.pc = .skipping m ∨ ∃ r, s.pc = .committing m r)
    (hsettled : ∀ m r, s.pc = .committing m (some r) →
      r ∉ s.delivery.queue ∧ r ∉ s.delivery.failed)
    {g : Handling} (hlast : lastOutcome s.outcomes m.coordinates = some g)
    (hfailed : g.outcome.succeeded = false) : s.Copied setup.dlqTopic g := by
  unfold System.InHand at hinHand
  rcases hpc with hpc | ⟨_ | r, hpc⟩
  · rw [lastOutcome_tombstone hgenuine hpc] at hlast
    cases hlast
  · simp only [hpc] at hinHand
    obtain ⟨h, hlast', hsucceeded⟩ := hinHand
    rw [hlast'] at hlast
    cases hlast
    rw [hsucceeded] at hfailed
    cases hfailed
  · simp only [hpc] at hinHand
    obtain ⟨h, hlast', -, hcopy, hall⟩ := hinHand
    rw [hlast'] at hlast
    cases hlast
    obtain ⟨hqueue, hgivenUp⟩ := hsettled m r hpc
    refine ⟨r, ?_, hcopy⟩
    -- the copy is somewhere, and two of the three places are excluded
    simpa [Delivery.all, hqueue, hgivenUp] using hall

/-- **Step lemma.** Two kinds of steps matter: the end of a call of `execute`, which may
record a failure, and a commit, which makes a record count as done. -/
theorem DeadLettersSafe.step {s s' : System σ} {l : Label}
    (h : DeadLettersSafe setup.dlqTopic s) (hinv : CommitLog.Inv t.parts s.abs)
    (hgenuine : s.Genuine t) (hinHand : s.InHand setup.dlqTopic)
    (hstep : Guarded (Step setup effect₀ t) SettledBeforeCommit s l s') :
    DeadLettersSafe setup.dlqTopic s' := by
  obtain ⟨hstep, hguard⟩ := hstep
  cases hstep with
  | @returned m order remaining attempt lastExc calls a outcome hpc ha hverdict =>
      have htaken : CommitLog.Aligned t.parts s.consumer.offsets
          (.taken m.partition m.offset) := System.aligned_at hinv hpc
      exact h.of_outcome rfl rfl rfl (by simp [htaken.2.1])
  | @exhausted m order attempt lastExc calls hpc =>
      have htaken : CommitLog.Aligned t.parts s.consumer.offsets
          (.taken m.partition m.offset) := System.aligned_at hinv hpc
      exact h.of_outcome rfl rfl rfl (by simp [htaken.2.1])
  | @commitSkipped m hpc =>
      have hsettled : CommitLog.Aligned t.parts s.consumer.offsets
          (.settled m.partition m.offset) := System.aligned_at hinv hpc
      exact h.of_commit hsettled
        (fun g => copied_before_commit hgenuine hinHand (Or.inl hpc) hguard) rfl rfl rfl
  | @commit m r hpc =>
      have hsettled : CommitLog.Aligned t.parts s.consumer.offsets
          (.settled m.partition m.offset) := System.aligned_at hinv hpc
      have hoffsets := Consumer.summarize_offsets setup.summaryEvery s.consumer.commit
      exact h.of_commit hsettled
        (fun g => copied_before_commit hgenuine hinHand (Or.inr ⟨r, hpc⟩) hguard) rfl rfl
        hoffsets
  | commitRaised exc stored hpc =>
      cases stored with
      | false => exact h.of_same rfl rfl (fun _ hr => hr)
      | true =>
          obtain ⟨m, hpc', hsettled⟩ : ∃ m : Message,
              (s.pc = .skipping m ∨ ∃ r, s.pc = .committing m r) ∧
              CommitLog.Aligned t.parts s.consumer.offsets
                (.settled m.partition m.offset) := by
            rcases hpc with ⟨m, hpc⟩ | ⟨m, r, hpc⟩
            · exact ⟨m, Or.inl hpc, System.aligned_at hinv hpc⟩
            · exact ⟨m, Or.inr ⟨r, hpc⟩, System.aligned_at hinv hpc⟩
          exact h.of_commit hsettled
            (fun g => copied_before_commit hgenuine hinHand hpc' hguard) rfl rfl rfl
  | report i r hi hpc =>
      exact h.of_same rfl rfl (fun _ hr => Delivery.acked_report_of_mem hr)
  | _ => exact h.of_same rfl rfl (fun _ hr => hr)

/-- **When no dead-lettered record is lost.**  In every run whose commits, where they
follow a publish, find the published copy reported by the broker and not given up, no
dead-lettered record is lost, in any state of the run and whatever crashes and
restarts there are. -/
theorem dead_letters_safe {s : System σ} {ls : List Label}
    (hrun : Run (Guarded (Step setup effect₀ t) SettledBeforeCommit)
      (System.init effect₀) ls s) : DeadLettersSafe setup.dlqTopic s := by
  induction hrun with
  | nil =>
      intro x h hlast
      cases hlast
  | snoc hrun hlast ih =>
      have hplain := hrun.unguard
      exact ih.step (System.inv_of_run hplain) (System.genuine_of_run hplain)
        (System.inHand_of_run hplain) hlast

/-- The condition is about the right states: a commit that finds no acknowledged copy
of the record loses it. -/
theorem commit_without_copy {s s' : System σ} {ls : List Label} {m : Message}
    {r : DlqRecord} {h : Handling}
    (hrun : Run (Step setup effect₀ t) (System.init effect₀) ls s)
    (hpc : s.pc = .committing m (some r))
    (hlast : lastOutcome s.outcomes m.coordinates = some h)
    (hmissing : ¬s.Copied setup.dlqTopic h)
    (hstep : Step setup effect₀ t s .commit s') : ¬DeadLettersSafe setup.dlqTopic s' := by
  intro hsafe
  have hinHand := System.inHand_of_run hrun
  unfold System.InHand at hinHand
  simp only [hpc] at hinHand
  obtain ⟨h', hlast', hfailed, -⟩ := hinHand
  rw [hlast'] at hlast
  cases hlast
  have haligned : CommitLog.Aligned t.parts s.consumer.offsets
      (.settled m.partition m.offset) := System.aligned_at (System.inv_of_run hrun) hpc
  obtain ⟨-, -, hposition⟩ := haligned
  have hnext : s.consumer.offsets.position m.partition = m.offset + 1 := by
    rw [hposition, Function.update_self]
  cases hstep with
  | commitSkipped hpc' =>
      rw [hpc'] at hpc
      cases hpc
  | commit hpc' =>
      have hoffsets := Consumer.summarize_offsets setup.summaryEvery s.consumer.commit
      have hbelow : m.offset <
          (s.consumer.commit.summarize setup.summaryEvery).offsets.committed m.partition := by
        rw [hoffsets]
        show m.offset < s.consumer.offsets.position m.partition
        omega
      exact hmissing (hsafe m.coordinates h hlast' hfailed hbelow)

end Safety

/-! ## A run that loses a record -/

/-- A topic with one POISON order. -/
def poisonTopic : Topic where
  name := "orders"
  partitions := [[⟨some "1001", .order ⟨"1001", "POISON", .finite 10⟩⟩]]

def poisonOrder : Order := dictToOrder ⟨"1001", "POISON", .finite 10⟩

def poisonMessage : Message := ⟨"orders", 0, 0, some "1001", some poisonOrder⟩

/-- The outcome of the POISON order: a permanent failure in the first attempt. -/
def poisonOutcome : RetryOutcome :=
  sampleSetup.policy.failure (some FailureSimulator.poisonError)

/-- The first attempt at the POISON order ends `execute`. -/
theorem poison_verdict (c : Consumer FailureSimulator) :
    (sampleSetup.tryOnce poisonOrder 1 c).verdict = .returned poisonOutcome := by
  have hvalid : validate poisonOrder = .ok () := by decide +kernel
  have hprocess : process sampleSetup.sideEffect poisonOrder c.work =
      (.error FailureSimulator.poisonError, c.work) := by
    unfold process
    rw [hvalid]
    rfl
  have hpermanent : classify FailureSimulator.poisonError = .permanent := rfl
  unfold Setup.tryOnce RetryPolicy.attemptOnce
  rw [hprocess]
  simp only [hpermanent, if_true]
  rfl

/-- The default `main` up to the return of `produce`: the copy is in the queue. -/
theorem poison_run : ∃ (s : System FailureSimulator) (r : DlqRecord),
    Run (Guarded (Step sampleSetup {} poisonTopic) SettledBeforeCommit) (System.init {})
      [.receive 0, .begin, .attempt, .branch, .produce ""] s ∧
    s.pc = .produced poisonMessage r ∧ s.delivery = ⟨[r], [], []⟩ ∧
    s.consumer.dlq = { sent := [r] } ∧ s.consumer.offsets.position 0 = 1 ∧
    (∃ h, lastOutcome s.outcomes (0, 0) = some h ∧ h.outcome.succeeded = false) := by
  obtain ⟨r, hr⟩ : ∃ r, dlqRecordOf "orders.DLQ" poisonMessage poisonOrder poisonOutcome
      "" = .ok r := buildRecord_ofText _ _ _ _ _ _ _ _ _ _ _
  have hattempting : sampleSetup.policy.maxAttempts.toNat = 2 + 1 := rfl
  refine ⟨_, r, Run.cons ⟨.receive rfl rfl rfl, trivial⟩ <|
    Run.cons ⟨.begin rfl rfl, trivial⟩ <|
    Run.cons ⟨.returned (congrArg (fun n => Pc.attempting _ _ n 1 none []) hattempting) rfl
      (poison_verdict _), trivial⟩ <|
    Run.cons ⟨.failed rfl rfl, trivial⟩ <|
    Run.single ⟨.produce "" rfl hr, trivial⟩, rfl, rfl, rfl, rfl, ?_⟩
  exact ⟨_, lastOutcome_snoc_self _ rfl, rfl⟩

/-- The offset is committed with the copy in the queue, and a crash loses the copy: the
order is behind the committed position and nothing of it is in the DLQ topic. -/
theorem commit_before_report : ∃ s : System FailureSimulator,
    Run (Step sampleSetup {} poisonTopic) (System.init {})
      [.receive 0, .begin, .attempt, .branch, .produce "", .count, .commit, .crash] s ∧
    s.consumer.offsets.committed 0 = 1 ∧ s.delivery = ⟨[], [], []⟩ ∧
    ¬DeadLettersSafe "orders.DLQ" s := by
  obtain ⟨s, r, hrun, hpc, hdelivery, -, hposition, h, hlast, hfailed⟩ := poison_run
  obtain ⟨s', hrun', hcommitted, hdelivery', houtcomes⟩ : ∃ s' : System FailureSimulator,
      Run (Step sampleSetup {} poisonTopic) s [.count, .commit, .crash] s' ∧
      s'.consumer.offsets.committed = s.consumer.offsets.position ∧
      s'.delivery = s.delivery.drop ∧ s'.outcomes = s.outcomes := by
    refine ⟨_, Run.cons (.count hpc) <| Run.cons (.commit rfl) <| Run.single (.crash rfl),
      ?_, rfl, rfl⟩
    simp [Consumer.commit, Consumer.countPublished]
  have hone : s'.consumer.offsets.committed 0 = 1 := by rw [hcommitted, hposition]
  have hempty : s'.delivery = ⟨[], [], []⟩ := by
    rw [hdelivery', hdelivery]
    rfl
  refine ⟨s', hrun.unguard.append hrun', hone, hempty, ?_⟩
  intro hsafe
  rw [← houtcomes] at hlast
  obtain ⟨r', hr', -⟩ := hsafe (0, 0) h hlast hfailed (by simp [hone])
  rw [hempty] at hr'
  cases hr'

/-- The same order with the report in time: its copy is in the DLQ topic when the
offset is committed. -/
theorem dead_letters_safe_in_time : ∃ (s : System FailureSimulator) (h : Handling),
    Run (Guarded (Step sampleSetup {} poisonTopic) SettledBeforeCommit) (System.init {})
      [.receive 0, .begin, .attempt, .branch, .produce "", .report 0 .acknowledged,
        .count, .commit] s ∧
    s.consumer.offsets.committed 0 = 1 ∧ h.outcome.succeeded = false ∧
    s.Copied "orders.DLQ" h := by
  obtain ⟨s, r, hrun, hpc, hdelivery, -, hposition, h, hlast, hfailed⟩ := poison_run
  have hqueued : 0 < s.delivery.queue.length := by simp [hdelivery]
  have hreported : s.delivery.report 0 .acknowledged = ⟨[], [r], []⟩ := by
    rw [hdelivery]
    rfl
  have hguard : ∀ m r', Pc.committing poisonMessage (some r) = .committing m (some r') →
      r' ∉ (s.delivery.report 0 .acknowledged).queue ∧
        r' ∉ (s.delivery.report 0 .acknowledged).failed := by
    intro m r' _
    rw [hreported]
    simp
  obtain ⟨s', hrun', hcommitted, houtcomes⟩ : ∃ s' : System FailureSimulator,
      Run (Guarded (Step sampleSetup {} poisonTopic) SettledBeforeCommit) s
        [.report 0 .acknowledged, .count, .commit] s' ∧
      s'.consumer.offsets.committed = s.consumer.offsets.position ∧
      s'.outcomes = s.outcomes := by
    refine ⟨_, Run.cons ⟨.report 0 .acknowledged hqueued (by rw [hpc]; rfl), trivial⟩ <|
      Run.cons ⟨.count hpc, trivial⟩ <| Run.single ⟨.commit rfl, hguard⟩, ?_, rfl⟩
    simp [Consumer.commit, Consumer.countPublished]
  have hone : s'.consumer.offsets.committed 0 = 1 := by rw [hcommitted, hposition]
  have hlast' : lastOutcome s'.outcomes (0, 0) = some h := by rw [houtcomes, hlast]
  refine ⟨s', h, hrun.append hrun', hone, hfailed, ?_⟩
  exact dead_letters_safe (hrun.append hrun') (0, 0) h hlast' hfailed (by simp [hone])

end OrderPipeline

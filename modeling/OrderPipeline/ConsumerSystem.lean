import OrderPipeline.Consumer
import OrderPipeline.Foundation.Delivery

/-!
# The consumer, its broker and its DLQ producer

`main` of `consumer/consumer.py` in small steps, so that delivery reports,
exceptions, an interrupt and a crash may fall between any two statements, and a
new process may follow the old one.

* `Pc` is where `main` stands: the loop head, the statements of the body, the
  `finally` block, and the states after it;
* `System` adds the DLQ producer with its messages in flight, and what has happened
  over all processes: the deeds, the outcomes of `execute`, and the faults;
* `Step` is the step relation over the partition logs of a topic.

Two theorems connect it.  `System.abs` projects it to the handle-first protocol, and
every step is one step of the protocol or none (`Step.abs`).  `head_of_run` goes the
other way: the loop heads of one process are those of `runLoop`.
-/

namespace OrderPipeline

open Runs

/-! ## The state -/

/-- The ways out of the `while` loop. -/
inductive Exit
  | stopped
  | interrupted
  | kafkaError
  | escaped
  deriving DecidableEq

/-- What `main` returns; an exception that it does not catch leaves it without a
status. -/
def Exit.status : Exit → Option ℤ
  | .stopped => some 0
  | .interrupted => some 0
  | .kafkaError => some 1
  | .escaped => none

/-- The way out for an exception that is raised in the `try` block. -/
def exitOf (exc : Exn) : Exit :=
  if exc.isInstance .kafkaException then .kafkaError else .escaped

/-- Where `main` stands: at the loop head, after `poll`, in the tombstone branch, in the
retry loop, after `execute`, in `publish` before and after `produce`, before the commit
with the record that has been published, if any, in the `finally` block, and after it. -/
inductive Pc
  | head
  | polled (m : Message)
  | skipping (m : Message)
  | attempting (m : Message) (order : Order) (remaining attempt : ℕ)
      (lastExc : Option Exn) (calls : List Call)
  | executed (m : Message) (order : Order) (outcome : RetryOutcome)
  | publishing (m : Message) (order : Order) (outcome : RetryOutcome)
  | produced (m : Message) (r : DlqRecord)
  | committing (m : Message) (r : Option DlqRecord)
  | closing (exit : Exit)
  | exited (exit : Exit) (outstanding : ℕ)
  | down

/-- Inside the `try` block. -/
def Pc.active : Pc → Bool
  | .closing _ => false
  | .exited _ _ => false
  | .down => false
  | _ => true

/-- While the DLQ producer may serve delivery reports. -/
def Pc.serving : Pc → Bool
  | .exited _ _ => false
  | .down => false
  | _ => true

/-- What counts as having handled a message. -/
inductive Deed
  | aggregated (m : Message)
  | handedOver (m : Message)
  | skipped (m : Message)

def Deed.message : Deed → Message
  | .aggregated m => m
  | .handedOver m => m
  | .skipped m => m

def Message.coordinates (m : Message) : ℕ × ℕ := (m.partition, m.offset)

def Deed.coordinates (d : Deed) : ℕ × ℕ := d.message.coordinates

/-- A process, its DLQ producer, and the history over all processes. -/
structure System (σ : Type) where
  pc : Pc
  consumer : Consumer σ
  delivery : Delivery DlqRecord
  history : List Deed
  outcomes : List Handling
  faults : ℕ

/-- The first process before its first pass. -/
def System.init {σ : Type} (effect₀ : σ) : System σ where
  pc := .head
  consumer := Consumer.fresh effect₀ CommitLog.Offsets.zero
  delivery := Delivery.empty
  history := []
  outcomes := []
  faults := 0

/-- Leave the `try` block with an exception. -/
def System.raise {σ : Type} (s : System σ) (exit : Exit) : System σ :=
  { s with pc := .closing exit, faults := s.faults + 1 }

/-! ## The steps -/

/-- What happens in one step: a statement of the loop or of `execute`, a delivery
report, an interrupt, a crash or a restart. -/
inductive Label
  | idle
  | receive (p : ℕ)
  | pollRaised (exc : Exn)
  | skip
  | begin
  | attempt
  | exhausted
  | branch
  | produce (failedAt : String)
  | publishRaised (exc : Exn)
  | count
  | commit
  | commitRaised (exc : Exn) (stored : Bool)
  | stop
  | interrupt
  | interruptBeforeCount
  | flush
  | report (i : ℕ) (r : Report)
  | crash
  | leave
  | restart (drawn : ℕ)

/-- The partition from which a step takes a record. -/
def Label.takes? : Label → Option ℕ
  | .receive p => some p
  | _ => none

/-- The steps after which the broker has stored the positions. -/
def Label.stores : Label → Bool
  | .commit => true
  | .commitRaised _ stored => stored
  | _ => false

def Label.isRestart : Label → Bool
  | .restart _ => true
  | _ => false

section Steps

variable {σ : Type} (setup : Setup σ) (effect₀ : σ) (t : Topic)

/-- One call of the closure `process` by the retry policy. -/
def Setup.tryOnce (order : Order) (attempt : ℕ) (c : Consumer σ) : Attempt (Work σ) :=
  setup.policy.attemptOnce (process setup.sideEffect order) attempt c.drawn c.work

/-- The deed that a call of `process` has done. -/
def deedOf (m : Message) : Except Exn Unit → List Deed
  | .ok () => [.aggregated m]
  | .error _ => []

/-- The steps of the system.  `flush` returns when the queue is empty or after its
timeout, so any number of reports may come before it. -/
inductive Step : System σ → Label → System σ → Prop
  | idle {s : System σ} (hpc : s.pc = .head) : Step s .idle s
  | receive {s : System σ} {p : ℕ} {r : Record} {m : Message} (hpc : s.pc = .head)
      (hr : (t.log p)[s.consumer.offsets.position p]? = some r)
      (hm : r.message? t.name p (s.consumer.offsets.position p) = some m) :
      Step s (.receive p) { s with pc := .polled m, consumer := s.consumer.receive m }
  | pollRaised {s : System σ} (exc : Exn) (hpc : s.pc = .head) :
      Step s (.pollRaised exc) (s.raise (exitOf exc))
  | skip {s : System σ} {m : Message} (hpc : s.pc = .polled m) (hvalue : m.value = none) :
      Step s .skip { s with pc := .skipping m, history := s.history ++ [.skipped m] }
  | begin {s : System σ} {m : Message} {order : Order} (hpc : s.pc = .polled m)
      (hvalue : m.value = some order) :
      Step s .begin
        { s with pc := .attempting m order setup.policy.maxAttempts.toNat 1 none [] }
  | returned {s : System σ} {m : Message} {order : Order} {remaining attempt : ℕ}
      {lastExc : Option Exn} {calls : List Call} {a : Attempt (Work σ)}
      {outcome : RetryOutcome}
      (hpc : s.pc = .attempting m order (remaining + 1) attempt lastExc calls)
      (ha : setup.tryOnce order attempt s.consumer = a)
      (hverdict : a.verdict = .returned outcome) :
      Step s .attempt
        { s with
          pc := .executed m order outcome
          consumer := s.consumer.settle a.state a.drawn
            ⟨m, order, outcome, calls ++ [.invoked a.result]⟩
          history := s.history ++ deedOf m a.result
          outcomes := s.outcomes ++ [⟨m, order, outcome, calls ++ [.invoked a.result]⟩] }
  | again {s : System σ} {m : Message} {order : Order} {remaining attempt : ℕ}
      {lastExc : Option Exn} {calls : List Call} {a : Attempt (Work σ)} {exc : Exn}
      {delay : PyFloat}
      (hpc : s.pc = .attempting m order (remaining + 1) attempt lastExc calls)
      (ha : setup.tryOnce order attempt s.consumer = a)
      (hverdict : a.verdict = .again exc delay) :
      Step s .attempt
        { s with
          pc := .attempting m order remaining (attempt + 1) (some exc)
            (calls ++ [.invoked a.result, .slept delay])
          consumer := { s.consumer with work := a.state, drawn := a.drawn } }
  | escaped {s : System σ} {m : Message} {order : Order} {remaining attempt : ℕ}
      {lastExc : Option Exn} {calls : List Call} {a : Attempt (Work σ)} {exc : Exn}
      (hpc : s.pc = .attempting m order (remaining + 1) attempt lastExc calls)
      (ha : setup.tryOnce order attempt s.consumer = a)
      (hverdict : a.verdict = .escaped exc) :
      Step s .attempt
        (({ s with
          consumer := { s.consumer with work := a.state, drawn := a.drawn } } :
            System σ).raise (exitOf exc))
  | exhausted {s : System σ} {m : Message} {order : Order} {attempt : ℕ}
      {lastExc : Option Exn} {calls : List Call}
      (hpc : s.pc = .attempting m order 0 attempt lastExc calls) :
      Step s .exhausted
        { s with
          pc := .executed m order (setup.policy.failure lastExc)
          consumer := s.consumer.settle s.consumer.work s.consumer.drawn
            ⟨m, order, setup.policy.failure lastExc, calls⟩
          outcomes := s.outcomes ++ [⟨m, order, setup.policy.failure lastExc, calls⟩] }
  | succeeded {s : System σ} {m : Message} {order : Order} {outcome : RetryOutcome}
      (hpc : s.pc = .executed m order outcome) (houtcome : outcome.succeeded = true) :
      Step s .branch
        { s with pc := .committing m none, consumer := s.consumer.countProcessed }
  | failed {s : System σ} {m : Message} {order : Order} {outcome : RetryOutcome}
      (hpc : s.pc = .executed m order outcome) (houtcome : outcome.succeeded = false) :
      Step s .branch
        { s with pc := .publishing m order outcome, consumer := s.consumer.countFailed }
  | produce {s : System σ} {m : Message} {order : Order} {outcome : RetryOutcome}
      {r : DlqRecord} (failedAt : String) (hpc : s.pc = .publishing m order outcome)
      (hr : dlqRecordOf setup.dlqTopic m order outcome failedAt = .ok r) :
      Step s (.produce failedAt)
        { s with
          pc := .produced m r
          consumer := s.consumer.enqueue r
          delivery := s.delivery.produce r
          history := s.history ++ [.handedOver m] }
  | publishRaised {s : System σ} {m : Message} {order : Order} {outcome : RetryOutcome}
      (exc : Exn) (hpc : s.pc = .publishing m order outcome) :
      Step s (.publishRaised exc) (s.raise (exitOf exc))
  | count {s : System σ} {m : Message} {r : DlqRecord} (hpc : s.pc = .produced m r) :
      Step s .count
        { s with pc := .committing m (some r), consumer := s.consumer.countPublished }
  | commitSkipped {s : System σ} {m : Message} (hpc : s.pc = .skipping m) :
      Step s .commit { s with pc := .head, consumer := s.consumer.commit }
  | commit {s : System σ} {m : Message} {r : Option DlqRecord}
      (hpc : s.pc = .committing m r) :
      Step s .commit
        { s with
          pc := .head
          consumer := s.consumer.commit.summarize setup.summaryEvery }
  | commitRaised {s : System σ} (exc : Exn) (stored : Bool)
      (hpc : (∃ m, s.pc = .skipping m) ∨ ∃ m r, s.pc = .committing m r) :
      Step s (.commitRaised exc stored)
        (({ s with
          consumer := if stored then s.consumer.commitLost else s.consumer } :
            System σ).raise (exitOf exc))
  | stop {s : System σ} (hpc : s.pc = .head) :
      Step s .stop { s with pc := .closing .stopped }
  | interrupt {s : System σ} (hactive : s.pc.active = true)
      (hpc : ∀ m r, s.pc ≠ .produced m r) :
      Step s .interrupt (s.raise .interrupted)
  | interruptBeforeCount {s : System σ} {m : Message} {r : DlqRecord}
      (hpc : s.pc = .produced m r) :
      Step s .interruptBeforeCount (s.raise .interrupted)
  | flush {s : System σ} {exit : Exit} (hpc : s.pc = .closing exit) :
      Step s .flush { s with pc := .exited exit s.delivery.queue.length }
  | report {s : System σ} (i : ℕ) (r : Report) (hi : i < s.delivery.queue.length)
      (hpc : s.pc.serving = true) :
      Step s (.report i r) { s with delivery := s.delivery.report i r }
  | crash {s : System σ} (hactive : s.pc.active = true) :
      Step s .crash
        { s with pc := .down, delivery := s.delivery.drop, faults := s.faults + 1 }
  | leave {s : System σ}
      (hpc : (∃ exit, s.pc = .closing exit) ∨ ∃ exit n, s.pc = .exited exit n) :
      Step s .leave { s with pc := .down, delivery := s.delivery.drop }
  | restart {s : System σ} (drawn : ℕ) (hpc : s.pc = .down) :
      Step s (.restart drawn)
        { s with
          pc := .head
          consumer := { Consumer.fresh effect₀ s.consumer.offsets.rewind with
            drawn := drawn } }

/-! ## The handle-first protocol under it -/

/-- The phase of the protocol.  A success is handled once `execute` has returned, a
failure once its record has been handed over. -/
def Pc.phase : Pc → CommitLog.Phase ℕ
  | .head => .idle
  | .polled m => .taken m.partition m.offset
  | .skipping m => .settled m.partition m.offset
  | .attempting m _ _ _ _ _ => .taken m.partition m.offset
  | .executed m _ outcome =>
    if outcome.succeeded then .settled m.partition m.offset
    else .taken m.partition m.offset
  | .publishing m _ _ => .taken m.partition m.offset
  | .produced m _ => .settled m.partition m.offset
  | .committing m _ => .settled m.partition m.offset
  | .closing _ => .down
  | .exited _ _ => .down
  | .down => .down

/-- The protocol state of the system. -/
def System.abs (s : System σ) : CommitLog.State ℕ where
  offsets := s.consumer.offsets
  phase := s.pc.phase
  handled := s.history.map Deed.coordinates
  faults := s.faults

variable {setup effect₀ t}

/-- A call of `process` that ends `execute` has done a deed exactly when the outcome
is a success. -/
theorem Setup.tryOnce_returned {order : Order} {attempt : ℕ} {c : Consumer σ}
    {outcome : RetryOutcome}
    (h : (setup.tryOnce order attempt c).verdict = .returned outcome) (m : Message) :
    (outcome.succeeded = true ∧
        deedOf m (setup.tryOnce order attempt c).result = [.aggregated m]) ∨
      (outcome.succeeded = false ∧
        deedOf m (setup.tryOnce order attempt c).result = []) := by
  unfold Setup.tryOnce at h ⊢
  rcases setup.policy.attemptOnce_cases (process setup.sideEffect order) attempt c.drawn
      c.work with ⟨w, -, ha⟩ | ⟨exc, w, -, ⟨-, ha⟩ | ⟨-, ⟨e, -, ha⟩ | ⟨delay, n, -, ha⟩⟩⟩
  · rw [ha] at h ⊢
    cases h
    exact Or.inl ⟨rfl, rfl⟩
  · rw [ha] at h ⊢
    cases h
    exact Or.inr ⟨rfl, rfl⟩
  · rw [ha] at h
    cases h
  · rw [ha] at h
    cases h

/-- Inside the `try` block the protocol is not down. -/
theorem Pc.phase_ne_down {pc : Pc} (h : pc.active = true) : pc.phase ≠ .down := by
  cases pc with
  | executed m order outcome =>
      by_cases hsucceeded : outcome.succeeded = true <;> simp [Pc.phase, hsucceeded]
  | closing exit => cases h
  | exited exit n => cases h
  | down => cases h
  | _ => simp [Pc.phase]

/-- An exception is a failure of the protocol. -/
theorem System.raise_abs {parts : Finset ℕ} {s : System σ} (hactive : s.pc.active = true)
    (exit : Exit) : CommitLog.Step parts s.abs .fail (s.raise exit).abs :=
  .fail (Pc.phase_ne_down hactive)

/-- A deed settles the record that has been taken. -/
theorem System.settle_abs {parts : Finset ℕ} {s s' : System σ} {d : Deed}
    (hphase : s.pc.phase = .taken d.message.partition d.message.offset)
    (hphase' : s'.pc.phase = .settled d.message.partition d.message.offset)
    (hoffsets : s'.consumer.offsets = s.consumer.offsets)
    (hhistory : s'.history = s.history ++ [d]) (hfaults : s'.faults = s.faults) :
    CommitLog.Step parts s.abs .settle s'.abs := by
  have hsettle : CommitLog.Step parts s.abs .settle _ := .settle hphase
  have htarget : s'.abs = { s.abs with
      phase := .settled d.message.partition d.message.offset
      handled := s.abs.handled ++ [d.coordinates] } := by
    simp [System.abs, hphase', hoffsets, hhistory, hfaults]
  rw [htarget]
  exact hsettle

/-- A call of `process` that ends `execute` settles the record or leaves it taken. -/
theorem System.returned_abs {parts : Finset ℕ} {s s' : System σ} {m : Message}
    {order : Order} {outcome : RetryOutcome} {deeds : List Deed}
    (hphase : s.pc.phase = .taken m.partition m.offset)
    (hpc' : s'.pc = .executed m order outcome)
    (hdeeds : outcome.succeeded = true ∧ deeds = [.aggregated m] ∨
      outcome.succeeded = false ∧ deeds = [])
    (hoffsets : s'.consumer.offsets = s.consumer.offsets)
    (hhistory : s'.history = s.history ++ deeds) (hfaults : s'.faults = s.faults) :
    s'.abs = s.abs ∨ CommitLog.Step parts s.abs .settle s'.abs := by
  rcases hdeeds with ⟨hsucceeded, rfl⟩ | ⟨hfailed, rfl⟩
  · have hphase' : s'.pc.phase = .settled m.partition m.offset := by
      simp [hpc', Pc.phase, hsucceeded]
    exact Or.inr (System.settle_abs (d := .aggregated m) hphase hphase' hoffsets
      hhistory hfaults)
  · have hphase' : s'.pc.phase = .taken m.partition m.offset := by
      simp [hpc', Pc.phase, hfailed]
    refine Or.inl ?_
    simp [System.abs, hphase, hphase', hoffsets, hhistory, hfaults]

/-- A commit that returns is a commit of the protocol. -/
theorem System.commit_abs {parts : Finset ℕ} {s s' : System σ} {m : Message}
    (hphase : s.pc.phase = .settled m.partition m.offset) (hpc' : s'.pc = .head)
    (hoffsets : s'.consumer.offsets = s.consumer.offsets.commit)
    (hhistory : s'.history = s.history) (hfaults : s'.faults = s.faults) :
    CommitLog.Step parts s.abs .commit s'.abs := by
  have hcommit : CommitLog.Step parts s.abs .commit _ := .commit hphase
  have htarget : s'.abs = { s.abs with
      offsets := s.abs.offsets.commit
      phase := .idle } := by
    simp [System.abs, hpc', Pc.phase, hoffsets, hhistory, hfaults]
  rw [htarget]
  exact hcommit

/-- A commit that raises fails before the offsets are stored or after it. -/
theorem System.commitRaised_abs {parts : Finset ℕ} {s : System σ} {m : Message}
    (hphase : s.pc.phase = .settled m.partition m.offset) (exit : Exit) (stored : Bool) :
    CommitLog.Step parts s.abs (if stored then .failAfterCommit else .fail) (({ s with
      consumer := if stored then s.consumer.commitLost else s.consumer } :
        System σ).raise exit).abs := by
  cases stored with
  | false =>
      have hdown : s.abs.phase ≠ .down := by simp [System.abs, hphase]
      exact .fail hdown
  | true => exact .failAfterCommit hphase

/-- An event of the protocol shows what the broker sees of a step. -/
structure Label.Shows (l : Label) (e : CommitLog.Event ℕ) : Prop where
  takes : e.takes? = l.takes?
  stores : e.stores = l.stores
  restart : e.isRestart = l.isRestart

/-- The broker sees nothing of a step. -/
structure Label.Silent (l : Label) : Prop where
  takes : l.takes? = none
  stores : l.stores = false
  restart : l.isRestart = false

/-- The broker does not see that a record is handled. -/
theorem Label.Silent.settles {l : Label} (hl : l.Silent) {parts : Finset ℕ} {s s' : System σ}
    (h : s'.abs = s.abs ∨ CommitLog.Step parts s.abs .settle s'.abs) :
    (l.Silent ∧ s'.abs = s.abs) ∨ ∃ e, l.Shows e ∧ CommitLog.Step parts s.abs e s'.abs := by
  rcases h with hsame | hsettle
  · exact Or.inl ⟨hl, hsame⟩
  · exact Or.inr ⟨.settle, ⟨hl.takes.symm, hl.stores.symm, hl.restart.symm⟩, hsettle⟩

/-- **Refinement.**  Every step of the system is one step of the protocol or none, which
shows what the broker sees of it. -/
theorem Step.refines {s s' : System σ} {l : Label} (h : Step setup effect₀ t s l s') :
    (l.Silent ∧ s'.abs = s.abs) ∨
      ∃ e, l.Shows e ∧ CommitLog.Step t.parts s.abs e s'.abs := by
  cases h with
  | idle hpc => exact Or.inl ⟨⟨rfl, rfl, rfl⟩, rfl⟩
  | @receive p r m hpc hr hm =>
      obtain ⟨hpartition, hoffset⟩ := Record.message?_coordinates hm
      have hphase : s.abs.phase = .idle := by simp [System.abs, Pc.phase, hpc]
      have htake := CommitLog.Step.take p hphase (Topic.mem_parts hr)
      refine Or.inr ⟨.take p, ⟨rfl, rfl, rfl⟩, ?_⟩
      simpa [System.abs, Pc.phase, Consumer.receive, hpartition, hoffset] using htake
  | pollRaised exc hpc =>
      exact Or.inr ⟨.fail, ⟨rfl, rfl, rfl⟩, System.raise_abs (by simp [Pc.active, hpc]) _⟩
  | @skip m hpc hvalue =>
      have hphase : s.pc.phase = .taken m.partition m.offset := by simp [Pc.phase, hpc]
      exact Or.inr ⟨.settle, ⟨rfl, rfl, rfl⟩,
        System.settle_abs (d := .skipped m) hphase rfl rfl rfl rfl⟩
  | begin hpc hvalue =>
      exact Or.inl ⟨⟨rfl, rfl, rfl⟩, by simp [System.abs, Pc.phase, hpc]⟩
  | @returned m order remaining attempt lastExc calls a outcome hpc ha hverdict =>
      subst ha
      have hphase : s.pc.phase = .taken m.partition m.offset := by simp [Pc.phase, hpc]
      refine Label.Silent.settles ⟨rfl, rfl, rfl⟩ ?_
      exact System.returned_abs hphase rfl (Setup.tryOnce_returned hverdict m) rfl rfl rfl
  | again hpc ha hverdict =>
      exact Or.inl ⟨⟨rfl, rfl, rfl⟩, by simp [System.abs, Pc.phase, hpc]⟩
  | escaped hpc ha hverdict =>
      have hactive : s.pc.active = true := by simp [Pc.active, hpc]
      exact Or.inr ⟨.fail, ⟨rfl, rfl, rfl⟩, .fail (Pc.phase_ne_down hactive)⟩
  | exhausted hpc =>
      exact Or.inl ⟨⟨rfl, rfl, rfl⟩, by
        simp [System.abs, Pc.phase, hpc, RetryPolicy.failure, Consumer.settle]⟩
  | succeeded hpc houtcome =>
      exact Or.inl ⟨⟨rfl, rfl, rfl⟩, by
        simp [System.abs, Pc.phase, hpc, houtcome, Consumer.countProcessed]⟩
  | failed hpc houtcome =>
      exact Or.inl ⟨⟨rfl, rfl, rfl⟩, by
        simp [System.abs, Pc.phase, hpc, houtcome, Consumer.countFailed]⟩
  | @produce m order outcome r failedAt hpc hr =>
      have hphase : s.pc.phase = .taken m.partition m.offset := by simp [Pc.phase, hpc]
      exact Or.inr ⟨.settle, ⟨rfl, rfl, rfl⟩,
        System.settle_abs (d := .handedOver m) hphase rfl rfl rfl rfl⟩
  | publishRaised exc hpc =>
      exact Or.inr ⟨.fail, ⟨rfl, rfl, rfl⟩, System.raise_abs (by simp [Pc.active, hpc]) _⟩
  | count hpc =>
      exact Or.inl ⟨⟨rfl, rfl, rfl⟩, by
        simp [System.abs, Pc.phase, hpc, Consumer.countPublished]⟩
  | @commitSkipped m hpc =>
      have hphase : s.pc.phase = .settled m.partition m.offset := by simp [Pc.phase, hpc]
      exact Or.inr ⟨.commit, ⟨rfl, rfl, rfl⟩, System.commit_abs hphase rfl rfl rfl rfl⟩
  | @commit m r hpc =>
      have hphase : s.pc.phase = .settled m.partition m.offset := by simp [Pc.phase, hpc]
      have hoffsets := Consumer.summarize_offsets setup.summaryEvery s.consumer.commit
      exact Or.inr ⟨.commit, ⟨rfl, rfl, rfl⟩, System.commit_abs hphase rfl hoffsets rfl rfl⟩
  | commitRaised exc stored hpc =>
      obtain ⟨m, hphase⟩ : ∃ m : Message, s.pc.phase = .settled m.partition m.offset := by
        rcases hpc with ⟨m, hpc⟩ | ⟨m, r, hpc⟩
        · exact ⟨m, by simp [Pc.phase, hpc]⟩
        · exact ⟨m, by simp [Pc.phase, hpc]⟩
      refine Or.inr ⟨if stored then .failAfterCommit else .fail, ?_,
        System.commitRaised_abs hphase _ stored⟩
      cases stored <;> exact ⟨rfl, rfl, rfl⟩
  | stop hpc =>
      have hphase : s.abs.phase = .idle := by simp [System.abs, Pc.phase, hpc]
      exact Or.inr ⟨.stop, ⟨rfl, rfl, rfl⟩, .stop hphase⟩
  | interrupt hactive hpc =>
      exact Or.inr ⟨.fail, ⟨rfl, rfl, rfl⟩, System.raise_abs hactive _⟩
  | interruptBeforeCount hpc =>
      exact Or.inr ⟨.fail, ⟨rfl, rfl, rfl⟩, System.raise_abs (by simp [Pc.active, hpc]) _⟩
  | flush hpc => exact Or.inl ⟨⟨rfl, rfl, rfl⟩, by simp [System.abs, Pc.phase, hpc]⟩
  | report i r hi hpc => exact Or.inl ⟨⟨rfl, rfl, rfl⟩, rfl⟩
  | crash hactive =>
      exact Or.inr ⟨.fail, ⟨rfl, rfl, rfl⟩, .fail (Pc.phase_ne_down hactive)⟩
  | leave hpc =>
      refine Or.inl ⟨⟨rfl, rfl, rfl⟩, ?_⟩
      rcases hpc with ⟨exit, hpc⟩ | ⟨exit, n, hpc⟩
      · simp [System.abs, Pc.phase, hpc]
      · simp [System.abs, Pc.phase, hpc]
  | restart drawn hpc =>
      have hphase : s.abs.phase = .down := by simp [System.abs, Pc.phase, hpc]
      exact Or.inr ⟨.restart, ⟨rfl, rfl, rfl⟩, .restart hphase⟩

/-- The simulation in one line: a step of the system either is invisible to the commit
log or is one of its steps. -/
theorem Step.abs {s s' : System σ} {l : Label} (h : Step setup effect₀ t s l s') :
    s'.abs = s.abs ∨ ∃ e, CommitLog.Step t.parts s.abs e s'.abs := by
  rcases h.refines with ⟨-, hsame⟩ | ⟨e, -, hstep⟩
  · exact Or.inl hsame
  · exact Or.inr ⟨e, hstep⟩

/-- **Run lemma.**  The protocol's invariant holds in every state of every run. -/
theorem System.inv_of_run {s : System σ} {ls : List Label}
    (hrun : Run (Step setup effect₀ t) (System.init effect₀) ls s) :
    CommitLog.Inv t.parts s.abs := by
  obtain ⟨es, habs⟩ := hrun.project System.abs (fun _ _ _ h => h.abs)
  exact CommitLog.Inv.of_run habs

/-- How the positions stand to the committed ones where `main` stands. -/
theorem System.aligned_at {parts : Finset ℕ} {s : System σ} {pc : Pc}
    (hinv : CommitLog.Inv parts s.abs) (hpc : s.pc = pc) :
    CommitLog.Aligned parts s.consumer.offsets pc.phase := by
  rw [← hpc]
  exact hinv.aligned

/-! ## The loop above it -/

/-- What follows the outcome branches: the commit and the interim summary. -/
def finishCommit (setup : Setup σ) (tick : Tick) (c : Consumer σ) : Pass σ :=
  (commitSync tick c).andThen fun c => .next (c.summarize setup.summaryEvery)

/-- The rest of the pass from where `main` stands. -/
def finish (setup : Setup σ) (tick : Tick) : Pc → Consumer σ → Pass σ
  | .polled m, c =>
    match m.value with
    | none => commitSync tick c
    | some order => handle setup tick m order c
  | .skipping _, c => commitSync tick c
  | .attempting m order remaining attempt lastExc calls, c =>
    let e := setup.policy.executeFrom (process setup.sideEffect order) remaining attempt
      lastExc c.drawn c.work
    match e.result with
    | .error exc => .raised { c with work := e.state, drawn := e.drawn } exc
    | .ok outcome =>
      route setup tick m order outcome
        (c.settle e.state e.drawn ⟨m, order, outcome, calls ++ e.calls⟩)
  | .executed m order outcome, c => route setup tick m order outcome c
  | .publishing m order outcome, c =>
    (publish setup tick m order outcome c).andThen (finishCommit setup tick)
  | .produced _ _, c => finishCommit setup tick c.countPublished
  | .committing _ _, c => finishCommit setup tick c
  | _, c => .next c

/-- Once the record has been handed over, its time stamp is fixed and `produce` has
returned. -/
def Tick.Agrees (tick tick' : Tick) : Pc → Prop
  | .produced _ _ | .committing _ (some _) =>
    tick'.poll = tick.poll ∧ tick'.failedAt = tick.failedAt ∧ tick'.produceFault = none
  | _ => tick'.poll = tick.poll

/-- Inside the body of the loop. -/
def Pc.inBody : Pc → Bool
  | .head => false
  | pc => pc.active

/-- Where a process that started with `c₀` is: at a head of `runLoop`, or inside the
pass that follows some passes of it. -/
structure Underway (setup : Setup σ) (c₀ : Consumer σ) (s : System σ) : Prop where
  head : s.pc = .head → ∃ ticks, runLoop setup ticks c₀ = .next s.consumer
  body : s.pc.inBody = true →
    ∃ (ticks : List Tick) (tick : Tick) (c : Consumer σ),
      runLoop setup ticks c₀ = .next c ∧
      ∀ tick', tick.Agrees tick' s.pc →
        iterate setup tick' c = finish setup tick' s.pc s.consumer

/-- Out of the loop nothing is claimed. -/
theorem Underway.of_inactive {c₀ : Consumer σ} {s : System σ}
    (h : s.pc.active = false) : Underway setup c₀ s where
  head := by
    intro hpc
    rw [hpc] at h
    cases h
  body := by
    intro hbody
    cases hpc : s.pc <;> simp_all [Pc.inBody, Pc.active]

/-- A step inside the body that does a part of the rest. -/
theorem Underway.advance {c₀ : Consumer σ} {s s' : System σ} {pc : Pc}
    (h : Underway setup c₀ s) (hpc : s.pc = pc) (hbody : pc.inBody = true)
    (hbody' : s'.pc.inBody = true)
    (hagrees : ∀ tick tick' : Tick, tick.Agrees tick' s'.pc → tick.Agrees tick' pc)
    (hfinish : ∀ tick, finish setup tick pc s.consumer =
      finish setup tick s'.pc s'.consumer) : Underway setup c₀ s' where
  head := by
    intro hhead
    rw [hhead] at hbody'
    cases hbody'
  body := by
    intro _
    subst hpc
    obtain ⟨ticks, tick, c, hrun, hrest⟩ := h.body hbody
    refine ⟨ticks, tick, c, hrun, ?_⟩
    intro tick' htick'
    rw [hrest tick' (hagrees tick tick' htick'), hfinish tick']

/-- The commit that returns ends the pass: nothing of it is left, and the next loop head
is that of the run with one more tick. -/
theorem Underway.complete {c₀ : Consumer σ} {s s' : System σ} {pc : Pc}
    (h : Underway setup c₀ s) (hpc : s.pc = pc) (hbody : pc.inBody = true)
    (hpc' : s'.pc = .head)
    (hfinish : ∀ tick : Tick, tick.commitFault = none →
      finish setup tick pc s.consumer = .next s'.consumer) : Underway setup c₀ s' where
  head := by
    intro _
    subst hpc
    obtain ⟨ticks, tick, c, hrun, hrest⟩ := h.body hbody
    obtain ⟨tick', hagrees, hcommit⟩ : ∃ tick' : Tick, tick.Agrees tick' s.pc ∧
        tick'.commitFault = none := by
      refine ⟨{ poll := tick.poll, failedAt := tick.failedAt }, ?_, rfl⟩
      unfold Tick.Agrees
      split <;> simp
    refine ⟨ticks ++ [tick'], runLoop_snoc_next.mpr ⟨c, hrun, ?_⟩⟩
    rw [hrest tick' hagrees, hfinish tick' hcommit]
  body := by
    intro hbody'
    rw [hpc'] at hbody'
    cases hbody'

/-- `finish` follows the attempts of `execute`: an attempt that returns goes on to the
branches, and one that is to be repeated leaves one attempt fewer. -/
theorem finish_attempt {order : Order} {m : Message} {remaining attempt : ℕ}
    {lastExc : Option Exn} {calls : List Call} (tick : Tick) (c : Consumer σ) :
    (∀ outcome, (setup.tryOnce order attempt c).verdict = .returned outcome →
      finish setup tick (.attempting m order (remaining + 1) attempt lastExc calls) c =
        finish setup tick (.executed m order outcome)
          (c.settle (setup.tryOnce order attempt c).state
            (setup.tryOnce order attempt c).drawn
            ⟨m, order, outcome, calls ++ [.invoked (setup.tryOnce order attempt c).result]⟩)) ∧
    (∀ exc delay, (setup.tryOnce order attempt c).verdict = .again exc delay →
      finish setup tick (.attempting m order (remaining + 1) attempt lastExc calls) c =
        finish setup tick
          (.attempting m order remaining (attempt + 1) (some exc)
            (calls ++ [.invoked (setup.tryOnce order attempt c).result, .slept delay]))
          { c with
            work := (setup.tryOnce order attempt c).state
            drawn := (setup.tryOnce order attempt c).drawn }) := by
  constructor
  · intro outcome hverdict
    unfold Setup.tryOnce at hverdict
    simp only [finish, RetryPolicy.executeFrom, hverdict]
    rfl
  · intro exc delay hverdict
    unfold Setup.tryOnce at hverdict
    simp only [finish, RetryPolicy.executeFrom, hverdict, Setup.tryOnce,
      List.append_assoc, List.cons_append, List.nil_append]
    generalize setup.policy.executeFrom _ remaining (attempt + 1) (some exc) _ _ = rest
    obtain ⟨_ | _, _, _, _⟩ := rest <;> rfl

/-- **Step lemma.** A step of the process does a part of the pass: what is left of the
pass afterwards ends in the same state as what was left before. -/
theorem Underway.step {c₀ : Consumer σ} {s s' : System σ} {l : Label}
    (hunder : Underway setup c₀ s) (hstep : Step setup effect₀ t s l s')
    (hl : ∀ drawn, l ≠ .restart drawn) : Underway setup c₀ s' := by
  cases hstep with
  | idle hpc => exact hunder
  | @receive p r m hpc hr hm =>
      obtain ⟨ticks, hrun⟩ := hunder.head hpc
      refine ⟨fun h => (by cases h), fun _ =>
        ⟨ticks, { poll := .message m }, s.consumer, hrun, ?_⟩⟩
      intro tick' hpoll
      have hpoll' : tick'.poll = .message m := hpoll
      cases hvalue : m.value with
      | none => simp only [iterate, finish, hpoll', hvalue]
      | some order => simp only [iterate, finish, hpoll', hvalue]
  | pollRaised exc hpc => exact Underway.of_inactive rfl
  | @skip m hpc hvalue =>
      refine hunder.advance hpc rfl rfl (fun _ _ h => h) ?_
      simp [finish, hvalue]
  | @begin m order hpc hvalue =>
      refine hunder.advance hpc rfl rfl (fun _ _ h => h) ?_
      intro tick
      simp only [finish, hvalue]
      rfl
  | @returned m order remaining attempt lastExc calls a outcome hpc ha hverdict =>
      subst ha
      exact hunder.advance hpc rfl rfl (fun _ _ h => h)
        (fun tick => (finish_attempt tick s.consumer).1 outcome hverdict)
  | @again m order remaining attempt lastExc calls a exc delay hpc ha hverdict =>
      subst ha
      exact hunder.advance hpc rfl rfl (fun _ _ h => h)
        (fun tick => (finish_attempt tick s.consumer).2 exc delay hverdict)
  | escaped hpc ha hverdict => exact Underway.of_inactive rfl
  | exhausted hpc =>
      refine hunder.advance hpc rfl rfl (fun _ _ h => h) ?_
      intro tick
      simp [finish, RetryPolicy.executeFrom]
  | succeeded hpc houtcome =>
      refine hunder.advance hpc rfl rfl (fun _ _ h => h) ?_
      intro tick
      simp only [finish, route, houtcome, if_true]
      rfl
  | failed hpc houtcome =>
      refine hunder.advance hpc rfl rfl (fun _ _ h => h) ?_
      intro tick
      simp only [finish, route, houtcome, Bool.false_eq_true, if_false]
      rfl
  | @produce m order outcome r failedAt hpc hr =>
      refine ⟨fun h => (by cases h), fun _ => ?_⟩
      obtain ⟨ticks, tick, c, hrun, hrest⟩ := hunder.body (by rw [hpc]; rfl)
      refine ⟨ticks, { poll := tick.poll, failedAt := failedAt }, c, hrun, ?_⟩
      rintro tick' ⟨hpoll, hstamp, hproduce⟩
      have hagrees : tick.Agrees tick' s.pc := by
        rw [hpc]
        exact hpoll
      have hstamp' : tick'.failedAt = failedAt := hstamp
      rw [hrest tick' hagrees]
      simp only [hpc, finish, publish, hstamp', hr, hproduce]
      rfl
  | publishRaised exc hpc => exact Underway.of_inactive rfl
  | count hpc =>
      exact hunder.advance hpc rfl rfl (fun _ _ h => h) (fun _ => rfl)
  | commitSkipped hpc =>
      refine hunder.complete hpc rfl rfl ?_
      intro tick hcommit
      simp [finish, commitSync, hcommit]
  | commit hpc =>
      refine hunder.complete hpc rfl rfl ?_
      intro tick hcommit
      simp [finish, finishCommit, commitSync, hcommit]
  | commitRaised exc stored hpc => exact Underway.of_inactive rfl
  | stop hpc => exact Underway.of_inactive rfl
  | interrupt hactive hpc => exact Underway.of_inactive rfl
  | interruptBeforeCount hpc => exact Underway.of_inactive rfl
  | flush hpc => exact Underway.of_inactive rfl
  | report i r hi hpc => exact ⟨hunder.head, hunder.body⟩
  | crash hactive => exact Underway.of_inactive rfl
  | leave hpc => exact Underway.of_inactive rfl
  | restart drawn hpc => exact absurd rfl (hl drawn)

/-- **The loop of one process.**  The variables at a loop head are those that
`runLoop` computes from the variables at an earlier head of the same process. -/
theorem head_of_run {s s' : System σ} {ls : List Label}
    (hrun : Run (Step setup effect₀ t) s ls s')
    (hprocess : ∀ l ∈ ls, ∀ drawn, l ≠ .restart drawn)
    (hpc : s.pc = .head) (hpc' : s'.pc = .head) :
    ∃ ticks, runLoop setup ticks s.consumer = .next s'.consumer := by
  have hunder : (∀ l ∈ ls, ∀ drawn, l ≠ .restart drawn) →
      Underway setup s.consumer s' := by
    refine hrun.trace_invariant (fun ls s' => (∀ l ∈ ls, ∀ drawn, l ≠ .restart drawn) →
      Underway setup s.consumer s') ?_ ?_
    · intro _
      refine ⟨fun _ => ⟨[], rfl⟩, ?_⟩
      intro hbody
      rw [hpc] at hbody
      cases hbody
    · intro ms u l v ih hstep hlabels
      have hbefore := ih fun l hl => hlabels l (List.mem_append_left _ hl)
      exact hbefore.step hstep (hlabels l (by simp))
  exact (hunder hprocess).head hpc'

end Steps

end OrderPipeline

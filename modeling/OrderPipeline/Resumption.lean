import OrderPipeline.AtLeastOnce
import OrderPipeline.HeadOfLine
import OrderPipeline.InterleavingIndependence

/-!
# Resuming after anything

A completed pass of the loop is a run of the system in which nothing fails
(`pass_serves`), so what is proved about `runLoop` can be made to happen in small
steps.  With it, whatever has happened before and whichever process has died, the
next process can finish the topic: it starts at the committed positions, handles each
order that is left exactly once, and leaves no dead letter undelivered (`resumes`).
The topic must not hold a record that blocks its partition.
-/

namespace OrderPipeline

open Runs

/-- Nothing fails in the step: no exception, no interrupt, no crash, and no report
with an error. -/
def Label.quiet : Label → Bool
  | .idle | .receive _ | .skip | .begin | .attempt | .exhausted | .branch | .produce _
  | .count | .commit => true
  | .report _ .acknowledged => true
  | _ => false

section Passes

variable {σ : Type} (setup : Setup σ) (effect₀ : σ) (t : Topic)

/-- A run of steps in which nothing fails. -/
def Quietly (s s' : System σ) : Prop :=
  ∃ ls, Run (Step setup effect₀ t) s ls s' ∧ ∀ l ∈ ls, l.quiet = true

/-- The system gets from one loop head to another without a failure.  It handles `hs`,
and the copies of those that failed are acknowledged at the end. -/
structure Serves (s s' : System σ) (hs : List Handling) : Prop where
  quietly : Quietly setup effect₀ t s s'
  pc : s'.pc = .head
  outcomes : s'.outcomes = s.outcomes ++ hs
  delivery : ∃ ds, s'.delivery = ⟨[], s.delivery.acked ++ ds, s.delivery.failed⟩ ∧
    List.Forall₂ (Handling.PublishedAs setup.dlqTopic) (failedOf hs) ds
  faults : s'.faults = s.faults

variable {setup effect₀ t}

theorem Quietly.refl (s : System σ) : Quietly setup effect₀ t s s :=
  ⟨[], Run.nil, by simp⟩

/-- Two quiet runs in a row. -/
theorem Quietly.trans {s u s' : System σ} (h : Quietly setup effect₀ t s u)
    (h' : Quietly setup effect₀ t u s') : Quietly setup effect₀ t s s' := by
  obtain ⟨ls, hrun, hquiet⟩ := h
  obtain ⟨ms, hrun', hquiet'⟩ := h'
  refine ⟨ls ++ ms, hrun.append hrun', ?_⟩
  intro l hl
  rcases List.mem_append.mp hl with hl | hl
  · exact hquiet l hl
  · exact hquiet' l hl

theorem Quietly.step {s u s' : System σ} {l : Label} (h : Step setup effect₀ t s l u)
    (hl : l.quiet = true) (h' : Quietly setup effect₀ t u s') :
    Quietly setup effect₀ t s s' :=
  Quietly.trans ⟨[l], Run.single h, by simpa using hl⟩ h'

/-- At a loop head with an empty queue, nothing is left to do for no handlings. -/
theorem Serves.refl {s : System σ} (hpc : s.pc = .head) (hqueue : s.delivery.queue = []) :
    Serves setup effect₀ t s s [] where
  quietly := Quietly.refl s
  pc := hpc
  outcomes := (List.append_nil _).symm
  delivery := by
    refine ⟨[], ?_, List.Forall₂.nil⟩
    rw [List.append_nil, ← hqueue]
  faults := rfl

/-- To serve some records and then others is to serve them all. -/
theorem Serves.trans {s u s' : System σ} {hs hs' : List Handling}
    (h : Serves setup effect₀ t s u hs) (h' : Serves setup effect₀ t u s' hs') :
    Serves setup effect₀ t s s' (hs ++ hs') where
  quietly := h.quietly.trans h'.quietly
  pc := h'.pc
  outcomes := by rw [h'.outcomes, h.outcomes, List.append_assoc]
  delivery := by
    obtain ⟨ds, hdelivery, hcopies⟩ := h.delivery
    obtain ⟨ds', hdelivery', hcopies'⟩ := h'.delivery
    refine ⟨ds ++ ds', ?_, ?_⟩
    · rw [hdelivery', hdelivery]
      simp
    · unfold failedOf at hcopies hcopies' ⊢
      rw [List.filter_append]
      exact List.rel_append hcopies hcopies'
  faults := by rw [h'.faults, h.faults]

/-! ## A pass in small steps -/

variable (effect₀ t) in
/-- The retry loop in small steps: a call of `execute` that returns is a run of
attempts.  The induction is on the passes left. -/
theorem attempts_run {s : System σ} {m : Message} {order : Order} {remaining attempt : ℕ}
    {lastExc : Option Exn} {calls : List Call} {outcome : RetryOutcome}
    (hpc : s.pc = .attempting m order remaining attempt lastExc calls)
    (hresult : (setup.policy.executeFrom (process setup.sideEffect order) remaining attempt
      lastExc s.consumer.drawn s.consumer.work).result = .ok outcome) :
    let e := setup.policy.executeFrom (process setup.sideEffect order) remaining attempt
      lastExc s.consumer.drawn s.consumer.work
    ∃ s', Quietly setup effect₀ t s s' ∧ s'.pc = .executed m order outcome ∧
      s'.consumer = s.consumer.settle e.state e.drawn ⟨m, order, outcome, calls ++ e.calls⟩ ∧
      s'.outcomes = s.outcomes ++ [⟨m, order, outcome, calls ++ e.calls⟩] ∧
      s'.delivery = s.delivery ∧ s'.faults = s.faults := by
  intro e
  induction remaining generalizing s attempt lastExc calls with
  | zero =>
      have houtcome : setup.policy.failure lastExc = outcome := Except.ok.inj hresult
      subst houtcome
      refine ⟨_, Quietly.step (.exhausted hpc) rfl (Quietly.refl _), rfl, ?_, ?_, rfl, rfl⟩
      · simp [e, RetryPolicy.executeFrom]
      · simp [e, RetryPolicy.executeFrom]
  | succ remaining ih =>
      cases hverdict : (setup.tryOnce order attempt s.consumer).verdict with
      | returned outcome' =>
          have hloop : setup.policy.executeFrom (process setup.sideEffect order)
              (remaining + 1) attempt lastExc s.consumer.drawn s.consumer.work =
              ⟨.ok outcome', (setup.tryOnce order attempt s.consumer).state,
                (setup.tryOnce order attempt s.consumer).drawn,
                [.invoked (setup.tryOnce order attempt s.consumer).result]⟩ := by
            unfold Setup.tryOnce at hverdict ⊢
            simp only [RetryPolicy.executeFrom, hverdict]
          rw [hloop] at hresult
          cases hresult
          refine ⟨_, Quietly.step (.returned hpc rfl hverdict) rfl (Quietly.refl _), rfl, ?_, ?_,
            rfl, rfl⟩
          · simp only [e, hloop]
          · simp only [e, hloop]
      | escaped exc =>
          have hloop : (setup.policy.executeFrom (process setup.sideEffect order)
              (remaining + 1) attempt lastExc s.consumer.drawn s.consumer.work).result =
              .error exc := by
            unfold Setup.tryOnce at hverdict
            simp only [RetryPolicy.executeFrom, hverdict]
          rw [hloop] at hresult
          cases hresult
      | again exc delay =>
          obtain ⟨u, hstep, hpcu, hconsumeru, houtcomesu, hdeliveryu, hfaultsu⟩ :
              ∃ u, Step setup effect₀ t s .attempt u ∧
                u.pc = .attempting m order remaining (attempt + 1) (some exc)
                  (calls ++ [.invoked (setup.tryOnce order attempt s.consumer).result,
                    .slept delay]) ∧
                u.consumer = { s.consumer with
                  work := (setup.tryOnce order attempt s.consumer).state
                  drawn := (setup.tryOnce order attempt s.consumer).drawn } ∧
                u.outcomes = s.outcomes ∧ u.delivery = s.delivery ∧ u.faults = s.faults :=
            ⟨_, .again hpc rfl hverdict, rfl, rfl, rfl, rfl, rfl⟩
          have hloop : setup.policy.executeFrom (process setup.sideEffect order)
              (remaining + 1) attempt lastExc s.consumer.drawn s.consumer.work =
              (let rest := setup.policy.executeFrom (process setup.sideEffect order) remaining
                 (attempt + 1) (some exc) u.consumer.drawn u.consumer.work
               { rest with
                 calls := .invoked (setup.tryOnce order attempt s.consumer).result ::
                   .slept delay :: rest.calls }) := by
            rw [hconsumeru]
            unfold Setup.tryOnce at hverdict ⊢
            simp only [RetryPolicy.executeFrom, hverdict]
          rw [hloop] at hresult
          obtain ⟨s', hquietly, hpc', hconsumer, houtcomes, hdelivery, hfaults⟩ :=
            ih hpcu hresult
          refine ⟨s', Quietly.step hstep rfl hquietly, hpc', ?_, ?_, ?_, ?_⟩
          · rw [hconsumer]
            simp only [e, hloop, List.append_assoc]
            rw [hconsumeru]
            rfl
          · rw [houtcomes, houtcomesu]
            simp only [e, hloop, List.append_assoc]
            rfl
          · rw [hdelivery, hdeliveryu]
          · rw [hfaults, hfaultsu]

/-- The message of a tick is the one at the reading position of its partition. -/
def Tick.ServedBy (t : Topic) (tick : Tick) (offsets : CommitLog.Offsets ℕ) : Prop :=
  ∀ m, tick.poll = .message m → ∃ p r, (t.log p)[offsets.position p]? = some r ∧
    r.message? t.name p (offsets.position p) = some m

variable (setup effect₀ t) in
/-- The success branch up to the next loop head. -/
theorem succeeded_serves {s : System σ} {m : Message} {order : Order}
    {outcome : RetryOutcome} (hpc : s.pc = .executed m order outcome)
    (hsucceeded : outcome.succeeded = true) :
    ∃ s', Quietly setup effect₀ t s s' ∧ s'.pc = .head ∧
      s'.consumer = s.consumer.countProcessed.commit.summarize setup.summaryEvery ∧
      s'.outcomes = s.outcomes ∧ s'.delivery = s.delivery ∧ s'.faults = s.faults :=
  ⟨_, Quietly.step (.succeeded hpc hsucceeded) rfl <|
    Quietly.step (.commit rfl) rfl <| Quietly.refl _, rfl, rfl, rfl, rfl, rfl⟩

variable (setup effect₀ t) in
/-- The failure branch up to the next loop head, with the report in time: the copy is
acknowledged before the position is committed. -/
theorem failed_serves {s : System σ} {m : Message} {order : Order} {outcome : RetryOutcome}
    {r : DlqRecord} {failedAt : String} (hpc : s.pc = .executed m order outcome)
    (hfailed : outcome.succeeded = false)
    (hr : dlqRecordOf setup.dlqTopic m order outcome failedAt = .ok r)
    (hqueue : s.delivery.queue = []) :
    ∃ s', Quietly setup effect₀ t s s' ∧ s'.pc = .head ∧
      s'.consumer = (s.consumer.countFailed.enqueue r).countPublished.commit.summarize
        setup.summaryEvery ∧
      s'.outcomes = s.outcomes ∧
      s'.delivery = ⟨[], s.delivery.acked ++ [r], s.delivery.failed⟩ ∧
      s'.faults = s.faults := by
  have hproduced : s.delivery.produce r = ⟨[r], s.delivery.acked, s.delivery.failed⟩ := by
    unfold Delivery.produce
    rw [hqueue]
    rfl
  have hqueued : 0 < (s.delivery.produce r).queue.length := by simp
  have hreported : (s.delivery.produce r).report 0 .acknowledged =
      ⟨[], s.delivery.acked ++ [r], s.delivery.failed⟩ := by
    rw [hproduced]
    rfl
  exact ⟨_, Quietly.step (.failed hpc hfailed) rfl <|
    Quietly.step (.produce failedAt rfl hr) rfl <|
    Quietly.step (.report 0 .acknowledged hqueued rfl) rfl <|
    Quietly.step (.count rfl) rfl <|
    Quietly.step (.commit rfl) rfl <| Quietly.refl _, rfl, rfl, rfl, hreported, rfl⟩

variable (effect₀) in
/-- **A pass in small steps.**  What a completed pass of the loop computes, the system
reaches without a failure. -/
theorem pass_serves {s : System σ} (hpc : s.pc = .head) (hqueue : s.delivery.queue = [])
    {tick : Tick} {c' : Consumer σ} (hserved : tick.ServedBy t s.consumer.offsets)
    (hpass : iterate setup tick s.consumer = .next c') :
    ∃ s' hs, Serves setup effect₀ t s s' hs ∧ s'.consumer = c' ∧
      c'.handled = s.consumer.handled ++ hs := by
  rcases iterate_next hpass with ⟨-, rfl⟩ |
    ⟨m, hpoll, ⟨hvalue, -, rfl⟩ | ⟨order, hvalue, hhandle⟩⟩
  · exact ⟨s, [], Serves.refl hpc hqueue, rfl, (List.append_nil _).symm⟩
  · obtain ⟨p, r, hr, hm⟩ := hserved m hpoll
    have hrefl : Serves setup effect₀ t s s [] := Serves.refl hpc hqueue
    refine ⟨_, [], ⟨Quietly.step (.receive hpc hr hm) rfl <|
      Quietly.step (.skip rfl hvalue) rfl <| Quietly.step (.commitSkipped rfl) rfl <|
      Quietly.refl _, rfl, (List.append_nil _).symm, hrefl.delivery, rfl⟩, rfl,
      (List.append_nil _).symm⟩
  · obtain ⟨p, r, hr, hm⟩ := hserved m hpoll
    obtain ⟨outcome, hresult, -, hbranch⟩ := handle_next hhandle
    obtain ⟨u, hstart, hpcu, hconsumeru, houtcomesu, hdeliveryu, hfaultsu⟩ :
        ∃ u, Quietly setup effect₀ t s u ∧
          u.pc = .attempting m order setup.policy.maxAttempts.toNat 1 none [] ∧
          u.consumer = s.consumer.receive m ∧ u.outcomes = s.outcomes ∧
          u.delivery = s.delivery ∧ u.faults = s.faults :=
      ⟨_, Quietly.step (.receive hpc hr hm) rfl <| Quietly.step (.begin rfl hvalue) rfl <|
        Quietly.refl _, rfl, rfl, rfl, rfl, rfl⟩
    have hresultu : (setup.policy.executeFrom (process setup.sideEffect order)
        setup.policy.maxAttempts.toNat 1 none u.consumer.drawn u.consumer.work).result =
        .ok outcome := by
      rw [hconsumeru]
      exact hresult
    obtain ⟨v, hattempts, hpcv, hconsumerv, houtcomesv, hdeliveryv, hfaultsv⟩ :=
      attempts_run effect₀ t hpcu hresultu
    have hsettled : v.consumer = setup.settled m order outcome (s.consumer.receive m) := by
      rw [hconsumerv, hconsumeru]
      rfl
    have hlog : v.outcomes = s.outcomes ++
        [setup.handling m order outcome (s.consumer.receive m)] := by
      rw [houtcomesv, houtcomesu, hconsumeru]
      rfl
    have hqueuev : v.delivery = s.delivery := hdeliveryv.trans hdeliveryu
    have hhandled := handle_next_log hhandle
    obtain ⟨outcome', hresult', hhandled, -, -⟩ := hhandled
    rw [hresult] at hresult'
    cases hresult'
    rcases hbranch with ⟨hsucceeded, rfl⟩ | ⟨hfailed, -, d, hd, rfl⟩
    · obtain ⟨s', hfinish, hpc', hconsumer, houtcomes, hdelivery, hfaults⟩ :=
        succeeded_serves setup effect₀ t hpcv hsucceeded
      refine ⟨s', [setup.handling m order outcome (s.consumer.receive m)],
        ⟨(hstart.trans hattempts).trans hfinish, hpc', by rw [houtcomes, hlog], ?_, ?_⟩,
        by rw [hconsumer, hsettled], hhandled⟩
      · refine ⟨[], ?_, ?_⟩
        · rw [hdelivery, hqueuev, List.append_nil, ← hqueue]
        · simp [failedOf, Setup.handling, hsucceeded]
      · rw [hfaults, hfaultsv, hfaultsu]
    · obtain ⟨s', hfinish, hpc', hconsumer, houtcomes, hdelivery, hfaults⟩ :=
        failed_serves setup effect₀ t hpcv hfailed hd
          (by rw [hqueuev, hqueue])
      refine ⟨s', [setup.handling m order outcome (s.consumer.receive m)],
        ⟨(hstart.trans hattempts).trans hfinish, hpc', by rw [houtcomes, hlog], ?_, ?_⟩,
        by rw [hconsumer, hsettled], hhandled⟩
      · refine ⟨[d], by rw [hdelivery, hqueuev], ?_⟩
        have hone : failedOf [setup.handling m order outcome (s.consumer.receive m)] =
            [setup.handling m order outcome (s.consumer.receive m)] := by
          simp [failedOf, Setup.handling, hfailed]
        rw [hone]
        exact List.Forall₂.cons ⟨tick.failedAt, hd⟩ List.Forall₂.nil
      · rw [hfaults, hfaultsv, hfaultsu]

end Passes

/-! ## What is left of a topic -/

/-- The orders of a partition from an offset on, in log order. -/
def Topic.ordersFrom (t : Topic) (p n : ℕ) : List Message :=
  (t.messages p).filter fun m => n ≤ m.offset ∧ m.value ≠ none

/-- The messages around one record. -/
theorem Topic.messages_around {t : Topic} {p n : ℕ} {r : Record}
    (hr : (t.log p)[n]? = some r) :
    ∃ before after, t.messages p = before ++ ((r.message? t.name p n).toList ++ after) ∧
      (∀ m ∈ before, m.offset < n) ∧ ∀ m ∈ after, n < m.offset := by
  obtain ⟨hn, hget⟩ := List.getElem?_eq_some_iff.mp hr
  have hsplit : t.log p = (t.log p).take n ++ r :: (t.log p).drop (n + 1) := by
    rw [← hget, List.getElem_cons_drop, List.take_append_drop]
  have hlength : ((t.log p).take n).length = n := by
    rw [List.length_take]
    omega
  refine ⟨(((t.log p).take n).mapIdx fun i r => r.message? t.name p i).reduceOption,
    (((t.log p).drop (n + 1)).mapIdx fun i r =>
      r.message? t.name p (i + 1 + n)).reduceOption, ?_, ?_, ?_⟩
  · unfold Topic.messages
    conv_lhs => rw [hsplit]
    rw [List.mapIdx_append, List.mapIdx_cons, hlength, List.reduceOption_append]
    congr 1
    rw [Nat.zero_add]
    cases r.message? t.name p n <;> rfl
  · intro m hm
    obtain ⟨i, hi, hmessage⟩ := List.mem_mapIdx.mp (List.reduceOption_mem_iff.mp hm)
    rw [(Record.message?_coordinates hmessage).2]
    omega
  · intro m hm
    obtain ⟨i, hi, hmessage⟩ := List.mem_mapIdx.mp (List.reduceOption_mem_iff.mp hm)
    rw [(Record.message?_coordinates hmessage).2]
    omega

/-- The orders from an offset on: the one at the offset, if any, and the later ones.
Tombstones are served as well but are no orders. -/
theorem Topic.ordersFrom_next {t : Topic} {p n : ℕ} {r : Record} {m : Message}
    (hr : (t.log p)[n]? = some r) (hm : r.message? t.name p n = some m) :
    t.ordersFrom p n =
      (if m.value = none then [] else [m]) ++ t.ordersFrom p (n + 1) := by
  obtain ⟨before, after, hmessages, hbefore, hafter⟩ := Topic.messages_around hr
  obtain ⟨-, hoffset⟩ := Record.message?_coordinates hm
  unfold Topic.ordersFrom
  rw [hmessages, hm, Option.toList_some, List.filter_append, List.filter_append,
    List.filter_append, List.filter_append]
  have hnone : ∀ k, n ≤ k → before.filter (fun m => k ≤ m.offset ∧ m.value ≠ none) = [] := by
    intro k hk
    rw [List.filter_eq_nil_iff]
    intro m' hm'
    have hlt := hbefore m' hm'
    simp only [decide_eq_true_eq]
    omega
  have hall : after.filter (fun m => n ≤ m.offset ∧ m.value ≠ none) =
      after.filter (fun m => n + 1 ≤ m.offset ∧ m.value ≠ none) := by
    apply List.filter_congr
    intro m' hm'
    have hlt := hafter m' hm'
    rw [decide_eq_decide]
    constructor
    · rintro ⟨-, hvalue⟩
      exact ⟨hlt, hvalue⟩
    · rintro ⟨-, hvalue⟩
      exact ⟨hlt.le, hvalue⟩
  have hlater : [m].filter (fun m => n + 1 ≤ m.offset ∧ m.value ≠ none) = [] := by
    simp [hoffset]
  rw [hnone n le_rfl, hnone (n + 1) (by omega), hall, hlater]
  by_cases hvalue : m.value = none
  · simp [hvalue]
  · simp [hvalue, hoffset]

/-- Nothing is left beyond the end of the log. -/
theorem Topic.ordersFrom_end {t : Topic} {p n : ℕ} (hn : (t.log p).length ≤ n) :
    t.ordersFrom p n = [] := by
  unfold Topic.ordersFrom
  rw [List.filter_eq_nil_iff]
  intro m hm
  obtain ⟨i, r, hr, hmessage⟩ := Topic.mem_messages hm
  obtain ⟨hi, -⟩ := List.getElem?_eq_some_iff.mp hr
  rw [(Record.message?_coordinates hmessage).2]
  simp only [decide_eq_true_eq]
  omega

/-! ## Finishing the topic -/

section Main

variable {args : Args} {t : Topic}

/-- A loop head of `main` with nothing in flight. -/
structure Rests (args : Args) (s : System FailureSimulator) : Prop where
  pc : s.pc = .head
  queue : s.delivery.queue = []
  atHead : AtHead args s.consumer

/-- `main` serves the record at the reading position of a partition, if it does not
block. -/
theorem record_served (rng : ℕ → Draw) (dlqTopic : String) (effect₀ : FailureSimulator)
    {s : System FailureSimulator} (hrests : Rests args s) {p : ℕ} {r : Record}
    (hr : (t.log p)[s.consumer.offsets.position p]? = some r) (hsafe : ¬Blocking args r) :
    ∃ s' hs, Serves (mainSetup args rng dlqTopic) effect₀ t s s' hs ∧ Rests args s' ∧
      s'.consumer.offsets.position = Function.update s.consumer.offsets.position p
        (s.consumer.offsets.position p + 1) ∧
      t.ordersFrom p (s.consumer.offsets.position p) =
        hs.map Handling.message ++ t.ordersFrom p (s.consumer.offsets.position p + 1) := by
  have hpassed : Passed args rng dlqTopic t kafkaException s.consumer p := by
    refine passed_of_not_blocking hrests.atHead ?_
    intro r' hr'
    rw [hr] at hr'
    cases hr'
    exact hsafe
  obtain ⟨d, hd, -⟩ := hpassed r hr ""
  -- the record decodes, since the pass is completed
  obtain ⟨m, hm⟩ : ∃ m, r.message? t.name p (s.consumer.offsets.position p) = some m := by
    unfold Blocking at hsafe
    unfold Record.message?
    cases hcontent : r.content with
    | order o => exact ⟨_, rfl⟩
    | tombstone => exact ⟨_, rfl⟩
    | undecodable =>
        rw [hcontent] at hsafe
        exact absurd trivial hsafe
  have hpoll : (t.serve kafkaException s.consumer.offsets p "").poll = .message m :=
    Topic.pollAt_message hr hm
  have hserved : (t.serve kafkaException s.consumer.offsets p "").ServedBy t
      s.consumer.offsets := by
    intro m' hm'
    rw [hpoll] at hm'
    cases hm'
    exact ⟨p, r, hr, hm⟩
  obtain ⟨s', hs, hserves, hconsumer, hhandled⟩ :=
    pass_serves effect₀ hrests.pc hrests.queue hserved hd
  obtain ⟨hpartition, hoffset⟩ := Record.message?_coordinates hm
  refine ⟨s', hs, hserves, ⟨hserves.pc, ?_, ?_⟩, ?_, ?_⟩
  · obtain ⟨ds, hdelivery, -⟩ := hserves.delivery
    rw [hdelivery]
  · rw [hconsumer]
    exact hrests.atHead.step (.pass p "" hd)
  · rw [hconsumer]
    rcases pass_offsets hd with ⟨hnone, -⟩ | ⟨m', hpoll', hoffsets⟩
    · exact absurd hpoll (hnone m)
    · rw [hpoll] at hpoll'
      cases hpoll'
      rw [hoffsets, hpartition, hoffset]
      rfl
  · rw [Topic.ordersFrom_next hr hm]
    congr 1
    rcases main_pass hrests.atHead.flakyAttemptsNeeded hd with
      ⟨hnone, hsame, -⟩ | ⟨m', order, h, horder, -, hlog, hshows, -⟩
    · have hvalue : m.value = none := by
        cases hvalue : m.value with
        | none => rfl
        | some order => simp [Tick.order?, hpoll, hvalue] at hnone
      have hempty : hs = [] := by
        rw [hsame] at hhandled
        simpa using hhandled
      rw [if_pos hvalue, hempty, List.map_nil]
    · have hboth : m = m' ∧ m.value = some order := by
        cases hvalue : m.value with
        | none => simp [Tick.order?, hpoll, hvalue] at horder
        | some order' =>
            simp only [Tick.order?, hpoll, hvalue, Option.map_some, Option.some.injEq,
              Prod.mk.injEq] at horder
            exact ⟨horder.1, by rw [horder.2]⟩
      have hone : hs = [h] := by
        rw [hlog] at hhandled
        exact (List.append_cancel_left hhandled).symm
      rw [if_neg (by simp [hboth.2]), hone, List.map_singleton, hshows.1, hboth.1]

/-- `main` serves a partition to its end.  The induction is on the number of records
left. -/
theorem partition_served (rng : ℕ → Draw) (dlqTopic : String) (effect₀ : FailureSimulator)
    {s : System FailureSimulator} {p : ℕ} (hsafe : ∀ r ∈ t.log p, ¬Blocking args r)
    (hrests : Rests args s) (hposition : s.consumer.offsets.position p ≤ (t.log p).length) :
    ∃ s' hs, Serves (mainSetup args rng dlqTopic) effect₀ t s s' hs ∧ Rests args s' ∧
      s'.consumer.offsets.position =
        Function.update s.consumer.offsets.position p (t.log p).length ∧
      hs.map Handling.message = t.ordersFrom p (s.consumer.offsets.position p) := by
  induction hleft : (t.log p).length - s.consumer.offsets.position p generalizing s with
  | zero =>
      have hend : s.consumer.offsets.position p = (t.log p).length := by omega
      refine ⟨s, [], Serves.refl hrests.pc hrests.queue, hrests, ?_, ?_⟩
      · rw [← hend, Function.update_eq_self]
      · rw [Topic.ordersFrom_end hend.ge]
        rfl
  | succ left ih =>
      obtain ⟨r, hr⟩ : ∃ r, (t.log p)[s.consumer.offsets.position p]? = some r :=
        ⟨_, List.getElem?_eq_getElem (by omega)⟩
      obtain ⟨u, hs, hserves, hrestsu, hpositionu, horders⟩ :=
        record_served rng dlqTopic effect₀ hrests hr (hsafe _ (List.mem_of_getElem? hr))
      have hnext : u.consumer.offsets.position p = s.consumer.offsets.position p + 1 := by
        rw [hpositionu, Function.update_self]
      obtain ⟨s', hs', hserves', hrests', hposition', horders'⟩ :=
        ih hrestsu (by omega) (by omega)
      refine ⟨s', hs ++ hs', hserves.trans hserves', hrests', ?_, ?_⟩
      · rw [hposition', hpositionu, Function.update_idem]
      · rw [List.map_append, horders', horders, hnext]

/-- `main` serves the first `k` partitions to their ends, one after the other; the order
of partitions is a choice of this schedule. -/
theorem partitions_served (rng : ℕ → Draw) (dlqTopic : String) (effect₀ : FailureSimulator)
    {s : System FailureSimulator} (hsafe : ∀ p, ∀ r ∈ t.log p, ¬Blocking args r)
    (hrests : Rests args s)
    (hposition : ∀ p, s.consumer.offsets.position p ≤ (t.log p).length) (k : ℕ) :
    ∃ s' hs, Serves (mainSetup args rng dlqTopic) effect₀ t s s' hs ∧ Rests args s' ∧
      (∀ p, s'.consumer.offsets.position p =
        if p < k then (t.log p).length else s.consumer.offsets.position p) ∧
      hs.map Handling.message = (List.range k).flatMap fun p =>
        t.ordersFrom p (s.consumer.offsets.position p) := by
  induction k with
  | zero =>
      exact ⟨s, [], Serves.refl hrests.pc hrests.queue, hrests, fun p => rfl, rfl⟩
  | succ k ih =>
      obtain ⟨u, hs, hserves, hrestsu, hpositionu, horders⟩ := ih
      have hsame : u.consumer.offsets.position k = s.consumer.offsets.position k := by
        rw [hpositionu, if_neg (lt_irrefl k)]
      obtain ⟨s', hs', hserves', hrests', hposition', horders'⟩ :=
        partition_served rng dlqTopic effect₀ (hsafe k) hrestsu
          (by rw [hsame]; exact hposition k)
      refine ⟨s', hs ++ hs', hserves.trans hserves', hrests', ?_, ?_⟩
      · intro p
        rw [hposition']
        by_cases hp : p = k
        · subst hp
          rw [Function.update_self, if_pos (Nat.lt_succ_self p)]
        · rw [Function.update_of_ne hp, hpositionu]
          have hlt : p < k ↔ p < k + 1 := by omega
          simp only [hlt]
      · rw [List.map_append, horders, horders', hsame, List.range_succ, List.flatMap_append,
          List.flatMap_singleton]

/-! ## After any run -/

/-- While a process is down, its producer holds nothing. -/
theorem System.down_queue {σ : Type} {setup : Setup σ} {effect₀ : σ} {s : System σ}
    {ls : List Label} (hrun : Run (Step setup effect₀ t) (System.init effect₀) ls s)
    (hdown : s.pc = .down) : s.delivery.queue = [] := by
  refine hrun.invariant (fun s => s.pc = .down → s.delivery.queue = []) ?_ ?_ hdown
  · intro h
    cases h
  · intro u l v hu hstep hv
    cases hstep with
    | crash hactive => rfl
    | leave hpc => rfl
    | idle hpc => exact hu hv
    | report i r hi hpc =>
        have hv' : u.pc = .down := hv
        rw [hv'] at hpc
        cases hpc
    | _ => cases hv

/-- A committed position is within the log. -/
theorem System.committed_le_length {σ : Type} {setup : Setup σ} {effect₀ : σ} {s : System σ}
    {ls : List Label} (hrun : Run (Step setup effect₀ t) (System.init effect₀) ls s) (p : ℕ) :
    s.consumer.offsets.committed p ≤ (t.log p).length := by
  by_contra hlt
  obtain ⟨d, hd, hcoordinates⟩ := List.mem_map.mp
    ((System.inv_of_run hrun).handled p (t.log p).length (not_le.mp hlt))
  obtain ⟨hpartition, hoffset⟩ : d.message.partition = p ∧
      d.message.offset = (t.log p).length := Prod.mk.inj hcoordinates
  have hholds : t.Holds d.message := by
    have hdeed := (System.genuine_of_run hrun).history d hd
    cases d <;> exact hdeed.1
  obtain ⟨r, hr, -⟩ := hholds
  rw [hpartition, hoffset] at hr
  simp at hr

/-- **The next process can finish the topic.**  If no record of the topic blocks, then
from any state in which a process has died, whatever has happened before, the next
process can get to a loop head, without a failure, where everything is committed: it
has handled each order at or beyond the committed positions exactly once, and the
copies of those that failed are acknowledged. -/
theorem resumes {rng : ℕ → Draw} {dlqTopic : String}
    (hsafe : ∀ p, ∀ r ∈ t.log p, ¬Blocking args r)
    {s : System FailureSimulator} {ls : List Label}
    (hrun : Run (Step (mainSetup args rng dlqTopic)
      { flakyAttemptsNeeded := args.flakyAttempts } t)
      (System.init { flakyAttemptsNeeded := args.flakyAttempts }) ls s)
    (hdown : s.pc = .down) (drawn : ℕ) :
    ∃ u s' hs, Step (mainSetup args rng dlqTopic)
        { flakyAttemptsNeeded := args.flakyAttempts } t s (.restart drawn) u ∧
      Serves (mainSetup args rng dlqTopic)
        { flakyAttemptsNeeded := args.flakyAttempts } t u s' hs ∧
      (∀ p, s'.consumer.offsets.committed p = (t.log p).length) ∧
      hs.map Handling.message = (List.range t.partitions.length).flatMap fun p =>
        t.ordersFrom p (s.consumer.offsets.committed p) := by
  have hcommitted := System.committed_le_length hrun
  have hqueue := System.down_queue hrun hdown
  obtain ⟨u, hstep, hrests, hposition⟩ : ∃ u, Step (mainSetup args rng dlqTopic)
      { flakyAttemptsNeeded := args.flakyAttempts } t s (.restart drawn) u ∧ Rests args u ∧
      u.consumer.offsets.position = s.consumer.offsets.committed :=
    ⟨_, .restart drawn hdown, ⟨rfl, hqueue, rfl, rfl⟩, rfl⟩
  obtain ⟨s', hs, hserves, hrests', hposition', horders⟩ :=
    partitions_served rng dlqTopic { flakyAttemptsNeeded := args.flakyAttempts } hsafe hrests
      (by rw [hposition]; exact hcommitted) t.partitions.length
  refine ⟨u, s', hs, hstep, hserves, ?_, ?_⟩
  · intro p
    rw [hrests'.atHead.committed, hposition', hposition]
    split
    · rfl
    · next hbeyond =>
      have hempty : t.log p = [] := by
        simp [Topic.log, List.getD_eq_getElem?_getD, List.getElem?_eq_none (not_lt.mp hbeyond)]
      have hle := hcommitted p
      rw [hempty] at hle ⊢
      exact Nat.le_zero.mp hle
  · rw [horders, hposition]

end Main

/-- A process dies with an order in hand.  The next one can finish the topic: it
handles the FLAKY, the good and the POISON order once each. -/
theorem resumes_sample : ∃ s u s' hs,
    Run (Step sampleSetup {} sampleTopic) (System.init {}) [.receive 1, .begin, .crash] s ∧
    Step sampleSetup {} sampleTopic s (.restart 0) u ∧
    Serves sampleSetup {} sampleTopic u s' hs ∧
    (∀ p, s'.consumer.offsets.committed p = (sampleTopic.log p).length) ∧ hs.length = 3 := by
  have hsafe : ∀ p, ∀ r ∈ sampleTopic.log p, ¬Blocking {} r := by
    intro p r hr hblocking
    rcases sampleTopic_plain p r hr with htombstone | ⟨o, q, ho, -⟩
    · unfold Blocking at hblocking
      rw [htombstone] at hblocking
      exact hblocking
    · unfold Blocking at hblocking
      rw [ho] at hblocking
      obtain ⟨-, -, hlarge, -⟩ := hblocking
      exact absurd hlarge (by decide)
  obtain ⟨s, hrun, hdown, hzero⟩ : ∃ s : System FailureSimulator,
      Run (Step sampleSetup {} sampleTopic) (System.init {}) [.receive 1, .begin, .crash] s ∧
      s.pc = .down ∧ ∀ p, s.consumer.offsets.committed p = 0 :=
    ⟨_, Run.cons (.receive rfl rfl rfl) <| Run.cons (.begin rfl rfl) <|
      Run.single (.crash rfl), rfl, fun _ => rfl⟩
  obtain ⟨u, s', hs, hstep, hserves, hcommitted, horders⟩ := resumes hsafe hrun hdown 0
  refine ⟨s, u, s', hs, hrun, hstep, hserves, hcommitted, ?_⟩
  have hlength := congrArg List.length horders
  simp only [hzero, List.length_map] at hlength
  rw [hlength]
  decide +kernel

end OrderPipeline

import OrderPipeline.Foundation.Runs
import OrderPipeline.MainRuns

/-!
# Head-of-line blocking

A session is a run of `main` over the partition logs of a topic in which no broker
operation fails; sessions follow each other, each starting from the committed
positions.  `poll` returns the next record of a partition, and raises when its
bytes do not decode.

Every order and every tombstone that `poll` reaches is passed, with one exception:
a FLAKY order whose retries run into the overflow of the backoff.  A record that
does not decode is never passed: `main` returns, and the next session meets the
same record (`stuck_at_undecodable`).  So a topic never blocks exactly when it has
no such record (`never_blocked_iff`).
-/

namespace OrderPipeline

open Runs

/-- What `poll` does when it serves a partition: it returns the record at the
reading position, or raises `rejected` if its bytes do not decode. -/
def Topic.pollAt (t : Topic) (rejected : Exn) (offsets : CommitLog.Offsets ℕ) (p : ℕ) :
    Poll :=
  match (t.log p)[offsets.position p]? with
  | none => .idle
  | some r =>
    match r.message? t.name p (offsets.position p) with
    | some m => .message m
    | none => .raised rejected

/-- A tick in which the broker serves a partition and no broker operation fails. -/
def Topic.serve (t : Topic) (rejected : Exn) (offsets : CommitLog.Offsets ℕ) (p : ℕ)
    (failedAt : String) : Tick where
  poll := t.pollAt rejected offsets p
  failedAt := failedAt

/-- A pass that is completed, one that ends its session by an exception, and the start
of a new session. -/
inductive SessionEvent
  | pass (p : ℕ) (failedAt : String)
  | raise (p : ℕ) (failedAt : String)
  | restart

section Sessions

variable (args : Args) (rng : ℕ → Draw) (dlqTopic : String) (t : Topic) (rejected : Exn)

/-- Sessions of `main`: a pass that is completed, a pass that raises and is
followed by a new session, and a stop at a loop head followed by one. -/
inductive SessionStep :
    Consumer FailureSimulator → SessionEvent → Consumer FailureSimulator → Prop
  | pass {c d : Consumer FailureSimulator} (p : ℕ) (failedAt : String)
      (h : iterate (mainSetup args rng dlqTopic) (t.serve rejected c.offsets p failedAt) c =
        .next d) :
      SessionStep c (.pass p failedAt) d
  | raise {c d : Consumer FailureSimulator} {exc : Exn} (p : ℕ) (failedAt : String)
      (h : iterate (mainSetup args rng dlqTopic) (t.serve rejected c.offsets p failedAt) c =
        .raised d exc) :
      SessionStep c (.raise p failedAt) (mainStart args d.offsets.rewind)
  | restart (c : Consumer FailureSimulator) :
      SessionStep c .restart (mainStart args c.offsets.rewind)

/-- The loop heads that the sessions reach. -/
def Reached (c : Consumer FailureSimulator) : Prop :=
  ∃ es, Run (SessionStep args rng dlqTopic t rejected)
    (mainStart args CommitLog.Offsets.zero) es c

/-- The record that `poll` reaches in a partition is passed: the pass is completed
with the committed position beyond it, and bytes that do not decode have become a
DLQ record. -/
def Passed (c : Consumer FailureSimulator) (p : ℕ) : Prop :=
  ∀ r, (t.log p)[c.offsets.position p]? = some r → ∀ failedAt, ∃ d,
    iterate (mainSetup args rng dlqTopic) (t.serve rejected c.offsets p failedAt) c =
        .next d ∧
      c.offsets.position p < d.offsets.committed p ∧
      (r.content = .undecodable → ∃ record ∈ d.dlq.sent,
        record.headers.lookup hdrOriginalPartition =
            some (PyStr.encodeString (toString (p : ℤ))) ∧
          record.headers.lookup hdrOriginalOffset =
            some (PyStr.encodeString (toString (c.offsets.position p : ℤ))))

/-- Every record that `poll` reaches in any session is passed. -/
def NeverBlocked : Prop :=
  ∀ c, Reached args rng dlqTopic t rejected c → ∀ p,
    Passed args rng dlqTopic t rejected c p

end Sessions

/-- A record that no session gets past: its bytes do not decode, or it is a valid
FLAKY order whose retries reach the overflow of the backoff. -/
def Blocking (args : Args) (r : Record) : Prop :=
  match r.content with
  | .undecodable => True
  | .tombstone => False
  | .order o => Overflows args.maxAttempts args.flakyAttempts (dictToOrder o) 0

/-! ## Loop heads -/

/-- What holds at every loop head of the sessions. -/
structure AtHead (args : Args) (c : Consumer FailureSimulator) : Prop where
  committed : c.offsets.committed = c.offsets.position
  flakyAttemptsNeeded : c.work.effect.flakyAttemptsNeeded = args.flakyAttempts

section Main

variable {args : Args} {rng : ℕ → Draw} {dlqTopic : String} {t : Topic} {rejected : Exn}

theorem atHead_start (offsets : CommitLog.Offsets ℕ) :
    AtHead args (mainStart args offsets.rewind) := ⟨rfl, rfl⟩

/-- What a completed pass does to the offsets. -/
theorem pass_offsets {c d : Consumer FailureSimulator} {tick : Tick}
    (h : iterate (mainSetup args rng dlqTopic) tick c = .next d) :
    ((∀ m, tick.poll ≠ .message m) ∧ d.offsets = c.offsets) ∨
      ∃ m, tick.poll = .message m ∧
        d.offsets = (c.offsets.seek m.partition (m.offset + 1)).commit := by
  rcases iterate_next h with ⟨hidle, rfl⟩ | ⟨m, hpoll, ⟨-, -, rfl⟩ | ⟨order, -, hhandle⟩⟩
  · refine Or.inl ⟨?_, rfl⟩
    intro m hm
    rw [hm] at hidle
    rcases hidle with h | h <;> cases h
  · exact Or.inr ⟨m, hpoll, rfl⟩
  · obtain ⟨outcome, -, -, -, hoffsets⟩ := handle_next_log hhandle
    exact Or.inr ⟨m, hpoll, hoffsets⟩

/-- **Step lemma.** A completed pass commits what it has received, and a session that
raises is followed by one that starts at the committed positions. -/
theorem AtHead.step {c d : Consumer FailureSimulator} {e : SessionEvent}
    (hhead : AtHead args c) (hstep : SessionStep args rng dlqTopic t rejected c e d) :
    AtHead args d := by
  cases hstep with
  | pass p failedAt h =>
      refine ⟨?_, ?_⟩
      · rcases pass_offsets h with ⟨-, hsame⟩ | ⟨m, -, hcommitted⟩
        · rw [hsame]
          exact hhead.committed
        · rw [hcommitted]
          rfl
      · rcases main_pass hhead.flakyAttemptsNeeded h with
          ⟨-, -, hwork⟩ | ⟨m, order, g, -, -, -, -, heffect⟩
        · rw [hwork]
          exact hhead.flakyAttemptsNeeded
        · rw [heffect, FailureSimulator.countIfAny_flakyAttemptsNeeded]
          exact hhead.flakyAttemptsNeeded
  | raise p failedAt h => exact atHead_start _
  | restart => exact atHead_start _

/-- **Run lemma.** The two facts hold at every loop head of every sequence of sessions. -/
theorem Reached.atHead {c : Consumer FailureSimulator}
    (h : Reached args rng dlqTopic t rejected c) : AtHead args c := by
  obtain ⟨es, hrun⟩ := h
  exact hrun.invariant (AtHead args) ⟨rfl, rfl⟩ (fun _ _ _ hhead hstep => hhead.step hstep)

/-- What `poll` returns for a record that decodes. -/
theorem Topic.pollAt_message {offsets : CommitLog.Offsets ℕ} {p : ℕ} {r : Record}
    (hr : (t.log p)[offsets.position p]? = some r) {m : Message}
    (hm : r.message? t.name p (offsets.position p) = some m) :
    t.pollAt rejected offsets p = .message m := by
  unfold Topic.pollAt
  simp only [hr, hm]

/-- The offsets after passing a record. -/
theorem seek_message {offsets : CommitLog.Offsets ℕ} {p : ℕ} {r : Record}
    {m : Message} (hm : r.message? t.name p (offsets.position p) = some m) :
    (offsets.seek m.partition (m.offset + 1)).commit.committed p =
      offsets.position p + 1 := by
  obtain ⟨hpartition, hoffset⟩ := Record.message?_coordinates hm
  rw [hpartition, hoffset, CommitLog.Offsets.commit_committed,
    CommitLog.Offsets.seek_position_self]

/-! ## Records that are passed -/

/-- An order that does not overflow is handled to the end: it is aggregated or its
record is built and handed over, and neither raises. -/
theorem handle_passes {c : Consumer FailureSimulator} (hhead : AtHead args c)
    {tick : Tick} {m : Message} {order : Order} (hproduce : tick.produceFault = none)
    (hcommit : tick.commitFault = none)
    (hsafe : ¬Overflows args.maxAttempts args.flakyAttempts order 0) :
    ∃ d, handle (mainSetup args rng dlqTopic) tick m order (c.receive m) = .next d := by
  rcases attempt_effect args rng dlqTopic order (c.receive m) hhead.flakyAttemptsNeeded with
    ⟨⟨hvalid, hflaky, hlarge, hthreshold⟩, -⟩ | ⟨-, hresult, -, -⟩
  · refine absurd ⟨hvalid, hflaky, hlarge, ?_⟩ hsafe
    omega
  · cases hsucceeded : (unitEffect (mainSetup args rng dlqTopic).policy args.flakyAttempts
        order ((c.receive m).work.effect.seen
          (FailureSimulator.keyOf order))).outcome.succeeded with
    | true => exact ⟨_, handle_of_succeeded hresult hsucceeded hcommit⟩
    | false =>
        obtain ⟨r, hrecord⟩ := dlqRecordOf_unitEffect
          (mainSetup args rng dlqTopic).policy args.flakyAttempts order
          ((c.receive m).work.effect.seen (FailureSimulator.keyOf order)) dlqTopic m
          tick.failedAt
        exact ⟨_, handle_of_failed hresult hsucceeded hrecord hproduce hcommit⟩

/-- A record that does not block is passed.  It is a tombstone, or an order that
succeeds, or one that fails within the budget. -/
theorem passed_of_not_blocking {c : Consumer FailureSimulator} (hhead : AtHead args c)
    {p : ℕ} (hsafe : ∀ r, (t.log p)[c.offsets.position p]? = some r → ¬Blocking args r) :
    Passed args rng dlqTopic t rejected c p := by
  intro r hr failedAt
  have hnot := hsafe r hr
  obtain ⟨m, hm, hvalue⟩ : ∃ m, r.message? t.name p (c.offsets.position p) = some m ∧
      ∀ order, m.value = some order →
        ¬Overflows args.maxAttempts args.flakyAttempts order 0 := by
    unfold Blocking at hnot
    unfold Record.message?
    cases hcontent : r.content with
    | order o =>
        rw [hcontent] at hnot
        refine ⟨_, rfl, ?_⟩
        intro order horder
        rw [← Option.some.inj horder]
        exact hnot
    | tombstone => exact ⟨_, rfl, fun order horder => by cases horder⟩
    | undecodable =>
        rw [hcontent] at hnot
        exact absurd trivial hnot
  have hpoll : (t.serve rejected c.offsets p failedAt).poll = .message m :=
    Topic.pollAt_message hr hm
  obtain ⟨d, hd⟩ : ∃ d, iterate (mainSetup args rng dlqTopic)
      (t.serve rejected c.offsets p failedAt) c = .next d := by
    unfold iterate
    simp only [hpoll]
    cases horder : m.value with
    | none => exact ⟨_, rfl⟩
    | some order => exact handle_passes hhead rfl rfl (hvalue order horder)
  refine ⟨d, hd, ?_, ?_⟩
  · rcases pass_offsets hd with ⟨hnone, -⟩ | ⟨m', hpoll', hoffsets⟩
    · exact absurd hpoll (hnone m)
    · rw [hpoll] at hpoll'
      cases hpoll'
      rw [hoffsets, seek_message hm]
      omega
  · intro hundecodable
    unfold Blocking at hnot
    rw [hundecodable] at hnot
    exact absurd trivial hnot

/-! ## Records that are not passed -/

/-- If nothing is ever blocked, sessions that serve one partition reach each of
its positions with a fresh simulator. -/
theorem reaches_position (hnever : NeverBlocked args rng dlqTopic t rejected) {p n : ℕ}
    (hn : n ≤ (t.log p).length) :
    ∃ offsets : CommitLog.Offsets ℕ, offsets.position p = n ∧
      Reached args rng dlqTopic t rejected (mainStart args offsets) := by
  induction n with
  | zero => exact ⟨CommitLog.Offsets.zero, rfl, [], Run.nil⟩
  | succ n ih =>
      obtain ⟨offsets, hposition, hreached⟩ := ih (by omega)
      have hr : (t.log p)[(mainStart args offsets).offsets.position p]? =
          some (t.log p)[n] := by
        have hsame : (mainStart args offsets).offsets.position p = n := hposition
        rw [hsame]
        exact List.getElem?_eq_getElem (by omega)
      obtain ⟨d, hd, hbeyond, -⟩ := hnever _ hreached p _ hr ""
      obtain ⟨es, hrun⟩ := hreached
      have hstep : SessionStep args rng dlqTopic t rejected (mainStart args offsets)
          (.pass p "") d := .pass p "" hd
      refine ⟨d.offsets.rewind, ?_, es ++ [.pass p ""] ++ [.restart],
        Run.snoc (Run.snoc hrun hstep) (.restart d)⟩
      show d.offsets.committed p = n + 1
      have hstart : (mainStart args offsets).offsets.position p = n := hposition
      rcases pass_offsets hd with ⟨-, hsame⟩ | ⟨m, hpoll, hoffsets⟩
      · have hhead := Reached.atHead ⟨es, hrun⟩
        rw [hsame, hhead.committed] at hbeyond
        omega
      · have hpollAt : t.pollAt rejected (mainStart args offsets).offsets p = .message m :=
          hpoll
        unfold Topic.pollAt at hpollAt
        simp only [hr] at hpollAt
        cases hm : (t.log p)[n].message? t.name p
            ((mainStart args offsets).offsets.position p) with
        | none =>
            rw [hm] at hpollAt
            cases hpollAt
        | some m' =>
            rw [hm] at hpollAt
            cases hpollAt
            rw [hoffsets, seek_message hm, hstart]

/-- A blocking record is not passed by a session that starts at it.  Bytes that do not
decode raise in `poll`, and an order that overflows raises in `execute`. -/
theorem not_passed_of_blocking {offsets : CommitLog.Offsets ℕ} {p : ℕ} {r : Record}
    (hr : (t.log p)[offsets.position p]? = some r) (hblocking : Blocking args r) :
    ¬Passed args rng dlqTopic t rejected (mainStart args offsets) p := by
  intro hpassed
  obtain ⟨d, hd, -⟩ := hpassed r hr ""
  unfold Blocking at hblocking
  cases hcontent : r.content with
  | tombstone =>
      rw [hcontent] at hblocking
      exact hblocking
  | undecodable =>
      have hpoll : (t.serve rejected (mainStart args offsets).offsets p "").poll =
          .raised rejected := by
        show t.pollAt rejected offsets p = _
        unfold Topic.pollAt
        simp only [hr, Record.message?, hcontent]
      rcases iterate_next hd with ⟨hidle, -⟩ | ⟨m, hm, -⟩
      · rw [hpoll] at hidle
        rcases hidle with h | h <;> cases h
      · rw [hpoll] at hm
        cases hm
  | order o =>
      rw [hcontent] at hblocking
      have hm : r.message? t.name p (offsets.position p) =
          some ⟨t.name, p, offsets.position p, r.key, some (dictToOrder o)⟩ := by
        unfold Record.message?
        rw [hcontent]
      have hpoll : (t.serve rejected (mainStart args offsets).offsets p "").poll =
          .message _ := Topic.pollAt_message hr hm
      rcases iterate_next hd with ⟨hidle, -⟩ | ⟨m, hm', ⟨hvalue, -⟩ | ⟨order, hvalue, hhandle⟩⟩
      · rw [hpoll] at hidle
        rcases hidle with h | h <;> cases h
      · rw [hpoll] at hm'
        cases hm'
        cases hvalue
      · rw [hpoll] at hm'
        cases hm'
        cases hvalue
        obtain ⟨outcome, hresult, -⟩ := handle_next hhandle
        rcases attempt_effect args rng dlqTopic (dictToOrder o)
            ((mainStart args offsets).receive _) rfl with
          ⟨-, hescaped⟩ | ⟨hsafe, -⟩
        · rw [hresult] at hescaped
          cases hescaped
        · exact hsafe hblocking

/-- **Which topics never block.**  Every record that `poll` reaches in any
sequence of sessions is passed exactly when no record of the topic is blocking. -/
theorem never_blocked_iff (args : Args) (rng : ℕ → Draw) (dlqTopic : String) (t : Topic)
    (rejected : Exn) :
    NeverBlocked args rng dlqTopic t rejected ↔ ∀ p, ∀ r ∈ t.log p, ¬Blocking args r := by
  constructor
  · intro hnever p r hr hblocking
    obtain ⟨n, hn, hget⟩ := List.mem_iff_getElem.mp hr
    obtain ⟨offsets, hposition, hreached⟩ := reaches_position hnever hn.le
    have hr' : (t.log p)[offsets.position p]? = some r := by
      rw [hposition, List.getElem?_eq_getElem hn, hget]
    exact not_passed_of_blocking hr' hblocking (hnever _ hreached p)
  · intro hsafe c hreached p
    refine passed_of_not_blocking hreached.atHead ?_
    intro r hr
    exact hsafe p r (List.mem_of_getElem? hr)

/-- A pass that raises without a commit having failed leaves the committed
positions alone. -/
theorem raised_committed {c d : Consumer FailureSimulator} {tick : Tick} {exc : Exn}
    (hcommit : tick.commitFault = none)
    (h : iterate (mainSetup args rng dlqTopic) tick c = .raised d exc) :
    d.offsets.committed = c.offsets.committed := by
  rcases iterate_raised h with rfl | ⟨m, -, ⟨-, hfault, -⟩ | ⟨order, -, hhandle⟩⟩
  · rfl
  · exact absurd hcommit hfault
  · rcases handle_raised hhandle with ⟨-, rfl⟩ |
      ⟨outcome, -, ⟨-, rfl⟩ | ⟨e, ⟨hfault, -⟩, -⟩⟩
    · rfl
    · rfl
    · exact absurd hcommit hfault

/-- The message that `poll` returns for a partition is that of its record. -/
theorem Topic.pollAt_eq_message {offsets : CommitLog.Offsets ℕ} {p : ℕ} {m : Message}
    (h : t.pollAt rejected offsets p = .message m) :
    ∃ r, (t.log p)[offsets.position p]? = some r ∧
      r.message? t.name p (offsets.position p) = some m := by
  unfold Topic.pollAt at h
  cases hr : (t.log p)[offsets.position p]? with
  | none =>
      simp only [hr] at h
      cases h
  | some r =>
      cases hm : r.message? t.name p (offsets.position p) with
      | none =>
          simp only [hr, hm] at h
          cases h
      | some m' =>
          simp only [hr, hm] at h
          cases h
          exact ⟨r, rfl, hm⟩

/-- No sequence of sessions commits past a record that does not decode: a session raises
when it gets there, and the next one starts at the same offset. -/
theorem stuck_at_undecodable {p n : ℕ} {r : Record} (hr : (t.log p)[n]? = some r)
    (hcontent : r.content = .undecodable) {c : Consumer FailureSimulator}
    (hreached : Reached args rng dlqTopic t rejected c) : c.offsets.committed p ≤ n := by
  obtain ⟨es, hrun⟩ := hreached
  have hinv : AtHead args c ∧ c.offsets.committed p ≤ n := by
    refine hrun.invariant (fun c => AtHead args c ∧ c.offsets.committed p ≤ n)
      ⟨⟨rfl, rfl⟩, Nat.zero_le n⟩ ?_
    rintro c e d ⟨hhead, hle⟩ hstep
    refine ⟨hhead.step hstep, ?_⟩
    cases hstep with
    | restart => exact hle
    | @raise d _ q failedAt h =>
        show d.offsets.committed p ≤ n
        have htick : (t.serve rejected c.offsets q failedAt).commitFault = none := rfl
        rw [raised_committed htick h]
        exact hle
    | pass q failedAt h =>
        rcases pass_offsets h with ⟨-, hsame⟩ | ⟨m, hpoll, hoffsets⟩
        · rw [hsame]
          exact hle
        · obtain ⟨r', hr', hm⟩ := Topic.pollAt_eq_message hpoll
          by_cases hq : q = p
          · subst hq
            -- the position is not `n`: the record there does not decode
            have hne : c.offsets.position q ≠ n := by
              intro heq
              rw [heq, hr] at hr'
              cases hr'
              unfold Record.message? at hm
              rw [hcontent] at hm
              cases hm
            have hposition := congrFun hhead.committed q
            rw [hoffsets, seek_message hm]
            omega
          · obtain ⟨hpartition, -⟩ := Record.message?_coordinates hm
            have hother : d.offsets.committed p = c.offsets.position p := by
              rw [hoffsets, hpartition]
              exact Function.update_of_ne (Ne.symm hq) _ _
            rw [hother, ← hhead.committed]
            exact hle
  exact hinv.2

end Main

/-- A topic whose first record does not decode. -/
def undecodableTopic : Topic where
  name := "orders"
  partitions := [[⟨some "1001", .undecodable⟩,
    ⟨some "1002", .order ⟨"1002", "Item1", .finite 10⟩⟩]]

/-- The first record of that topic blocks its partition: it is not passed, and no
session ever commits anything. -/
theorem undecodable_blocks :
    ¬NeverBlocked {} (fun _ => Draw.half) "orders.DLQ" undecodableTopic kafkaException ∧
      ∀ c, Reached {} (fun _ => Draw.half) "orders.DLQ" undecodableTopic kafkaException c →
        c.offsets.committed 0 = 0 := by
  refine ⟨?_, ?_⟩
  · intro hnever
    have hblocking : Blocking {} ⟨some "1001", .undecodable⟩ := trivial
    have hrecord : (undecodableTopic.log 0)[CommitLog.Offsets.zero.position 0]? =
        some ⟨some "1001", .undecodable⟩ := rfl
    exact not_passed_of_blocking hrecord hblocking (hnever _ ⟨[], Run.nil⟩ 0)
  · intro c hreached
    have hle := stuck_at_undecodable (p := 0) (n := 0) rfl rfl hreached
    omega

end OrderPipeline

import Mathlib.Algebra.BigOperators.Group.Finset.Basic
import Mathlib.Algebra.BigOperators.Group.Finset.Piecewise
import Mathlib.Algebra.Order.BigOperators.Group.Finset
import OrderPipeline.Foundation.Runs

/-!
# Handle first, commit second

The abstract protocol of a process that reads several append-only logs
through one cursor per log and stores a *committed* cursor for each of them.
In every round it takes one record, handles it and only then commits; a
commit stores all cursors at once.  It may fail at any moment and restarts
from the committed cursors.

Nothing here says what the records are or what handling one means.  The
theorems are the ones such a protocol is chosen for:

* between rounds nothing is uncommitted (`Inv.idle_committed`), and in any
  state at most one record is (`Inv.uncommitted_le_one`);
* everything below a committed cursor has been handled (`Inv.handled`);
* each failure costs at most one repeated handling (`Inv.effort_le`).
-/

namespace CommitLog

open Runs

variable {ι : Type*} [DecidableEq ι]

/-- One reading position and one committed position for each log. -/
structure Offsets (ι : Type*) where
  position : ι → ℕ
  committed : ι → ℕ

namespace Offsets

/-- Nothing read, nothing committed. -/
def zero : Offsets ι := ⟨fun _ => 0, fun _ => 0⟩

/-- Move the reading position of one log. -/
def seek (o : Offsets ι) (i : ι) (n : ℕ) : Offsets ι :=
  { o with position := Function.update o.position i n }

/-- Commit the reading positions of all logs. -/
def commit (o : Offsets ι) : Offsets ι := { o with committed := o.position }

/-- Start reading again from the committed positions. -/
def rewind (o : Offsets ι) : Offsets ι := { o with position := o.committed }

@[simp] theorem seek_committed (o : Offsets ι) (i : ι) (n : ℕ) :
    (o.seek i n).committed = o.committed := rfl

@[simp] theorem seek_position_self (o : Offsets ι) (i : ι) (n : ℕ) :
    (o.seek i n).position i = n := by
  simp [seek]

omit [DecidableEq ι] in
@[simp] theorem commit_position (o : Offsets ι) : o.commit.position = o.position := rfl

omit [DecidableEq ι] in
@[simp] theorem commit_committed (o : Offsets ι) : o.commit.committed = o.position := rfl

omit [DecidableEq ι] in
@[simp] theorem rewind_position (o : Offsets ι) : o.rewind.position = o.committed := rfl

omit [DecidableEq ι] in
@[simp] theorem rewind_committed (o : Offsets ι) : o.rewind.committed = o.committed := rfl

end Offsets

/-- Where the process stands in its round. -/
inductive Phase (ι : Type*)
  | idle
  | taken (i : ι) (n : ℕ)
  | settled (i : ι) (n : ℕ)
  | down

/-- The cursors, the phase, and what has happened so far: the records handled,
oldest first, and the number of failures. -/
structure State (ι : Type*) where
  offsets : Offsets ι
  phase : Phase ι
  handled : List (ι × ℕ)
  faults : ℕ

/-- The events of a round and the ways out of it. -/
inductive Event (ι : Type*)
  | take (i : ι)
  | settle
  | commit
  | fail
  | failAfterCommit
  | stop
  | restart

/-- The log from which an event takes a record. -/
def Event.takes? : Event ι → Option ι
  | .take i => some i
  | _ => none

/-- The events that store the cursors. -/
def Event.stores : Event ι → Bool
  | .commit | .failAfterCommit => true
  | _ => false

/-- The event of a new process. -/
def Event.isRestart : Event ι → Bool
  | .restart => true
  | _ => false

/-- The steps of the protocol over the logs `parts`. -/
inductive Step (parts : Finset ι) : State ι → Event ι → State ι → Prop
  | take {s : State ι} (i : ι) (hphase : s.phase = .idle) (hi : i ∈ parts) :
      Step parts s (.take i)
        { s with
          offsets := s.offsets.seek i (s.offsets.position i + 1)
          phase := .taken i (s.offsets.position i) }
  | settle {s : State ι} {i : ι} {n : ℕ} (hphase : s.phase = .taken i n) :
      Step parts s .settle
        { s with phase := .settled i n, handled := s.handled ++ [(i, n)] }
  | commit {s : State ι} {i : ι} {n : ℕ} (hphase : s.phase = .settled i n) :
      Step parts s .commit
        { s with offsets := s.offsets.commit, phase := .idle }
  | fail {s : State ι} (hphase : s.phase ≠ .down) :
      Step parts s .fail { s with phase := .down, faults := s.faults + 1 }
  | failAfterCommit {s : State ι} {i : ι} {n : ℕ}
      (hphase : s.phase = .settled i n) :
      Step parts s .failAfterCommit
        { s with
          offsets := s.offsets.commit
          phase := .down
          faults := s.faults + 1 }
  | stop {s : State ι} (hphase : s.phase = .idle) :
      Step parts s .stop { s with phase := .down }
  | restart {s : State ι} (hphase : s.phase = .down) :
      Step parts s .restart
        { s with offsets := s.offsets.rewind, phase := .idle }

/-- The process is about to read for the first time. -/
def start : State ι := ⟨Offsets.zero, .idle, [], 0⟩

/-- The number of records below the committed cursors. -/
def committedTotal (parts : Finset ι) (o : Offsets ι) : ℕ :=
  ∑ i ∈ parts, o.committed i

/-- How the reading positions stand to the committed ones in each phase. -/
def Aligned (parts : Finset ι) (o : Offsets ι) : Phase ι → Prop
  | .idle => o.position = o.committed
  | .taken i n | .settled i n => i ∈ parts ∧ o.committed i = n ∧
      o.position = Function.update o.committed i (n + 1)
  | .down => o.position = o.committed ∨ ∃ i ∈ parts,
      o.position = Function.update o.committed i (o.committed i + 1)

/-- The handled record that no commit covers yet, if the phase has one. -/
def pending : Phase ι → List (ι × ℕ)
  | .settled i n => [(i, n)]
  | _ => []

/-- The invariant of the protocol. -/
structure Inv (parts : Finset ι) (s : State ι) : Prop where
  aligned : Aligned parts s.offsets s.phase
  handled : ∀ i n, n < s.offsets.committed i → (i, n) ∈ s.handled
  pending_handled : ∀ r ∈ pending s.phase, r ∈ s.handled
  effort : s.handled.length ≤
    committedTotal parts s.offsets + s.faults + (pending s.phase).length

/-- The invariant before the first step: all positions are zero and nothing is handled. -/
theorem inv_start (parts : Finset ι) : Inv parts (start : State ι) where
  aligned := rfl
  handled := by simp [start, Offsets.zero]
  pending_handled := by simp [start, pending]
  effort := by simp [start]

/-- Committing a settled record raises the committed total by one. -/
theorem committedTotal_commit {parts : Finset ι} {o : Offsets ι} {i : ι} {n : ℕ}
    (h : Aligned parts o (.settled i n)) :
    committedTotal parts o.commit = committedTotal parts o + 1 := by
  obtain ⟨hi, hn, hposition⟩ := h
  have hrest : ∑ j ∈ parts \ {i}, Function.update o.committed i (n + 1) j =
      ∑ j ∈ parts \ {i}, o.committed j := by
    refine Finset.sum_congr rfl fun j hj => Function.update_of_ne ?_ _ _
    simpa using (Finset.mem_sdiff.mp hj).2
  unfold committedTotal
  rw [Offsets.commit_committed, hposition]
  rw [← Finset.sum_sdiff (Finset.singleton_subset_iff.mpr hi), hrest,
    ← Finset.sum_sdiff (f := o.committed) (Finset.singleton_subset_iff.mpr hi)]
  simp [hn, Nat.add_assoc]

/-- Below the cursors that a commit stores there is nothing but the records
below the old ones and the settled record. -/
theorem lt_commit {parts : Finset ι} {o : Offsets ι} {i j : ι} {n k : ℕ}
    (h : Aligned parts o (.settled i n)) (hk : k < o.commit.committed j) :
    k < o.committed j ∨ (j, k) = (i, n) := by
  obtain ⟨-, hn, hposition⟩ := h
  rw [Offsets.commit_committed, hposition] at hk
  by_cases hj : j = i
  · subst j
    rw [Function.update_self] at hk
    rcases Nat.lt_succ_iff_lt_or_eq.mp hk with hlt | heq
    · exact Or.inl (by omega)
    · exact Or.inr (by rw [heq])
  · rw [Function.update_of_ne hj] at hk
    exact Or.inl hk

/-- Every step keeps the positions aligned: a take moves the position one ahead of the
committed one, and a commit or a rewind makes them equal again. -/
theorem Aligned.step {parts : Finset ι} {s t : State ι} {e : Event ι}
    (h : Aligned parts s.offsets s.phase) (hstep : Step parts s e t) :
    Aligned parts t.offsets t.phase := by
  cases hstep with
  | take i hphase hi =>
      rw [hphase] at h
      have hposition : s.offsets.position = s.offsets.committed := h
      refine ⟨hi, ?_, ?_⟩
      · simp [hposition]
      · simp [Offsets.seek, hposition]
  | settle hphase =>
      rw [hphase] at h
      exact h
  | commit hphase => exact rfl
  | fail hphase =>
      cases hp : s.phase with
      | idle => exact Or.inl (by simpa [hp, Aligned] using h)
      | taken i n | settled i n =>
          rw [hp] at h
          obtain ⟨hi, hn, hposition⟩ := h
          exact Or.inr ⟨i, hi, by rw [hn]; exact hposition⟩
      | down => exact absurd hp hphase
  | failAfterCommit hphase => exact Or.inl rfl
  | stop hphase =>
      rw [hphase] at h
      exact Or.inl h
  | restart hphase => exact rfl

/-- **Step lemma.** Every step keeps the invariant.  A settled record is handled before
its commit, and a failure in between is what the count of repetitions pays for. -/
theorem Inv.step {parts : Finset ι} {s t : State ι} {e : Event ι}
    (hinv : Inv parts s) (hstep : Step parts s e t) : Inv parts t := by
  obtain ⟨haligned, hhandled, hpending, heffort⟩ := hinv
  have haligned' := haligned.step hstep
  cases hstep with
  | take i hphase hi =>
      rw [hphase] at heffort
      exact ⟨haligned', hhandled, by simp [pending], heffort⟩
  | @settle i n hphase =>
      rw [hphase] at heffort
      refine ⟨haligned', ?_, by simp [pending], ?_⟩
      · intro j k hk
        exact List.mem_append_left _ (hhandled j k hk)
      · simp only [pending, List.length_nil, List.length_append,
          List.length_singleton] at heffort ⊢
        omega
  | @commit i n hphase =>
      rw [hphase] at haligned hpending heffort
      refine ⟨haligned', ?_, by simp [pending], ?_⟩
      · intro j k hk
        rcases lt_commit haligned hk with hlt | heq
        · exact hhandled j k hlt
        · rw [heq]
          exact hpending _ (by simp [pending])
      · simp only [committedTotal_commit haligned, pending, List.length_nil,
          List.length_singleton] at heffort ⊢
        omega
  | fail hphase =>
      refine ⟨haligned', hhandled, by simp [pending], ?_⟩
      cases hp : s.phase <;>
        simp only [hp, pending, List.length_nil, List.length_singleton] at heffort ⊢ <;>
        omega
  | @failAfterCommit i n hphase =>
      rw [hphase] at haligned hpending heffort
      refine ⟨haligned', ?_, by simp [pending], ?_⟩
      · intro j k hk
        rcases lt_commit haligned hk with hlt | heq
        · exact hhandled j k hlt
        · rw [heq]
          exact hpending _ (by simp [pending])
      · simp only [committedTotal_commit haligned, pending, List.length_nil,
          List.length_singleton] at heffort ⊢
        omega
  | stop hphase =>
      rw [hphase] at heffort
      exact ⟨haligned', hhandled, by simp [pending], heffort⟩
  | restart hphase =>
      rw [hphase] at heffort
      exact ⟨haligned', hhandled, by simp [pending], heffort⟩

/-- **Run lemma.**  The invariant holds in every reachable state. -/
theorem Inv.of_run {parts : Finset ι} {s : State ι} {es : List (Event ι)}
    (hrun : Run (Step parts) start es s) : Inv parts s :=
  hrun.invariant (Inv parts) (inv_start parts)
    (fun _ _ _ hinv hstep => hinv.step hstep)

/-- Between rounds every position is committed. -/
theorem Inv.idle_committed {parts : Finset ι} {s : State ι}
    (hinv : Inv parts s) (hphase : s.phase = .idle) :
    s.offsets.committed = s.offsets.position := by
  have haligned := hinv.aligned
  rw [hphase] at haligned
  exact haligned.symm

/-- The difference to the committed positions sits in one log and is one. -/
theorem Aligned.cases {parts : Finset ι} {o : Offsets ι} {p : Phase ι}
    (h : Aligned parts o p) : o.position = o.committed ∨ ∃ i ∈ parts,
      o.position = Function.update o.committed i (o.committed i + 1) := by
  cases p with
  | idle => exact Or.inl h
  | taken i n | settled i n =>
      obtain ⟨hi, hn, hposition⟩ := h
      exact Or.inr ⟨i, hi, by rw [hn]; exact hposition⟩
  | down => exact h

/-- In any state at most one record is read and not committed. -/
theorem Inv.uncommitted_le_one {parts : Finset ι} {s : State ι}
    (hinv : Inv parts s) :
    ∑ i ∈ parts, (s.offsets.position i - s.offsets.committed i) ≤ 1 := by
  rcases hinv.aligned.cases with h | ⟨i, hi, h⟩
  · simp [h]
  · rw [h, Finset.sum_eq_single_of_mem i hi]
    · simp
    · intro j _ hj
      simp [Function.update_of_ne hj]

/-- The committed position never passes the reading position. -/
theorem Inv.committed_le_position {parts : Finset ι} {s : State ι}
    (hinv : Inv parts s) (j : ι) :
    s.offsets.committed j ≤ s.offsets.position j := by
  rcases hinv.aligned.cases with h | ⟨i, -, h⟩
  · simp [h]
  · rw [h]
    by_cases hj : j = i
    · subst j
      simp
    · simp [Function.update_of_ne hj]

/-- **One duplicate per failure.**  The number of handlings exceeds the number
of committed records by at most the number of failures and one. -/
theorem Inv.effort_le {parts : Finset ι} {s : State ι} (hinv : Inv parts s) :
    s.handled.length ≤ committedTotal parts s.offsets + s.faults + 1 := by
  have heffort := hinv.effort
  have hpending : (pending s.phase).length ≤ 1 := by
    cases s.phase <;> simp [pending]
  omega

end CommitLog

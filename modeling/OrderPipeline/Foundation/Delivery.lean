import Mathlib.Data.List.Perm.Basic

/-!
# Asynchronous delivery

An asynchronous producer only enqueues.  A queued message leaves the queue
when its delivery report comes back: either the receiver has acknowledged it,
or it is given up for good and the error goes to a callback.  Reports arrive
at any time and in any order.

The conservation law `report_perm` says that a report only moves a message.
Hence everything handed to the producer is queued, acknowledged or given up
(`Accounts`), and the whole of it is acknowledged exactly when the other two
places are empty (`Accounts.acked_perm_iff`).
-/

/-- The two ways in which a message leaves the queue. -/
inductive Report
  | acknowledged
  | givenUp
  deriving DecidableEq, Repr

/-- An asynchronous producer: the messages in flight, those acknowledged by
the receiver and those reported back with an error. -/
structure Delivery (α : Type*) where
  queue : List α
  acked : List α
  failed : List α

namespace Delivery

variable {α : Type*}

/-- Nothing handed over yet. -/
def empty : Delivery α := ⟨[], [], []⟩

/-- Hand a message to the producer: it is only enqueued. -/
def produce (d : Delivery α) (a : α) : Delivery α :=
  { d with queue := d.queue ++ [a] }

/-- File a message that has left the queue under its report. -/
def file (d : Delivery α) (a : α) : Report → Delivery α
  | .acknowledged => { d with acked := d.acked ++ [a] }
  | .givenUp => { d with failed := d.failed ++ [a] }

/-- The report for the queued message number `i`. -/
def report (d : Delivery α) (i : ℕ) (r : Report) : Delivery α :=
  match d.queue[i]? with
  | none => d
  | some a => file { d with queue := d.queue.eraseIdx i } a r

/-- The producer is gone, and what was still queued with it. -/
def drop (d : Delivery α) : Delivery α := { d with queue := [] }

/-- Every message the producer still knows of, wherever it is filed. -/
def all (d : Delivery α) : List α := d.queue ++ (d.acked ++ d.failed)

@[simp] theorem produce_queue (d : Delivery α) (a : α) :
    (d.produce a).queue = d.queue ++ [a] := rfl

@[simp] theorem produce_acked (d : Delivery α) (a : α) :
    (d.produce a).acked = d.acked := rfl

@[simp] theorem produce_failed (d : Delivery α) (a : α) :
    (d.produce a).failed = d.failed := rfl

@[simp] theorem drop_acked (d : Delivery α) : d.drop.acked = d.acked := rfl

@[simp] theorem drop_failed (d : Delivery α) : d.drop.failed = d.failed := rfl

@[simp] theorem drop_queue (d : Delivery α) : d.drop.queue = [] := rfl

/-- What a report does: it names a queued message and moves it. -/
theorem report_cases (d : Delivery α) (i : ℕ) (r : Report) :
    d.report i r = d ∨ ∃ a, d.queue[i]? = some a ∧
      d.report i r = file { d with queue := d.queue.eraseIdx i } a r := by
  unfold report
  cases h : d.queue[i]? with
  | none => exact Or.inl rfl
  | some a => exact Or.inr ⟨a, rfl, rfl⟩

/-- Taking the message number `i` out of the queue permutes it to the front. -/
theorem eraseIdx_perm {xs : List α} {i : ℕ} {a : α} (h : xs[i]? = some a) :
    (a :: xs.eraseIdx i).Perm xs := by
  obtain ⟨hi, rfl⟩ := List.getElem?_eq_some_iff.mp h
  exact List.getElem_cons_eraseIdx_perm hi

/-- **Conservation.** A report moves a message and loses none: what the producer
accounts for is the same list, in another order. -/
theorem report_perm (d : Delivery α) (i : ℕ) (r : Report) :
    (d.report i r).all.Perm d.all := by
  rcases d.report_cases i r with h | ⟨a, ha, h⟩
  · rw [h]
  · have hqueue := (eraseIdx_perm ha).append_right (d.acked ++ d.failed)
    rw [h]
    refine List.Perm.trans ?_ hqueue
    cases r with
    | acknowledged =>
        have hmiddle : (d.queue.eraseIdx i ++ d.acked ++ a :: d.failed).Perm
            (a :: (d.queue.eraseIdx i ++ d.acked ++ d.failed)) :=
          List.perm_middle
        simpa [all, file] using hmiddle
    | givenUp =>
        have hlast : (d.queue.eraseIdx i ++ d.acked ++ d.failed ++ [a]).Perm
            ([a] ++ (d.queue.eraseIdx i ++ d.acked ++ d.failed)) :=
          List.perm_append_comm
        simpa [all, file] using hlast

/-- What is left of a producer that is gone. -/
theorem drop_all_sublist (d : Delivery α) : d.drop.all.Sublist d.all :=
  List.sublist_append_right d.queue (d.acked ++ d.failed)

/-- A hand-over adds one message to what the producer knows of. -/
theorem produce_perm (d : Delivery α) (a : α) :
    (d.produce a).all.Perm (d.all ++ [a]) := by
  simp only [all, produce, List.append_assoc]
  refine List.Perm.append_left d.queue ?_
  have hswap : ([a] ++ (d.acked ++ d.failed)).Perm
      (d.acked ++ d.failed ++ [a]) := List.perm_append_comm
  simpa using hswap

/-- Acknowledgements are never taken back. -/
theorem acked_report_of_mem {d : Delivery α} {i : ℕ} {r : Report} {a : α}
    (h : a ∈ d.acked) : a ∈ (d.report i r).acked := by
  rcases d.report_cases i r with hr | ⟨b, -, hr⟩
  · rwa [hr]
  · rw [hr]
    cases r <;> simp [file, h]

/-- A report that is not an error leaves the failed messages alone. -/
theorem failed_report_acknowledged (d : Delivery α) (i : ℕ) :
    (d.report i .acknowledged).failed = d.failed := by
  rcases d.report_cases i .acknowledged with h | ⟨a, -, h⟩ <;> rw [h]
  rfl

/-- An error report on a queued message leaves a failed message behind. -/
theorem failed_report_givenUp {d : Delivery α} {i : ℕ} (hi : i < d.queue.length) :
    (d.report i .givenUp).failed ≠ [] := by
  simp [report, file, List.getElem?_eq_getElem hi]

/-- The producer accounts for exactly the messages handed to it. -/
def Accounts (d : Delivery α) (handed : List α) : Prop := d.all.Perm handed

theorem accounts_empty : Accounts (empty : Delivery α) [] := List.Perm.nil

/-- A message handed to the producer is one more in its queue. -/
theorem Accounts.produce {d : Delivery α} {handed : List α}
    (h : d.Accounts handed) (a : α) : (d.produce a).Accounts (handed ++ [a]) :=
  (d.produce_perm a).trans (h.append_right [a])

/-- A report moves a message from the queue to the acknowledged or to the failed ones,
so no message is lost and none is doubled. -/
theorem Accounts.report {d : Delivery α} {handed : List α}
    (h : d.Accounts handed) (i : ℕ) (r : Report) :
    (d.report i r).Accounts handed :=
  (d.report_perm i r).trans h

/-- **Settlement.**  Everything handed over is acknowledged exactly when
nothing is queued any more and nothing was given up. -/
theorem Accounts.acked_perm_iff {d : Delivery α} {handed : List α}
    (h : d.Accounts handed) :
    handed.Perm d.acked ↔ d.queue = [] ∧ d.failed = [] := by
  have hlength := h.length_eq
  simp only [all, List.length_append] at hlength
  constructor
  · intro hall
    have hsame := hall.length_eq
    exact ⟨List.length_eq_zero_iff.mp (by omega),
      List.length_eq_zero_iff.mp (by omega)⟩
  · rintro ⟨hqueue, hfailed⟩
    simpa [Accounts, all, hqueue, hfailed] using h.symm

/-- The accounts together with what the reports so far have said: whether one of
them gave a message up. -/
structure Audit (d : Delivery α) (handed : List α) (lost : Prop) : Prop where
  accounts : d.Accounts handed
  failed : d.failed ≠ [] ↔ lost

theorem audit_empty : Audit (empty : Delivery α) [] False where
  accounts := accounts_empty
  failed := by simp [empty]

/-- A message that is only queued has not failed. -/
theorem Audit.produce {d : Delivery α} {handed : List α} {lost : Prop}
    (h : d.Audit handed lost) (a : α) : (d.produce a).Audit (handed ++ [a]) lost where
  accounts := h.accounts.produce a
  failed := h.failed

/-- A report on a queued message: it adds to the failed ones exactly if it gives the
message up. -/
theorem Audit.report {d : Delivery α} {handed : List α} {lost : Prop}
    (h : d.Audit handed lost) {i : ℕ} (hi : i < d.queue.length) (r : Report) :
    (d.report i r).Audit handed (lost ∨ r = .givenUp) where
  accounts := h.accounts.report i r
  failed := by
    cases r with
    | acknowledged =>
        rw [failed_report_acknowledged]
        simpa using h.failed
    | givenUp =>
        have hlost := failed_report_givenUp hi
        simp [hlost]

/-- Everything handed over is acknowledged exactly when nothing is queued any more
and no report gave a message up. -/
theorem Audit.acked_perm_iff {d : Delivery α} {handed : List α} {lost : Prop}
    (h : d.Audit handed lost) : handed.Perm d.acked ↔ d.queue = [] ∧ ¬lost := by
  rw [h.accounts.acked_perm_iff, ← h.failed, not_not]

end Delivery

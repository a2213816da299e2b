import OrderPipeline.ConsumerSystem

/-!
# At least once, with one duplicate per fault

What handling before committing gives the consumer, over every run of the system:
at a loop head nothing is uncommitted, in any state at most one record is, what is
below a committed position has been handled, and a fault costs at most one repeated
handling (`at_least_once`).

The protocol behind it proves these about coordinates.  `Genuine` adds that the
coordinates are those of the records in the partition logs.
-/

namespace OrderPipeline

open Runs

/-! ## Messages of the topic -/

/-- A message that decodes from the record at its coordinates. -/
def Topic.Holds (t : Topic) (m : Message) : Prop :=
  ∃ r, (t.log m.partition)[m.offset]? = some r ∧
    r.message? t.name m.partition m.offset = some m

/-- The coordinates determine the message. -/
theorem Topic.Holds.unique {t : Topic} {m m' : Message} (h : t.Holds m) (h' : t.Holds m')
    (hcoordinates : m.coordinates = m'.coordinates) : m = m' := by
  obtain ⟨r, hr, hm⟩ := h
  obtain ⟨r', hr', hm'⟩ := h'
  obtain ⟨hpartition, hoffset⟩ := Prod.mk.inj hcoordinates
  rw [hpartition, hoffset] at hr hm
  rw [hr'] at hr
  cases hr
  rw [hm] at hm'
  exact Option.some.inj hm'

/-- The message in hand is of the topic, and `main` is in the branch for its value. -/
def Pc.Genuine (t : Topic) : Pc → Prop
  | .polled m => t.Holds m
  | .skipping m => t.Holds m ∧ m.value = none
  | .attempting m order _ _ _ _ => t.Holds m ∧ m.value = some order
  | .executed m order _ => t.Holds m ∧ m.value = some order
  | .publishing m order _ => t.Holds m ∧ m.value = some order
  | .produced m _ => t.Holds m ∧ m.value ≠ none
  | .committing m _ => t.Holds m ∧ m.value ≠ none
  | _ => True

/-- A deed is about a message of the topic: tombstones are skipped, orders are
aggregated or handed over. -/
def Deed.Genuine (t : Topic) : Deed → Prop
  | .aggregated m => t.Holds m ∧ m.value ≠ none
  | .handedOver m => t.Holds m ∧ m.value ≠ none
  | .skipped m => t.Holds m ∧ m.value = none

/-- A handling is about a message of the topic and the order in it. -/
def Handling.Genuine (t : Topic) (h : Handling) : Prop :=
  t.Holds h.message ∧ h.message.value = some h.order

/-- The system deals with the messages of the topic only. -/
structure System.Genuine {σ : Type} (t : Topic) (s : System σ) : Prop where
  pc : s.pc.Genuine t
  history : ∀ d ∈ s.history, d.Genuine t
  outcomes : ∀ h ∈ s.outcomes, h.Genuine t

variable {σ : Type} {setup : Setup σ} {effect₀ : σ} {t : Topic}

theorem System.genuine_init : (System.init effect₀).Genuine t where
  pc := trivial
  history := by simp [System.init]
  outcomes := by simp [System.init]

/-- An exception that leaves the loop handles no message and changes no record of what
was handled. -/
theorem System.Genuine.raise {s : System σ} (h : s.Genuine t) (exit : Exit) :
    (s.raise exit).Genuine t :=
  ⟨trivial, h.history, h.outcomes⟩

/-- What is true of the old elements and of the new one is true of all. -/
theorem forall_mem_snoc {α : Type*} {p : α → Prop} {xs : List α} {x : α}
    (hxs : ∀ y ∈ xs, p y) (hx : p x) : ∀ y ∈ xs ++ [x], p y := by
  intro y hy
  rcases List.mem_append.mp hy with hy | hy
  · exact hxs y hy
  · rw [List.mem_singleton.mp hy]
    exact hx

/-- **Step lemma.** Only `receive` brings a message in, and the message it brings is
that of the record at its offset; every other step keeps the message in hand or drops
it. -/
theorem System.Genuine.step {s s' : System σ} {l : Label} (h : s.Genuine t)
    (hstep : Step setup effect₀ t s l s') : s'.Genuine t := by
  have hpc' := h.pc
  cases hstep with
  | idle hpc => exact h
  | @receive p r m hpc hr hm =>
      obtain ⟨hpartition, hoffset⟩ := Record.message?_coordinates hm
      refine ⟨⟨r, ?_, ?_⟩, h.history, h.outcomes⟩
      · rw [hpartition, hoffset]
        exact hr
      · rw [hpartition, hoffset]
        exact hm
  | pollRaised exc hpc => exact h.raise _
  | skip hpc hvalue =>
      rw [hpc] at hpc'
      exact ⟨⟨hpc', hvalue⟩, forall_mem_snoc h.history ⟨hpc', hvalue⟩, h.outcomes⟩
  | begin hpc hvalue =>
      rw [hpc] at hpc'
      exact ⟨⟨hpc', hvalue⟩, h.history, h.outcomes⟩
  | @returned m order remaining attempt lastExc calls a outcome hpc ha hverdict =>
      rw [hpc] at hpc'
      subst ha
      refine ⟨hpc', ?_, forall_mem_snoc h.outcomes hpc'⟩
      rcases Setup.tryOnce_returned hverdict m with ⟨-, hdeeds⟩ | ⟨-, hdeeds⟩
      · show ∀ d ∈ s.history ++ deedOf m _, d.Genuine t
        rw [hdeeds]
        exact forall_mem_snoc h.history ⟨hpc'.1, by simp [hpc'.2]⟩
      · show ∀ d ∈ s.history ++ deedOf m _, d.Genuine t
        rw [hdeeds, List.append_nil]
        exact h.history
  | again hpc ha hverdict =>
      rw [hpc] at hpc'
      exact ⟨hpc', h.history, h.outcomes⟩
  | escaped hpc ha hverdict => exact ⟨trivial, h.history, h.outcomes⟩
  | exhausted hpc =>
      rw [hpc] at hpc'
      exact ⟨hpc', h.history, forall_mem_snoc h.outcomes hpc'⟩
  | succeeded hpc houtcome =>
      rw [hpc] at hpc'
      exact ⟨⟨hpc'.1, by simp [hpc'.2]⟩, h.history, h.outcomes⟩
  | failed hpc houtcome =>
      rw [hpc] at hpc'
      exact ⟨hpc', h.history, h.outcomes⟩
  | @produce m order outcome r failedAt hpc hr =>
      rw [hpc] at hpc'
      have hvalue : t.Holds m ∧ m.value ≠ none := ⟨hpc'.1, by simp [hpc'.2]⟩
      exact ⟨hvalue, forall_mem_snoc h.history hvalue, h.outcomes⟩
  | publishRaised exc hpc => exact h.raise _
  | count hpc =>
      rw [hpc] at hpc'
      exact ⟨hpc', h.history, h.outcomes⟩
  | commitSkipped hpc => exact ⟨trivial, h.history, h.outcomes⟩
  | commit hpc => exact ⟨trivial, h.history, h.outcomes⟩
  | commitRaised exc stored hpc => exact ⟨trivial, h.history, h.outcomes⟩
  | stop hpc => exact ⟨trivial, h.history, h.outcomes⟩
  | interrupt hactive hpc => exact h.raise _
  | interruptBeforeCount hpc => exact h.raise _
  | flush hpc => exact ⟨trivial, h.history, h.outcomes⟩
  | report i r hi hpc => exact ⟨h.pc, h.history, h.outcomes⟩
  | crash hactive => exact ⟨trivial, h.history, h.outcomes⟩
  | leave hpc => exact ⟨trivial, h.history, h.outcomes⟩
  | restart drawn hpc => exact ⟨trivial, h.history, h.outcomes⟩

/-- **Run lemma.** -/
theorem System.genuine_of_run {s : System σ} {ls : List Label}
    (hrun : Run (Step setup effect₀ t) (System.init effect₀) ls s) : s.Genuine t :=
  hrun.invariant (System.Genuine t) System.genuine_init
    (fun _ _ _ h hstep => h.step hstep)

/-! ## Stopping by the flag -/

/-- The way out that has been taken, once the loop is left. -/
def Pc.exit? : Pc → Option Exit
  | .closing exit => some exit
  | .exited exit _ => some exit
  | _ => none

/-- An exception does not look like a stop by the flag. -/
theorem exitOf_ne_stopped (exc : Exn) : exitOf exc ≠ .stopped := by
  unfold exitOf
  split <;> simp

/-- The process has been stopped by the flag. -/
def System.Stopped (s : System σ) : Prop := s.pc.exit? = some .stopped

/-- How a stopped state comes about: at a loop head, or from a stopped state.  What the
consumer has done stays as it was. -/
theorem Step.stopped {s s' : System σ} {l : Label} (hstep : Step setup effect₀ t s l s')
    (hstopped : s'.Stopped) :
    (s.pc = .head ∨ s.Stopped) ∧ s'.consumer = s.consumer := by
  have hnever : ∀ exit : Exit, exit ≠ .stopped → some exit ≠ some Exit.stopped := by
    intro exit hne heq
    exact hne (Option.some.inj heq)
  cases hstep with
  | idle hpc => exact ⟨Or.inl hpc, rfl⟩
  | pollRaised exc hpc => exact absurd hstopped (hnever _ (exitOf_ne_stopped exc))
  | escaped hpc ha hverdict => exact absurd hstopped (hnever _ (exitOf_ne_stopped _))
  | publishRaised exc hpc => exact absurd hstopped (hnever _ (exitOf_ne_stopped exc))
  | commitRaised exc stored hpc => exact absurd hstopped (hnever _ (exitOf_ne_stopped exc))
  | interrupt hactive hpc => exact absurd hstopped (hnever _ (by simp))
  | interruptBeforeCount hpc => exact absurd hstopped (hnever _ (by simp))
  | stop hpc => exact ⟨Or.inl hpc, rfl⟩
  | flush hpc =>
      have hexit := Option.some.inj hstopped
      refine ⟨Or.inr ?_, rfl⟩
      unfold System.Stopped
      rw [hpc, ← hexit]
      rfl
  | report i r hi hpc => exact ⟨Or.inr hstopped, rfl⟩
  | _ => cases hstopped

/-- **Main lemma for stops.**  The flag is looked at between two passes only, so a
stop finds the positions as the last commit has left them. -/
theorem stopped_committed {s : System σ} {ls : List Label}
    (hrun : Run (Step setup effect₀ t) (System.init effect₀) ls s) (hstopped : s.Stopped) :
    s.consumer.offsets.committed = s.consumer.offsets.position := by
  induction hrun with
  | nil => cases hstopped
  | snoc hrun hlast ih =>
      obtain ⟨hbefore, hsame⟩ := hlast.stopped hstopped
      rw [hsame]
      rcases hbefore with hpc | hstopped
      · exact (System.inv_of_run hrun).idle_committed (by simp [System.abs, Pc.phase, hpc])
      · exact ih hstopped

/-- **At least once, with one duplicate per fault.**  In every state that the system
reaches, through any number of processes and whatever the side effect does:

* at a loop head, and after a stop by the flag, the committed position of every
  partition is the position after the last record polled from it;
* at most one polled record of all partitions is uncommitted;
* every record below a committed position has been aggregated, handed to the DLQ
  producer, or skipped as a tombstone;
* the deeds are at most the committed records, the faults and one. -/
theorem at_least_once {s : System σ} {ls : List Label}
    (hrun : Run (Step setup effect₀ t) (System.init effect₀) ls s) :
    (s.pc = .head ∨ s.Stopped →
      s.consumer.offsets.committed = s.consumer.offsets.position) ∧
    ((∀ p, s.consumer.offsets.committed p ≤ s.consumer.offsets.position p) ∧
      ∑ p ∈ t.parts,
        (s.consumer.offsets.position p - s.consumer.offsets.committed p) ≤ 1) ∧
    (∀ p n, n < s.consumer.offsets.committed p →
      ∃ d ∈ s.history, d.coordinates = (p, n) ∧ d.Genuine t) ∧
    s.history.length ≤
      CommitLog.committedTotal t.parts s.consumer.offsets + s.faults + 1 := by
  have hinv := System.inv_of_run hrun
  have hgenuine := System.genuine_of_run hrun
  refine ⟨?_, ⟨hinv.committed_le_position, hinv.uncommitted_le_one⟩, ?_, ?_⟩
  · rintro (hpc | hstopped)
    · exact hinv.idle_committed (by simp [System.abs, Pc.phase, hpc])
    · exact stopped_committed hrun hstopped
  · intro p n hn
    obtain ⟨d, hd, hcoordinates⟩ := List.mem_map.mp (hinv.handled p n hn)
    exact ⟨d, hd, hcoordinates, hgenuine.history d hd⟩
  · have heffort := hinv.effort_le
    simpa [System.abs] using heffort

/-- A topic with one tombstone. -/
def tombstoneTopic : Topic where
  name := "orders"
  partitions := [[⟨some "1001", .tombstone⟩]]

/-- The default setup of `main`, with a fixed draw. -/
def sampleSetup : Setup FailureSimulator :=
  mainSetup {} (fun _ => Draw.half) "orders.DLQ"

/-- A crash between the tombstone branch and its commit: the next process skips the
same record again, and then commits it. -/
theorem crash_before_commit_run : ∃ s : System FailureSimulator,
    Run (Step sampleSetup {} tombstoneTopic) (System.init {})
      [.receive 0, .skip, .crash, .restart 0, .receive 0, .skip, .commit] s ∧
    s.history.length = 2 ∧ s.consumer.offsets.committed 0 = 1 ∧ s.faults = 1 ∧
    s.pc = .head := by
  refine ⟨_, Run.cons (.receive rfl rfl rfl) <| Run.cons (.skip rfl rfl) <|
    Run.cons (.crash rfl) <| Run.cons (.restart 0 rfl) <|
    Run.cons (.receive rfl rfl rfl) <| Run.cons (.skip rfl rfl) <|
    Run.single (.commitSkipped rfl), rfl, rfl, rfl, rfl⟩

/-- The run with a crash: two deeds, one committed record and one fault. -/
theorem at_least_once_crash : ∃ s : System FailureSimulator,
    Run (Step sampleSetup {} tombstoneTopic) (System.init {})
      [.receive 0, .skip, .crash, .restart 0, .receive 0, .skip, .commit] s ∧
    s.history.length = 2 ∧
    s.consumer.offsets.committed = s.consumer.offsets.position ∧
    s.history.length ≤
      CommitLog.committedTotal tombstoneTopic.parts s.consumer.offsets + s.faults + 1 := by
  obtain ⟨s, hrun, hlength, -, -, hpc⟩ := crash_before_commit_run
  obtain ⟨hhead, -, -, heffort⟩ := at_least_once hrun
  exact ⟨s, hrun, hlength, hhead (Or.inl hpc), heffort⟩

end OrderPipeline

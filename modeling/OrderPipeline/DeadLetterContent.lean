import Mathlib.Data.List.Perm.Subperm
import OrderPipeline.DeadLetterSafety
import OrderPipeline.Replay

/-!
# What the dead letter topic holds

Over every run of the system, with its crashes, restarts and lost reports, and
whatever the side effect does:

* the records the DLQ producer knows of are copies, one each at most, of failed
  outcomes, and a replay of each gives back the record of the source topic it
  stands for (`dead_letters_are_copies`);
* if the commits wait for the delivery reports, every record behind a committed
  position is a tombstone, was aggregated by its last outcome, or can be replayed
  from an acknowledged record (`committed_records_accounted`).

The first rests on an invariant that keeps the last failed outcome apart while its
record has not been handed over (`System.Sourced`).
-/

namespace OrderPipeline

open Runs

/-- Every order of the topic has a finite price, as a binary32 float. -/
def Topic.Replayable (t : Topic) : Prop :=
  ∀ p, ∀ r ∈ t.log p, ∀ o, r.content = .order o →
    ∃ q, o.price = .finite q ∧ PyFloat.IsBinary32 q

/-- The origin of the order at some coordinates of a topic. -/
def Topic.origin (t : Topic) (p n : ℕ) (key : Option String) (o : AvroOrder) : Origin :=
  ⟨key, o, t.name, p, n⟩

/-- A DLQ record is a copy of a record of the topic: it can be replayed, and gives
back its order, its coordinates and its key, the empty key as no key. -/
def Topic.CopiedAs (t : Topic) (m : Message) (d : DlqRecord) : Prop :=
  ∃ key o, (t.log m.partition)[m.offset]? = some ⟨key, .order o⟩ ∧
    replay d.withoutFailedAt =
      some (t.origin m.partition m.offset key o).withoutEmptyKey

/-! ## One record -/

/-- A message of the topic that has a value comes from a record with an order, and its
key and its topic are those of the record. -/
theorem Topic.Holds.order {t : Topic} {m : Message} {order : Order} (h : t.Holds m)
    (hvalue : m.value = some order) :
    ∃ o, (t.log m.partition)[m.offset]? = some ⟨m.key, .order o⟩ ∧
      order = dictToOrder o ∧ m.topic = t.name := by
  obtain ⟨⟨key, content⟩, hr, hm⟩ := h
  cases content with
  | order o =>
      have hmessage : (⟨t.name, m.partition, m.offset, key, some (dictToOrder o)⟩ : Message) =
          m := Option.some.inj hm
      have hkey : key = m.key := congrArg Message.key hmessage
      have htopic : t.name = m.topic := congrArg Message.topic hmessage
      have horder : some (dictToOrder o) = m.value := congrArg Message.value hmessage
      rw [hvalue] at horder
      rw [hkey] at hr
      exact ⟨o, hr, (Option.some.inj horder).symm, htopic.symm⟩
  | tombstone =>
      have hmessage : (⟨t.name, m.partition, m.offset, key, none⟩ : Message) = m :=
        Option.some.inj hm
      have hnone : none = m.value := congrArg Message.value hmessage
      rw [hvalue] at hnone
      cases hnone
  | undecodable => cases hm

/-- A message without a value comes from a tombstone. -/
theorem Topic.Holds.tombstone {t : Topic} {m : Message} (h : t.Holds m)
    (hvalue : m.value = none) :
    ∃ r, (t.log m.partition)[m.offset]? = some r ∧ r.content = .tombstone := by
  obtain ⟨r, hr, hm⟩ := h
  refine ⟨r, hr, ?_⟩
  unfold Record.message? at hm
  cases hcontent : r.content with
  | tombstone => rfl
  | order o =>
      rw [hcontent] at hm
      rw [← Option.some.inj hm] at hvalue
      cases hvalue
  | undecodable =>
      rw [hcontent] at hm
      cases hm

/-- What is published for a message of the topic is a copy of its record. -/
theorem Topic.Replayable.copied {t : Topic} (ht : t.Replayable) {h : Handling}
    (hgenuine : h.Genuine t) {dlqTopic : String} {d : DlqRecord}
    (hpublished : h.PublishedAs dlqTopic d) : t.CopiedAs h.message d := by
  obtain ⟨hholds, hvalue⟩ := hgenuine
  obtain ⟨o, hr, horder, htopic⟩ := hholds.order hvalue
  obtain ⟨failedAt, hrecord⟩ := hpublished
  refine ⟨h.message.key, o, hr, ?_⟩
  let failure : FailedMessage :=
    { origin := t.origin h.message.partition h.message.offset h.message.key o
      error := h.outcome.error
      retryCount := h.outcome.attempts
      finitePrice := ht _ _ (List.mem_of_getElem? hr) o rfl }
  have hsame : failure.record dlqTopic failedAt = .ok d := by
    rw [horder] at hrecord
    unfold dlqRecordOf at hrecord
    rw [htopic] at hrecord
    exact hrecord
  exact replay_record hsame

/-! ## Lists related member by member -/

/-- The partner of an element of the second list. -/
theorem exists_of_mem_right {α β : Type*} {R : α → β → Prop} {xs : List α} {ys : List β}
    (h : List.Forall₂ R xs ys) {y : β} (hy : y ∈ ys) : ∃ x ∈ xs, R x y := by
  induction h with
  | nil => cases hy
  | @cons x y' xs ys hhead _ ih =>
      rcases List.mem_cons.mp hy with rfl | hy
      · exact ⟨x, by simp, hhead⟩
      · obtain ⟨x', hx', hr⟩ := ih hy
        exact ⟨x', by simp [hx'], hr⟩

/-- What is related to the members of a list has partners among those of the other. -/
theorem forall₂_subperm {α β : Type*} {R : α → β → Prop} {as : List α} {bs cs : List β}
    (h : List.Forall₂ R as bs) (hsub : cs.Subperm bs) :
    ∃ ds, ds.Subperm as ∧ List.Forall₂ R ds cs := by
  obtain ⟨cs', hperm, hsublist⟩ := hsub
  obtain ⟨as', hall, hsublist'⟩ : ∃ as', List.Forall₂ R as' cs' ∧ as'.Sublist as := by
    clear hperm
    induction hsublist generalizing as with
    | slnil => exact ⟨[], .nil, as.nil_sublist⟩
    | cons b hrest ih =>
        cases h with
        | cons hab htail =>
            obtain ⟨as', hall, hsub⟩ := ih htail
            exact ⟨as', hall, hsub.cons _⟩
    | cons_cons b hrest ih =>
        cases h with
        | cons hab htail =>
            obtain ⟨as', hall, hsub⟩ := ih htail
            exact ⟨_ :: as', .cons hab hall, hsub.cons_cons _⟩
  obtain ⟨ds, hds, hpermuted⟩ := List.perm_comp_forall₂ hperm.symm hall.flip
  exact ⟨ds, ⟨as', hpermuted.symm, hsublist'⟩, hds.flip⟩

/-! ## Where the records come from -/

section Sources

variable {σ : Type} {setup : Setup σ} {effect₀ : σ} {t : Topic}

/-- The outcome that still waits for its branch, or for its record to be handed
over. -/
def Pc.waiting (outcomes pre : List Handling) : Pc → Prop
  | .executed m order outcome => ∃ calls, outcomes = pre ++ [⟨m, order, outcome, calls⟩]
  | .publishing m order outcome => outcome.succeeded = false ∧
      ∃ calls, outcomes = pre ++ [⟨m, order, outcome, calls⟩]
  | _ => outcomes = pre

/-- The records of the producer are among the copies of the failed outcomes, but for
the outcome that still waits. -/
def System.Sourced (dlqTopic : String) (s : System σ) : Prop :=
  ∃ pre hs ds, s.pc.waiting s.outcomes pre ∧ hs.Sublist (failedOf pre) ∧
    List.Forall₂ (Handling.PublishedAs dlqTopic) hs ds ∧ s.delivery.all.Subperm ds

/-- A step that ends no call of `execute` and hands nothing over. -/
theorem System.Sourced.of_same {dlqTopic : String} {s s' : System σ} {pc : Pc}
    (h : s.Sourced dlqTopic) (hpc : s.pc = pc)
    (hwaiting : ∀ pre, pc.waiting s.outcomes pre → s'.pc.waiting s'.outcomes pre)
    (hdelivery : s'.delivery.all.Subperm s.delivery.all) : s'.Sourced dlqTopic := by
  obtain ⟨pre, hs, ds, hbefore, hsublist, hcopies, hall⟩ := h
  subst hpc
  exact ⟨pre, hs, ds, hwaiting pre hbefore, hsublist, hcopies, hdelivery.trans hall⟩

/-- Whatever is left undone, the failed outcomes of the run cover the records: each
record handed over, in whatever state its delivery is, has an outcome of its own. -/
theorem System.Sourced.failed {dlqTopic : String} {s : System σ} (h : s.Sourced dlqTopic) :
    ∃ hs ds, hs.Sublist (failedOf s.outcomes) ∧
      List.Forall₂ (Handling.PublishedAs dlqTopic) hs ds ∧ s.delivery.all.Subperm ds := by
  obtain ⟨pre, hs, ds, hwaiting, hsublist, hcopies, hall⟩ := h
  have hinitial : (failedOf pre).Sublist (failedOf s.outcomes) := by
    unfold failedOf
    apply List.Sublist.filter
    cases hpc : s.pc with
    | executed m order outcome =>
        rw [hpc] at hwaiting
        obtain ⟨calls, houtcomes⟩ := hwaiting
        rw [houtcomes]
        exact List.sublist_append_left _ _
    | publishing m order outcome =>
        rw [hpc] at hwaiting
        obtain ⟨-, calls, houtcomes⟩ := hwaiting
        rw [houtcomes]
        exact List.sublist_append_left _ _
    | _ =>
        rw [hpc] at hwaiting
        rw [show s.outcomes = pre from hwaiting]
  exact ⟨hs, ds, hsublist.trans hinitial, hcopies, hall⟩

/-- Leaving the body for good: the waiting outcome stays without a record. -/
theorem System.Sourced.leave {dlqTopic : String} {s s' : System σ} (h : s.Sourced dlqTopic)
    (hwaiting : s'.pc.waiting s.outcomes s.outcomes) (houtcomes : s'.outcomes = s.outcomes)
    (hdelivery : s'.delivery.all.Subperm s.delivery.all) : s'.Sourced dlqTopic := by
  obtain ⟨hs, ds, hsublist, hcopies, hall⟩ := h.failed
  refine ⟨s.outcomes, hs, ds, ?_, hsublist, hcopies, hdelivery.trans hall⟩
  rw [houtcomes]
  exact hwaiting

/-- **Step lemma.** `produce` pairs the new record with the failed outcome in hand.  A
report only moves a record and a crash only drops some, so the partners stay. -/
theorem System.Sourced.step {s s' : System σ} {l : Label} (h : s.Sourced setup.dlqTopic)
    (hstep : Step setup effect₀ t s l s') : s'.Sourced setup.dlqTopic := by
  have hsame : s.delivery.all.Subperm s.delivery.all := List.Subperm.refl _
  cases hstep with
  | idle hpc => exact h
  | receive hpc hr hm => exact h.of_same hpc (fun _ hw => hw) hsame
  | skip hpc hvalue => exact h.of_same hpc (fun _ hw => hw) hsame
  | begin hpc hvalue => exact h.of_same hpc (fun _ hw => hw) hsame
  | returned hpc ha hverdict =>
      exact h.of_same hpc (fun _ hw => ⟨_, congrArg (· ++ _) hw⟩) hsame
  | again hpc ha hverdict => exact h.of_same hpc (fun _ hw => hw) hsame
  | exhausted hpc => exact h.of_same hpc (fun _ hw => ⟨_, congrArg (· ++ _) hw⟩) hsame
  | succeeded hpc houtcome =>
      exact h.leave rfl rfl hsame
  | failed hpc houtcome => exact h.of_same hpc (fun _ hw => ⟨houtcome, hw⟩) hsame
  | @produce m order outcome r failedAt hpc hr =>
      obtain ⟨pre, hs, ds, hwaiting, hsublist, hcopies, hall⟩ := h
      rw [hpc] at hwaiting
      obtain ⟨hfailed, calls, houtcomes⟩ := hwaiting
      refine ⟨s.outcomes, hs ++ [⟨m, order, outcome, calls⟩], ds ++ [r], rfl, ?_, ?_, ?_⟩
      · rw [houtcomes, failedOf_snoc]
        simpa [hfailed] using hsublist
      · exact List.rel_append hcopies (List.Forall₂.cons ⟨failedAt, hr⟩ List.Forall₂.nil)
      · have hproduced := (s.delivery.produce_perm r).subperm
        exact hproduced.trans (hall.append (List.Subperm.refl _))
  | count hpc => exact h.of_same hpc (fun _ hw => hw) hsame
  | commitSkipped hpc => exact h.of_same hpc (fun _ hw => hw) hsame
  | commit hpc => exact h.of_same hpc (fun _ hw => hw) hsame
  | flush hpc => exact h.of_same hpc (fun _ hw => hw) hsame
  | report i r hi hpc =>
      exact h.of_same rfl (fun _ hw => hw) (s.delivery.report_perm i r).subperm
  | crash hactive => exact h.leave rfl rfl s.delivery.drop_all_sublist.subperm
  | leave hpc => exact h.leave rfl rfl s.delivery.drop_all_sublist.subperm
  | restart drawn hpc => exact h.leave rfl rfl hsame
  | _ => exact h.leave rfl rfl hsame

/-- **Run lemma.** -/
theorem System.sourced_of_run {s : System σ} {ls : List Label}
    (hrun : Run (Step setup effect₀ t) (System.init effect₀) ls s) :
    s.Sourced setup.dlqTopic := by
  refine hrun.invariant (System.Sourced setup.dlqTopic) ?_ (fun _ _ _ h hstep => h.step hstep)
  exact ⟨[], [], [], rfl, List.Sublist.refl _, List.Forall₂.nil, List.Subperm.refl _⟩

/-- **Every dead letter is a copy of a failed record.**  In every state of every run
the records that the DLQ producer has queued, acknowledged or given up are copies of
failed outcomes, at most one for each, and a replay of such a copy gives back the
record of the source topic that failed. -/
theorem dead_letters_are_copies (ht : t.Replayable) {s : System σ} {ls : List Label}
    (hrun : Run (Step setup effect₀ t) (System.init effect₀) ls s) :
    ∃ hs ds, hs.Sublist (failedOf s.outcomes) ∧ s.delivery.all.Subperm ds ∧
      List.Forall₂ (fun h d => h.PublishedAs setup.dlqTopic d ∧ t.CopiedAs h.message d)
        hs ds := by
  obtain ⟨hs, ds, hsublist, hcopies, hall⟩ := (System.sourced_of_run hrun).failed
  have hgenuine := (System.genuine_of_run hrun).outcomes
  refine ⟨hs, ds, hsublist, hall, ?_⟩
  have hmem : ∀ h ∈ hs, h.Genuine t := by
    intro h hh
    exact hgenuine h (List.mem_filter.mp (hsublist.subset hh)).1
  refine List.Forall₂.imp ?_ ((List.forall₂_and_left _ _).mpr ⟨hmem, hcopies⟩)
  intro h d hboth
  exact ⟨hboth.2, ht.copied hboth.1 hboth.2⟩

/-! ## Deeds and outcomes -/

/-- The history and the outcomes tell the same story: an order that was aggregated or
handed over has an outcome, and one whose outcome is a success was aggregated. -/
structure System.Recorded (s : System σ) : Prop where
  deeds : ∀ d ∈ s.history, (∃ m, d = .skipped m) ∨ ∃ h ∈ s.outcomes, h.message = d.message
  successes : ∀ h ∈ s.outcomes, h.outcome.succeeded = true →
    Deed.aggregated h.message ∈ s.history

/-- `Recorded` speaks of the deeds and of the outcomes only, so it carries over to any
state that has the same. -/
theorem System.Recorded.of_same {s s' : System σ} (h : s.Recorded)
    (hhistory : s'.history = s.history) (houtcomes : s'.outcomes = s.outcomes) :
    s'.Recorded where
  deeds := by
    rw [hhistory, houtcomes]
    exact h.deeds
  successes := by
    rw [hhistory, houtcomes]
    exact h.successes

/-- The end of a call of `execute` records an outcome, with the deed it stands for: a
success is an aggregation, and a failure no deed before it is published. -/
theorem System.Recorded.snoc {s s' : System σ} (h : s.Recorded) {g : Handling}
    {deeds : List Deed} (hhistory : s'.history = s.history ++ deeds)
    (houtcomes : s'.outcomes = s.outcomes ++ [g])
    (hdeeds : (g.outcome.succeeded = true ∧ deeds = [.aggregated g.message]) ∨
      (g.outcome.succeeded = false ∧ deeds = [])) : s'.Recorded where
  deeds := by
    have hold : ∀ d ∈ s.history, (∃ m, d = .skipped m) ∨
        ∃ h ∈ s.outcomes ++ [g], h.message = d.message := by
      intro d hd
      rcases h.deeds d hd with hskipped | ⟨g', hg', hmessage⟩
      · exact Or.inl hskipped
      · exact Or.inr ⟨g', List.mem_append_left _ hg', hmessage⟩
    rw [hhistory, houtcomes]
    rcases hdeeds with ⟨-, rfl⟩ | ⟨-, rfl⟩
    · exact forall_mem_snoc hold (Or.inr ⟨g, by simp, rfl⟩)
    · simpa using hold
  successes := by
    have hold : ∀ g' ∈ s.outcomes, g'.outcome.succeeded = true →
        Deed.aggregated g'.message ∈ s.history ++ deeds := by
      intro g' hg' hsucceeded
      exact List.mem_append_left _ (h.successes g' hg' hsucceeded)
    rw [hhistory, houtcomes]
    refine forall_mem_snoc hold ?_
    intro hsucceeded
    rcases hdeeds with ⟨-, rfl⟩ | ⟨hfailed, -⟩
    · simp
    · rw [hfailed] at hsucceeded
      cases hsucceeded

/-- A deed about a message that has an outcome, or about a tombstone. -/
theorem System.Recorded.deed {s s' : System σ} (h : s.Recorded) {d : Deed}
    (hhistory : s'.history = s.history ++ [d]) (houtcomes : s'.outcomes = s.outcomes)
    (hd : (∃ m, d = .skipped m) ∨ ∃ g ∈ s.outcomes, g.message = d.message) :
    s'.Recorded where
  deeds := by
    rw [hhistory, houtcomes]
    exact forall_mem_snoc h.deeds hd
  successes := by
    rw [hhistory, houtcomes]
    intro g hg hsucceeded
    exact List.mem_append_left _ (h.successes g hg hsucceeded)

/-- **Step lemma.** Outcomes and deeds grow at the end of a call, and a failed order
becomes a deed when its copy is handed over. -/
theorem System.Recorded.step {s s' : System σ} {l : Label} (h : s.Recorded)
    (hinHand : s.InHand setup.dlqTopic) (hstep : Step setup effect₀ t s l s') :
    s'.Recorded := by
  cases hstep with
  | idle hpc => exact h
  | @skip m hpc hvalue => exact h.deed rfl rfl (Or.inl ⟨m, rfl⟩)
  | @returned m order remaining attempt lastExc calls a outcome hpc ha hverdict =>
      subst ha
      exact h.snoc rfl rfl (Setup.tryOnce_returned hverdict m)
  | exhausted hpc =>
      exact h.snoc (List.append_nil _).symm rfl (Or.inr ⟨rfl, rfl⟩)
  | @produce m order outcome r failedAt hpc hr =>
      unfold System.InHand at hinHand
      simp only [hpc] at hinHand
      obtain ⟨-, calls, hlast⟩ := hinHand
      have hmem := (lastOutcome_eq_some hlast).1
      exact h.deed rfl rfl (Or.inr ⟨_, hmem, rfl⟩)
  | _ => exact h.of_same rfl rfl

theorem System.recorded_init : (System.init effect₀).Recorded :=
  ⟨by simp [System.init], by simp [System.init]⟩

/-- **Run lemma.** -/
theorem System.recorded_of_run {s : System σ} {ls : List Label}
    (hrun : Run (Step setup effect₀ t) (System.init effect₀) ls s) : s.Recorded := by
  induction hrun with
  | nil => exact System.recorded_init
  | snoc hrun hlast ih => exact ih.step (System.inHand_of_run hrun) hlast

/-- The step lemma of safety, along a run. -/
theorem DeadLettersSafe.of_run {s : System σ} {ls : List Label}
    (hrun : Run (Guarded (Step setup effect₀ t) SettledBeforeCommit)
      (System.init effect₀) ls s) : DeadLettersSafe setup.dlqTopic s := by
  induction hrun with
  | nil =>
      intro x h hlast
      cases hlast
  | snoc hrun hlast ih =>
      have hplain := hrun.unguard
      exact ih.step (System.inv_of_run hplain) (System.genuine_of_run hplain)
        (System.inHand_of_run hplain) hlast

/-- What has become of the order at some coordinates: its last outcome is a success
and it was aggregated, or the DLQ topic holds an acknowledged record from which it
can be replayed. -/
def System.Settles (t : Topic) (dlqTopic : String) (s : System σ) (p n : ℕ)
    (key : Option String) (o : AvroOrder) : Prop :=
  (∃ h, lastOutcome s.outcomes (p, n) = some h ∧ h.outcome.succeeded = true ∧
      h.order = dictToOrder o ∧ Deed.aggregated h.message ∈ s.history) ∨
    ∃ h, ∃ d ∈ s.delivery.acked, lastOutcome s.outcomes (p, n) = some h ∧
      h.outcome.succeeded = false ∧ h.PublishedAs dlqTopic d ∧
      replay d.withoutFailedAt = some (t.origin p n key o).withoutEmptyKey

/-- The records of a deed: a tombstone for a skipped message, else an order with an
outcome. -/
theorem System.Recorded.lastOutcome {s : System σ} (h : s.Recorded) (hgenuine : s.Genuine t)
    {d : Deed} (hd : d ∈ s.history) :
    d.message.value = none ∨ ∃ g, OrderPipeline.lastOutcome s.outcomes d.coordinates = some g := by
  rcases h.deeds d hd with ⟨m, rfl⟩ | ⟨g, hg, hmessage⟩
  · exact Or.inl (hgenuine.history _ hd).2
  · refine Or.inr (Option.isSome_iff_exists.mp ?_)
    unfold OrderPipeline.lastOutcome
    rw [List.find?_isSome]
    refine ⟨g, List.mem_reverse.mpr hg, ?_⟩
    unfold Deed.coordinates
    simp [hmessage]

/-- What is known of the record at some coordinates once its position is committed: it is
a tombstone, or an order whose last outcome was aggregated, or published and
acknowledged. -/
theorem System.accounted_of_run {s : System σ} {ls : List Label}
    (hrun : Run (Guarded (Step setup effect₀ t) SettledBeforeCommit)
      (System.init effect₀) ls s) {p n : ℕ} (hn : n < s.consumer.offsets.committed p) :
    ∃ r, (t.log p)[n]? = some r ∧ (r.content = .tombstone ∨ ∃ o h, r.content = .order o ∧
      lastOutcome s.outcomes (p, n) = some h ∧ h.message.coordinates = (p, n) ∧
      h.Genuine t ∧ h.order = dictToOrder o ∧ r.key = h.message.key ∧
      ((h.outcome.succeeded = true ∧ Deed.aggregated h.message ∈ s.history) ∨
        (h.outcome.succeeded = false ∧
          ∃ d ∈ s.delivery.acked, h.PublishedAs setup.dlqTopic d))) := by
  have hplain := hrun.unguard
  have hgenuine := System.genuine_of_run hplain
  have hrecorded := System.recorded_of_run hplain
  have hhandled := (System.inv_of_run hplain).handled
  have hsafe := DeadLettersSafe.of_run hrun
  obtain ⟨d, hd, hcoordinates⟩ := List.mem_map.mp (hhandled p n hn)
  obtain ⟨hpartition, hoffset⟩ : d.message.partition = p ∧ d.message.offset = n :=
    Prod.mk.inj hcoordinates
  have hholds : t.Holds d.message := by
    have hdeed := hgenuine.history d hd
    cases d <;> exact hdeed.1
  rcases hrecorded.lastOutcome hgenuine hd with hnone | ⟨h, hlast⟩
  · obtain ⟨r, hr, htombstone⟩ := hholds.tombstone hnone
    rw [hpartition, hoffset] at hr
    exact ⟨r, hr, Or.inl htombstone⟩
  · rw [hcoordinates] at hlast
    obtain ⟨hmem, hsame⟩ := lastOutcome_eq_some hlast
    obtain ⟨hpartition', hoffset'⟩ : h.message.partition = p ∧ h.message.offset = n :=
      Prod.mk.inj hsame
    have hh := hgenuine.outcomes h hmem
    obtain ⟨o, hr, horder, -⟩ := hh.1.order hh.2
    refine ⟨⟨h.message.key, .order o⟩, by rw [← hpartition', ← hoffset', hr], Or.inr
      ⟨o, h, rfl, hlast, hsame, hh, horder, rfl, ?_⟩⟩
    cases hsucceeded : h.outcome.succeeded with
    | true => exact Or.inl ⟨rfl, hrecorded.successes h hmem hsucceeded⟩
    | false => exact Or.inr ⟨rfl, hsafe (p, n) h hlast hsucceeded hn⟩

/-- **Nothing behind a committed position is lost.**  In every run whose commits,
where they follow a publish, find the published copy reported and not given up, each
record behind the committed position of its partition decodes, and is a tombstone or
an order that was aggregated by its last outcome or can be replayed, with its key and
its coordinates, from an acknowledged record of the DLQ topic. -/
theorem committed_records_accounted (ht : t.Replayable) {s : System σ} {ls : List Label}
    (hrun : Run (Guarded (Step setup effect₀ t) SettledBeforeCommit)
      (System.init effect₀) ls s) :
    ∀ p n, n < s.consumer.offsets.committed p → ∃ r, (t.log p)[n]? = some r ∧
      (r.content = .tombstone ∨ ∃ o, r.content = .order o ∧
        s.Settles t setup.dlqTopic p n r.key o) := by
  intro p n hn
  obtain ⟨r, hr, htombstone | ⟨o, h, hcontent, hlast, hsame, hgenuine, horder, hkey, hend⟩⟩ :=
    System.accounted_of_run hrun hn
  · exact ⟨r, hr, Or.inl htombstone⟩
  · refine ⟨r, hr, Or.inr ⟨o, hcontent, ?_⟩⟩
    rcases hend with ⟨hsucceeded, haggregated⟩ | ⟨hfailed, d, hacked, hpublished⟩
    · exact Or.inl ⟨h, hlast, hsucceeded, horder, haggregated⟩
    · obtain ⟨hpartition, hoffset⟩ : h.message.partition = p ∧ h.message.offset = n :=
        Prod.mk.inj hsame
      obtain ⟨key, o', hr', hreplay⟩ := ht.copied hgenuine hpublished
      rw [hpartition, hoffset, hr] at hr'
      obtain rfl := Option.some.inj hr'
      obtain rfl : o' = o := Content.order.inj hcontent
      rw [hpartition, hoffset] at hreplay
      exact Or.inr ⟨h, d, hacked, hlast, hfailed, hpublished, hreplay⟩

end Sources

/-! ## The POISON order -/

theorem poisonTopic_replayable : poisonTopic.Replayable := by
  intro p r hr o ho
  match p with
  | 0 =>
      rw [List.mem_singleton.mp hr] at ho
      cases ho
      exact sample_price
  | p + 1 => cases hr

/-- The copy of the POISON order in the queue. -/
theorem dead_letters_are_copies_poison : ∃ s : System FailureSimulator,
    Run (Step sampleSetup {} poisonTopic) (System.init {})
      [.receive 0, .begin, .attempt, .branch, .produce ""] s ∧
    s.delivery.queue.length = 1 ∧
    ∃ hs ds, hs.Sublist (failedOf s.outcomes) ∧ s.delivery.all.Subperm ds ∧
      List.Forall₂ (fun h d => h.PublishedAs "orders.DLQ" d ∧
        poisonTopic.CopiedAs h.message d) hs ds := by
  obtain ⟨s, r, hrun, -, hdelivery, -⟩ := poison_run
  exact ⟨s, hrun.unguard, by rw [hdelivery]; rfl,
    dead_letters_are_copies poisonTopic_replayable hrun.unguard⟩

/-- The copy is acknowledged before the commit, and then the process crashes: nothing is
lost, for the order is committed and its copy delivered. -/
theorem poison_acknowledged_run : ∃ (s : System FailureSimulator) (r : DlqRecord),
    Run (Guarded (Step sampleSetup {} poisonTopic) SettledBeforeCommit) (System.init {})
      [.receive 0, .begin, .attempt, .branch, .produce "", .report 0 .acknowledged,
        .count, .commit, .crash] s ∧
    s.consumer.offsets.committed 0 = 1 ∧ s.pc = .down ∧ s.delivery = ⟨[], [r], []⟩ := by
  obtain ⟨s, r, hrun, hpc, hdelivery, -, hposition, -⟩ := poison_run
  have hqueued : 0 < s.delivery.queue.length := by simp [hdelivery]
  have hreported : s.delivery.report 0 .acknowledged = ⟨[], [r], []⟩ := by
    rw [hdelivery]
    rfl
  have hguard : ∀ m r', Pc.committing poisonMessage (some r) = .committing m (some r') →
      r' ∉ (s.delivery.report 0 .acknowledged).queue ∧
        r' ∉ (s.delivery.report 0 .acknowledged).failed := by
    intro m r' _
    rw [hreported]
    simp
  obtain ⟨s', hrun', hcommitted, hdown, hdelivery'⟩ : ∃ s' : System FailureSimulator,
      Run (Guarded (Step sampleSetup {} poisonTopic) SettledBeforeCommit) s
        [.report 0 .acknowledged, .count, .commit, .crash] s' ∧
      s'.consumer.offsets.committed = s.consumer.offsets.position ∧ s'.pc = .down ∧
      s'.delivery = (s.delivery.report 0 .acknowledged).drop := by
    refine ⟨_, Run.cons ⟨.report 0 .acknowledged hqueued (by rw [hpc]; rfl), trivial⟩ <|
      Run.cons ⟨.count hpc, trivial⟩ <| Run.cons ⟨.commit rfl, hguard⟩ <|
      Run.single ⟨.crash rfl, trivial⟩, ?_, rfl, rfl⟩
    simp [Consumer.commit, Consumer.countPublished]
  refine ⟨s', r, hrun.append hrun', by rw [hcommitted, hposition], hdown, ?_⟩
  rw [hdelivery', hreported]
  rfl

/-- The POISON order with its copy acknowledged before the commit: it can be replayed
after a crash, too. -/
theorem committed_records_accounted_poison : ∃ s : System FailureSimulator,
    Run (Guarded (Step sampleSetup {} poisonTopic) SettledBeforeCommit) (System.init {})
      [.receive 0, .begin, .attempt, .branch, .produce "", .report 0 .acknowledged,
        .count, .commit, .crash] s ∧
    s.consumer.offsets.committed 0 = 1 ∧
    ∃ r, (poisonTopic.log 0)[0]? = some r ∧ (r.content = .tombstone ∨
      ∃ o, r.content = .order o ∧ s.Settles poisonTopic "orders.DLQ" 0 0 r.key o) := by
  obtain ⟨s, r, hrun, hone, -⟩ := poison_acknowledged_run
  refine ⟨s, hrun, hone, ?_⟩
  exact committed_records_accounted poisonTopic_replayable hrun 0 0 (by simp [hone])

end OrderPipeline

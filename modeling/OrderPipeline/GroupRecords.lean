import OrderPipeline.DeadLetterContent
import OrderPipeline.GroupSystem

/-!
# Nothing behind a committed position is lost, in a group

The commit of a member moves one position, by one record, and it is the record in the
member's hand.  What the member has done with it is still true when other members have
taken over the partition, when the member is evicted and when it has crashed.  So the
result about one consumer holds for a group, under the same condition on the commits that
follow a publish (`group_records_accounted`).

One consumer is a group of its own: a member with all partitions runs as it does alone
(`GroupSystem.Alone.run`).
-/

namespace OrderPipeline

open Runs CommitGroup

section Lost

variable {μ σ : Type} [DecidableEq μ] {setup : μ → Setup σ} {effect₀ : σ} {t : Topic}

/-! ## What one process keeps -/

/-- No outcome is forgotten. -/
theorem Step.outcomes_subset {setup : Setup σ} {s s' : System σ} {l : Label}
    (h : Step setup effect₀ t s l s') : s.outcomes ⊆ s'.outcomes := by
  cases h <;> first | exact List.Subset.refl _ | exact List.subset_append_left _ _

/-- What the DLQ topic has acknowledged stays in it. -/
theorem Step.acked_subset {setup : Setup σ} {s s' : System σ} {l : Label}
    (h : Step setup effect₀ t s l s') : s.delivery.acked ⊆ s'.delivery.acked := by
  cases h with
  | report i r hi hpc => exact fun _ hd => Delivery.acked_report_of_mem hd
  | _ => exact List.Subset.refl _

/-- Positions are stored by a commit of the record in hand. -/
theorem Step.pc_of_stores {setup : Setup σ} {s s' : System σ} {l : Label}
    (h : Step setup effect₀ t s l s') (hstores : l.stores = true) :
    ∃ m, s.pc.phase = .settled m.partition m.offset ∧
      (s.pc = .skipping m ∨ ∃ r, s.pc = .committing m r) := by
  cases h with
  | @commitSkipped m hpc => exact ⟨m, by rw [hpc]; rfl, Or.inl hpc⟩
  | @commit m r hpc => exact ⟨m, by rw [hpc]; rfl, Or.inr ⟨r, hpc⟩⟩
  | commitRaised exc stored hpc =>
      rcases hpc with ⟨m, hpc⟩ | ⟨m, r, hpc⟩
      · exact ⟨m, by rw [hpc]; rfl, Or.inl hpc⟩
      · exact ⟨m, by rw [hpc]; rfl, Or.inr ⟨r, hpc⟩⟩
  | _ => cases hstores

/-! ## Records that are done -/

/-- A record is done: it is a tombstone, or a member has an outcome of it, a success or a
failure of which the DLQ topic has acknowledged a copy. -/
def GroupSystem.Done (setup : μ → Setup σ) (t : Topic) (g : GroupSystem μ σ) (p n : ℕ) :
    Prop :=
  (∃ r, (t.log p)[n]? = some r ∧ r.content = .tombstone) ∨
    ∃ k, ∃ h ∈ (g.member k).outcomes, h.message.coordinates = (p, n) ∧
      (h.outcome.succeeded = false → (g.member k).Copied (setup k).dlqTopic h)

/-- Done is done. -/
theorem GroupSystem.Done.step {g g' : GroupSystem μ σ} {l : GroupLabel μ} {p n : ℕ}
    (h : g.Done setup t p n) (hstep : GroupStep setup effect₀ t g l g') :
    g'.Done setup t p n := by
  rcases h with htombstone | ⟨k, x, hx, hcoordinates, hcopied⟩
  · exact Or.inl htombstone
  · have houtcomes := hstep.member_subset System.outcomes
      (fun _ _ _ _ h => h.outcomes_subset) (fun _ _ => rfl) k
    have hacked := hstep.member_subset (fun s => s.delivery.acked)
      (fun _ _ _ _ h => h.acked_subset) (fun _ _ => rfl) k
    refine Or.inr ⟨k, x, houtcomes hx, hcoordinates, fun hfailed => ?_⟩
    obtain ⟨d, hd, hcopy⟩ := hcopied hfailed
    exact ⟨d, hacked hd, hcopy⟩

omit [DecidableEq μ] in
/-- The record in the hand of a member that may commit it is done: skipped, aggregated,
or published with its copy acknowledged. -/
theorem GroupSystem.done_in_hand {g : GroupSystem μ σ} {k : μ} {m : Message}
    (hgenuine : (g.member k).Genuine t) (hinHand : (g.member k).InHand (setup k).dlqTopic)
    (hpc : (g.member k).pc = .skipping m ∨ ∃ r, (g.member k).pc = .committing m r)
    (hsettled : ∀ m r, (g.member k).pc = .committing m (some r) →
      r ∉ (g.member k).delivery.queue ∧ r ∉ (g.member k).delivery.failed) :
    g.Done setup t m.partition m.offset := by
  have hlast : ∀ h, lastOutcome (g.member k).outcomes m.coordinates = some h →
      g.Done setup t m.partition m.offset := by
    intro h hlast
    obtain ⟨hmem, hcoordinates⟩ := lastOutcome_eq_some hlast
    exact Or.inr ⟨k, h, hmem, hcoordinates,
      copied_before_commit hgenuine hinHand hpc hsettled hlast⟩
  have hvalue := hgenuine.pc
  unfold System.InHand at hinHand
  rcases hpc with hpc | ⟨_ | r, hpc⟩
  · rw [hpc] at hvalue
    exact Or.inl (hvalue.1.tombstone hvalue.2)
  · simp only [hpc] at hinHand
    obtain ⟨h, hfound, -⟩ := hinHand
    exact hlast h hfound
  · simp only [hpc] at hinHand
    obtain ⟨h, hfound, -⟩ := hinHand
    exact hlast h hfound

/-- The condition on the commits of all members. -/
def GroupSystem.SettledCommits (g : GroupSystem μ σ) : GroupLabel μ → Prop
  | .act m l => SettledBeforeCommit (g.member m) l
  | _ => True

/-- What the members of a group know in every state: messages are genuine, the outcome
in hand is the last one, and outcomes have their deeds. -/
theorem GroupSystem.known_of_run {g : GroupSystem μ σ} {ls : List (GroupLabel μ)}
    (hrun : Run (GroupStep setup effect₀ t) (GroupSystem.init effect₀) ls g) (m : μ) :
    (g.member m).Genuine t ∧ (g.member m).InHand (setup m).dlqTopic ∧
      (g.member m).Recorded := by
  refine GroupSystem.members_of_run (I := fun m s => s.Genuine t ∧
    s.InHand (setup m).dlqTopic ∧ s.Recorded) ?_ ?_ ?_ hrun m
  · intro m
    exact ⟨System.genuine_init, trivial, System.recorded_init⟩
  · rintro m s l s' ⟨hgenuine, hinHand, hrecorded⟩ hstep
    exact ⟨hgenuine.step hstep, hinHand.step hstep, hrecorded.step hinHand hstep⟩
  · rintro m s offsets hhead ⟨hgenuine, -, hrecorded⟩
    refine ⟨⟨hgenuine.pc, hgenuine.history, hgenuine.outcomes⟩, ?_, hrecorded.of_same rfl rfl⟩
    unfold System.InHand
    simp only [hhead]

/-- A step moves a committed position only past the record in the hand of a member, and
only if the label of the step is a commit. -/
theorem GroupStep.committed {g g' : GroupSystem μ σ} {l : GroupLabel μ}
    (hinv : CommitGroup.Inv t.parts g.abs) (hstep : GroupStep setup effect₀ t g l g')
    {p n : ℕ} (hn : n < g'.committed p) (hold : ¬n < g.committed p) :
    ∃ k label m, l = .act k label ∧ label.stores = true ∧ m.partition = p ∧ m.offset = n ∧
      ((g.member k).pc = .skipping m ∨ ∃ r, (g.member k).pc = .committing m r) := by
  cases hstep with
  | @act k label s hstep hgrants =>
      rcases hstep.refines with ⟨hsilent, -⟩ | ⟨e, hshows, habs⟩
      · have hsame : (g.act k label s).committed p = g.committed p := by
          simp [GroupSystem.act, hsilent.stores]
        rw [hsame] at hn
        exact absurd hn hold
      · rw [← hshows.takes, ← hshows.stores] at hgrants
        have htarget : (g.act k label s).committed =
            (g.abs.act k s.abs e.stores e.isRestart).committed := by
          rw [← g.abs_act k s hshows]
          rfl
        rw [htarget] at hn
        rcases hinv.act_committed habs hgrants with ⟨-, hsame, -⟩ |
          ⟨i, hstores, -, -, hphase, hmoved, -⟩
        · rw [hsame] at hn
          exact absurd hn hold
        · rw [hmoved] at hn
          by_cases hp : p = i
          · subst hp
            rw [Function.update_self] at hn
            have hlast : n = g.committed p := by
              have hle : g.committed p ≤ n := not_lt.mp hold
              have hlt : n < g.committed p + 1 := hn
              omega
            obtain ⟨m, hsettled, hpc⟩ := hstep.pc_of_stores (hshows.stores ▸ hstores)
            have hsame : CommitLog.Phase.settled m.partition m.offset =
                .settled p (g.committed p) := hsettled.symm.trans hphase
            obtain ⟨hpartition, hoffset⟩ := CommitLog.Phase.settled.inj hsame
            exact ⟨k, label, m, rfl, hshows.stores ▸ hstores, hpartition,
              hoffset.trans hlast.symm, hpc⟩
          · rw [Function.update_of_ne hp] at hn
            exact absurd hn hold
  | evict hcurrent => exact absurd hn hold
  | rebalance hhead hcurrent howner => exact absurd hn hold

/-- **Run lemma.** A record is done when a position moves past it, by the step lemma
above, and what is done stays done, whoever owns the partition later. -/
theorem GroupSystem.done_of_run {g : GroupSystem μ σ} {ls : List (GroupLabel μ)}
    (hrun : Run (Guarded (GroupStep setup effect₀ t) GroupSystem.SettledCommits)
      (GroupSystem.init effect₀) ls g) :
    ∀ p n, n < g.committed p → g.Done setup t p n := by
  induction hrun with
  | nil => exact fun p n hn => absurd hn (Nat.not_lt_zero n)
  | @snoc ls u v l hrun hlast ih =>
      intro p n hn
      obtain ⟨hstep, hguard⟩ := hlast
      have hplain := hrun.unguard
      by_cases hold : n < u.committed p
      · exact (ih p n hold).step hstep
      · obtain ⟨k, label, m, rfl, hstores, rfl, rfl, hpc⟩ :=
          hstep.committed (GroupSystem.inv_of_run hplain) hn hold
        obtain ⟨hgenuine, hinHand, -⟩ := GroupSystem.known_of_run hplain k
        have hsettled : ∀ m r, (u.member k).pc = .committing m (some r) →
            r ∉ (u.member k).delivery.queue ∧ r ∉ (u.member k).delivery.failed := by
          cases label with
          | commit => exact hguard
          | commitRaised exc stored =>
              obtain rfl : stored = true := hstores
              exact hguard
          | _ => cases hstores
        exact (GroupSystem.done_in_hand hgenuine hinHand hpc hsettled).step hstep

/-- What has become of the order at some coordinates: a member has aggregated it, or has
published a copy that is acknowledged and from which it can be replayed. -/
def GroupSystem.Settles (setup : μ → Setup σ) (t : Topic) (g : GroupSystem μ σ) (p n : ℕ)
    (key : Option String) (o : AvroOrder) : Prop :=
  ∃ k, ∃ h ∈ (g.member k).outcomes, h.message.coordinates = (p, n) ∧
    h.order = dictToOrder o ∧
    ((h.outcome.succeeded = true ∧ Deed.aggregated h.message ∈ (g.member k).history) ∨
      (h.outcome.succeeded = false ∧ ∃ d ∈ (g.member k).delivery.acked,
        h.PublishedAs (setup k).dlqTopic d ∧
        replay d.withoutFailedAt = some (t.origin p n key o).withoutEmptyKey))

/-- **Nothing behind a committed position is lost, whoever has read it.**  In every run of
a group, through rebalances, evictions, crashes and restarts, whose commits, where they
follow a publish, find the published copy reported and not given up, each record behind a
committed position decodes, and is a tombstone or an order that a member has aggregated or
that can be replayed, with its key and its coordinates, from an acknowledged record of the
DLQ topic. -/
theorem group_records_accounted (ht : t.Replayable) {g : GroupSystem μ σ}
    {ls : List (GroupLabel μ)}
    (hrun : Run (Guarded (GroupStep setup effect₀ t) GroupSystem.SettledCommits)
      (GroupSystem.init effect₀) ls g) :
    ∀ p n, n < g.committed p → ∃ r, (t.log p)[n]? = some r ∧
      (r.content = .tombstone ∨ ∃ o, r.content = .order o ∧ g.Settles setup t p n r.key o) := by
  intro p n hn
  rcases GroupSystem.done_of_run hrun p n hn with
    ⟨r, hr, htombstone⟩ | ⟨k, h, hmem, hcoordinates, hcopied⟩
  · exact ⟨r, hr, Or.inl htombstone⟩
  · obtain ⟨hgenuine, -, hrecorded⟩ := GroupSystem.known_of_run hrun.unguard k
    obtain ⟨hholds, hvalue⟩ := hgenuine.outcomes h hmem
    obtain ⟨o, hr, horder, -⟩ := hholds.order hvalue
    obtain ⟨hpartition, hoffset⟩ : h.message.partition = p ∧ h.message.offset = n :=
      Prod.mk.inj hcoordinates
    rw [hpartition, hoffset] at hr
    refine ⟨_, hr, Or.inr ⟨o, rfl, k, h, hmem, hcoordinates, horder, ?_⟩⟩
    cases hsucceeded : h.outcome.succeeded with
    | true => exact Or.inl ⟨rfl, hrecorded.successes h hmem hsucceeded⟩
    | false =>
        obtain ⟨d, hd, hpublished⟩ := hcopied hsucceeded
        obtain ⟨key, o', hr', hreplay⟩ := ht.copied ⟨hholds, hvalue⟩ hpublished
        rw [hpartition, hoffset, hr] at hr'
        cases hr'
        rw [hpartition, hoffset] at hreplay
        exact Or.inr ⟨rfl, d, hd, hpublished, hreplay⟩

/-! ## A member on its own -/

/-- Only a commit moves the committed positions of a process. -/
theorem Step.committed_of_not_stores {setup : Setup σ} {s s' : System σ} {l : Label}
    (h : Step setup effect₀ t s l s') (hstores : l.stores = false) :
    s'.consumer.offsets.committed = s.consumer.offsets.committed := by
  cases h with
  | commitSkipped hpc => cases hstores
  | commit hpc => cases hstores
  | commitRaised exc stored hpc =>
      obtain rfl : stored = false := hstores
      rfl
  | _ => rfl

/-- The member has all partitions, and the group knows the positions that it knows. -/
structure GroupSystem.Alone (g : GroupSystem μ σ) (m : μ) : Prop where
  current : g.standing m = .current
  owner : ∀ p, g.owner p = some m
  committed : g.committed = (g.member m).consumer.offsets.committed

omit [DecidableEq μ] in
/-- A member that has every partition is granted any step. -/
theorem GroupSystem.Alone.grants {g : GroupSystem μ σ} {m : μ} (h : g.Alone m) (l : Label) :
    Grants (g.standing m) (fun p => g.owner p = some m) l.takes? l.stores where
  take := fun p _ => Or.inl ⟨h.current, h.owner p⟩
  store := fun _ => h.current

/-- A step other than a restart keeps it that way: the group learns of each commit what
the member does. -/
theorem GroupSystem.Alone.act {g : GroupSystem μ σ} {m : μ} {l : Label} {s : System σ}
    (h : g.Alone m) (hstep : Step (setup m) effect₀ t (g.member m) l s)
    (hrestart : l.isRestart = false) : (g.act m l s).Alone m where
  current := by simp [GroupSystem.act, hrestart, h.current]
  owner := h.owner
  committed := by
    funext p
    cases hstores : l.stores with
    | true => simp [GroupSystem.act, hstores, h.owner p]
    | false => simp [GroupSystem.act, hstores, h.committed, hstep.committed_of_not_stores hstores]

variable (effect₀) in
/-- One member has joined and has every partition. -/
def GroupSystem.joinedBy (m : μ) : GroupSystem μ σ :=
  (GroupSystem.init effect₀).rebalance {m} (fun _ => some m)

/-- The member that joins first has every partition. -/
theorem GroupSystem.joinedBy_alone (m : μ) : (GroupSystem.joinedBy effect₀ m).Alone m where
  current := by
    simp [GroupSystem.joinedBy, GroupSystem.rebalance, GroupSystem.init,
      Standing.afterRebalance]
  owner := fun _ => rfl
  committed := by
    simp [GroupSystem.joinedBy, GroupSystem.rebalance, GroupSystem.reload, GroupSystem.init,
      CommitLog.Offsets.reload]

/-- To join changes no process: its positions are the committed ones, which are all
zero. -/
theorem GroupSystem.joinedBy_member (k m : μ) :
    (GroupSystem.joinedBy effect₀ m).member k = System.init effect₀ := by
  by_cases hk : k = m <;>
    simp [GroupSystem.joinedBy, GroupSystem.rebalance, GroupSystem.reload, GroupSystem.init,
      System.init, Consumer.fresh, CommitLog.Offsets.reload, CommitLog.Offsets.zero, hk]

/-- The first join, as a step of the group. -/
theorem GroupSystem.joins (m : μ) : GroupStep setup effect₀ t (GroupSystem.init effect₀)
    (.rebalance {m} fun _ => some m) (GroupSystem.joinedBy effect₀ m) := by
  refine .rebalance (fun _ _ => rfl) (fun _ hcurrent => ?_) (fun p k howner => ?_)
  · cases hcurrent
  · exact Finset.mem_singleton.mpr (Option.some.inj howner).symm

variable (setup) in
/-- **A member with all partitions runs as one consumer does**, up to its first restart,
while the others wait. -/
theorem GroupSystem.Alone.run {g : GroupSystem μ σ} {m : μ} {ls : List Label} {s : System σ}
    (h : g.Alone m)
    (hrun : Run (Guarded (Step (setup m) effect₀ t) SettledBeforeCommit) (g.member m) ls s)
    (hrestarts : ∀ l ∈ ls, l.isRestart = false) :
    ∃ g', Run (Guarded (GroupStep setup effect₀ t) GroupSystem.SettledCommits) g
        (ls.map (.act m)) g' ∧
      g'.Alone m ∧ g'.member m = s ∧ ∀ k ≠ m, g'.member k = g.member k ∧
        g'.standing k = g.standing k := by
  induction hrun with
  | nil => exact ⟨g, Run.nil, h, rfl, fun k _ => ⟨rfl, rfl⟩⟩
  | @snoc ls u v l hrun hlast ih =>
      obtain ⟨g', hrun', halone, rfl, hothers⟩ :=
        ih (fun l hl => hrestarts l (List.mem_append_left _ hl))
      have hrestart := hrestarts l (List.mem_append_right _ (List.mem_singleton_self l))
      refine ⟨g'.act m l v, ?_, halone.act hlast.1 hrestart, ?_, ?_⟩
      · rw [List.map_append]
        exact hrun'.snoc ⟨.act hlast.1 (halone.grants l), hlast.2⟩
      · simp [GroupSystem.act]
      · intro k hk
        simpa [GroupSystem.act, hk, hrestart] using hothers k hk

end Lost

/-! ## A crash after the commit -/

/-- The copy of the POISON order is acknowledged before the commit; then the member crashes,
and the partitions go to the other one. -/
theorem poison_group_run : ∃ g : GroupSystem (Fin 2) FailureSimulator,
    Run (Guarded (GroupStep (fun _ => sampleSetup) {} poisonTopic) GroupSystem.SettledCommits)
      (GroupSystem.init {})
      ([.rebalance {0} (fun _ => some 0)] ++
        [Label.receive 0, .begin, .attempt, .branch, .produce "", .report 0 .acknowledged,
          .count, .commit, .crash].map (.act 0) ++ [.rebalance {1} (fun _ => some 1)]) g ∧
    g.committed 0 = 1 ∧ g.owner 0 = some 1 := by
  obtain ⟨s, r, hrun, hone, hdown, -⟩ := poison_acknowledged_run
  rw [← GroupSystem.joinedBy_member (0 : Fin 2) 0] at hrun
  obtain ⟨g, hrun', halone, rfl, hothers⟩ :=
    (GroupSystem.joinedBy_alone 0).run (fun _ => sampleSetup) hrun (by decide)
  obtain ⟨hmember, hstanding⟩ := hothers 1 (by decide)
  refine ⟨_, (Run.single ⟨GroupSystem.joins 0, trivial⟩ |>.append hrun').snoc
    ⟨.rebalance ?_ ?_ ?_, trivial⟩, ?_, rfl⟩
  · intro m hm
    rw [Finset.mem_singleton.mp hm, hmember]
    rfl
  · intro m hcurrent hactive
    match m with
    | 0 => rw [hdown] at hactive; cases hactive
    | 1 => rw [hstanding] at hcurrent; cases hcurrent
  · intro p m howner
    exact Finset.mem_singleton.mpr (Option.some.inj howner).symm
  · show g.committed 0 = 1
    rw [halone.committed, hone]

/-- The order of the crashed member can be replayed from the DLQ topic. -/
theorem group_records_accounted_poison : ∃ g : GroupSystem (Fin 2) FailureSimulator,
    g.committed 0 = 1 ∧ g.owner 0 = some 1 ∧ ∃ r, (poisonTopic.log 0)[0]? = some r ∧
      (r.content = .tombstone ∨ ∃ o, r.content = .order o ∧
        g.Settles (fun _ => sampleSetup) poisonTopic 0 0 r.key o) := by
  obtain ⟨g, hrun, hcommitted, howner⟩ := poison_group_run
  exact ⟨g, hcommitted, howner,
    group_records_accounted poisonTopic_replayable hrun 0 0 (by omega)⟩

end OrderPipeline

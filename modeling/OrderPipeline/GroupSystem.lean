import OrderPipeline.AtLeastOnce
import OrderPipeline.Foundation.GroupEffort

/-!
# A consumer group whose members come and go

`subscribe` makes each process a member of the group of its `--group-id`.  The broker
assigns each partition to at most one member, keeps the committed positions, and may
assign the partitions anew at any time:

* in a rebalance the members that are in `poll` take part, and go on from the committed
  positions of the partitions that they get;
* a member that does not poll in time is excluded from the group, while it goes on with
  its pass; its next commit is refused and raises;
* a process that has left the loop, or has crashed, is out of the group when the next
  rebalance comes, and a new one has to wait for it.

Every member is a `System` with its own simulator, aggregator and DLQ producer.  Together
they refine the `CommitGroup` of the library (`GroupStep.abs`).
-/

namespace OrderPipeline

open Runs CommitGroup

/-- The members, what the broker knows, and the deeds of all members, oldest first. -/
structure GroupSystem (μ σ : Type) where
  member : μ → System σ
  standing : μ → Standing
  owner : ℕ → Option μ
  committed : ℕ → ℕ
  deeds : List Deed
  evictions : ℕ

namespace GroupSystem

variable {μ σ : Type} [DecidableEq μ]

/-- A member takes a step. -/
def act (g : GroupSystem μ σ) (m : μ) (l : Label) (s : System σ) : GroupSystem μ σ where
  member := Function.update g.member m s
  standing := if l.isRestart then Function.update g.standing m .outside else g.standing
  owner := g.owner
  committed := fun p =>
    if l.stores = true ∧ g.owner p = some m then s.consumer.offsets.committed p
    else g.committed p
  deeds := g.deeds ++ s.history.drop (g.member m).history.length
  evictions := g.evictions

/-- The broker excludes a member, which does not know. -/
def evict (g : GroupSystem μ σ) (m : μ) : GroupSystem μ σ :=
  { g with
    standing := Function.update g.standing m .fenced
    evictions := g.evictions + 1 }

/-- The positions that a member reads from the broker. -/
def reload (g : GroupSystem μ σ) (owner : ℕ → Option μ) (m : μ) : System σ :=
  { g.member m with
    consumer := { (g.member m).consumer with
      offsets := (g.member m).consumer.offsets.reload (fun p => owner p = some m)
        g.committed } }

/-- The partitions are assigned anew among the members that have joined. -/
def rebalance (g : GroupSystem μ σ) (joined : Finset μ) (owner : ℕ → Option μ) :
    GroupSystem μ σ :=
  { g with
    member := fun m => if m ∈ joined then g.reload owner m else g.member m
    standing := fun m => (g.standing m).afterRebalance (m ∈ joined)
    owner := owner }

/-- Every member has been started and waits for the first rebalance. -/
def init (effect₀ : σ) : GroupSystem μ σ where
  member := fun _ => System.init effect₀
  standing := fun _ => .outside
  owner := fun _ => none
  committed := fun _ => 0
  deeds := []
  evictions := 0

end GroupSystem

/-- A step of one process, or one of the broker's. -/
inductive GroupLabel (μ : Type)
  | act (m : μ) (l : Label)
  | evict (m : μ)
  | rebalance (joined : Finset μ) (owner : ℕ → Option μ)

section Group

variable {μ σ : Type} [DecidableEq μ] (setup : μ → Setup σ) (effect₀ : σ) (t : Topic)

/-- The steps of the group.  Of the members inside their `try` block those that the broker
counts among the group take part in a rebalance. -/
inductive GroupStep : GroupSystem μ σ → GroupLabel μ → GroupSystem μ σ → Prop
  | act {g : GroupSystem μ σ} {m : μ} {l : Label} {s : System σ}
      (hstep : Step (setup m) effect₀ t (g.member m) l s)
      (hgrants : Grants (g.standing m) (fun p => g.owner p = some m) l.takes? l.stores) :
      GroupStep g (.act m l) (g.act m l s)
  | evict {g : GroupSystem μ σ} {m : μ} (hcurrent : g.standing m = .current) :
      GroupStep g (.evict m) (g.evict m)
  | rebalance {g : GroupSystem μ σ} {joined : Finset μ} {owner : ℕ → Option μ}
      (hhead : ∀ m ∈ joined, (g.member m).pc = .head)
      (hcurrent : ∀ m, g.standing m = .current → (g.member m).pc.active = true → m ∈ joined)
      (howner : ∀ p m, owner p = some m → m ∈ joined) :
      GroupStep g (.rebalance joined owner) (g.rebalance joined owner)

/-- The group of the library under it. -/
def GroupSystem.abs (g : GroupSystem μ σ) : CommitGroup.State μ ℕ where
  member := fun m => (g.member m).abs
  standing := g.standing
  owner := g.owner
  committed := g.committed
  handled := g.deeds.map Deed.coordinates
  evictions := g.evictions

variable {setup effect₀ t}

/-- Outside its `try` block a process is down for the protocol. -/
theorem Pc.active_of_phase {pc : Pc} (h : pc.phase ≠ .down) : pc.active = true := by
  cases pc <;> simp_all [Pc.phase, Pc.active]

/-- A step that the commit log sees is seen by the commit group, as a step of the same
member. -/
theorem GroupSystem.abs_act (g : GroupSystem μ σ) (m : μ) {l : Label}
    {e : CommitLog.Event ℕ} (s : System σ) (hshows : l.Shows e) :
    (g.act m l s).abs = g.abs.act m s.abs e.stores e.isRestart := by
  have hmember : (fun k => (Function.update g.member m s k).abs) =
      Function.update (fun k => (g.member k).abs) m s.abs := by
    funext k
    by_cases hk : k = m
    · subst hk
      simp
    · simp [hk]
  have hhandled : (g.deeds ++ s.history.drop (g.member m).history.length).map Deed.coordinates =
      g.abs.handled ++ s.abs.handled.drop (g.abs.member m).handled.length := by
    simp [GroupSystem.abs, System.abs, List.map_drop]
  unfold State.act
  rw [← hhandled, hshows.stores, hshows.restart]
  simp only [GroupSystem.abs, GroupSystem.act, hmember]
  rfl

/-- A step that the commit log does not see leaves the view of the group as it was. -/
theorem GroupSystem.abs_act_silent (g : GroupSystem μ σ) (m : μ) {l : Label} (s : System σ)
    (hsilent : l.Silent) (hsame : s.abs = (g.member m).abs) : (g.act m l s).abs = g.abs := by
  have hmember : (fun k => (Function.update g.member m s k).abs) =
      fun k => (g.member k).abs := by
    funext k
    by_cases hk : k = m
    · subst hk
      simpa using hsame
    · simp [hk]
  have hlength : s.history.length = (g.member m).history.length := by
    have hhandled := congrArg (fun a => a.handled.length) hsame
    simpa [System.abs] using hhandled
  simp [GroupSystem.abs, GroupSystem.act, hmember, hsilent.stores, hsilent.restart, ← hlength]

/-- **Refinement.** Every step of the group is one step of the library's group or none,
with the same guards: what a member may take and when it may commit. -/
theorem GroupStep.abs {g g' : GroupSystem μ σ} {l : GroupLabel μ}
    (h : GroupStep setup effect₀ t g l g') :
    g'.abs = g.abs ∨ ∃ e, CommitGroup.Step t.parts g.abs e g'.abs := by
  cases h with
  | @act m l s hstep hgrants =>
      rcases hstep.refines with ⟨hsilent, hsame⟩ | ⟨e, hshows, hstep⟩
      · exact Or.inl (g.abs_act_silent m s hsilent hsame)
      · refine Or.inr ⟨.act m e, ?_⟩
        rw [g.abs_act m s hshows]
        refine .act hstep ?_
        rw [hshows.takes, hshows.stores]
        exact hgrants
  | evict hcurrent => exact Or.inr ⟨.evict _, .evict hcurrent⟩
  | @rebalance joined owner hhead hcurrent howner =>
      refine Or.inr ⟨.rebalance joined owner, ?_⟩
      have htarget : (g.rebalance joined owner).abs = g.abs.rebalance joined owner := by
        have hmember : ∀ m, ((g.rebalance joined owner).member m).abs =
            (g.abs.rebalance joined owner).member m := by
          intro m
          by_cases hm : m ∈ joined <;>
            simp [GroupSystem.rebalance, GroupSystem.reload, GroupSystem.abs, State.rebalance,
              System.abs, hm]
        simp only [GroupSystem.abs] at hmember ⊢
        rw [funext hmember]
        rfl
      rw [htarget]
      refine .rebalance ?_ ?_ howner
      · intro m hm
        simp [GroupSystem.abs, System.abs, hhead m hm, Pc.phase]
      · intro m hstanding hup
        exact hcurrent m hstanding (Pc.active_of_phase hup)

/-- **Run lemma.** -/
theorem GroupSystem.abs_run {g g' : GroupSystem μ σ} {ls : List (GroupLabel μ)}
    (hrun : Run (GroupStep setup effect₀ t) g ls g') :
    ∃ es, Run (CommitGroup.Step t.parts) g.abs es g'.abs :=
  hrun.project GroupSystem.abs (fun _ _ _ h => h.abs)

/-! ## The members -/

/-- An invariant of a process that does not depend on its positions at the loop head holds
for every member. -/
theorem GroupSystem.members_of_run {I : μ → System σ → Prop}
    (hstart : ∀ m, I m (System.init effect₀))
    (hstep : ∀ m s l s', I m s → Step (setup m) effect₀ t s l s' → I m s')
    (hreload : ∀ m s offsets, s.pc = .head → I m s →
      I m { s with consumer := { s.consumer with offsets := offsets } })
    {g : GroupSystem μ σ} {ls : List (GroupLabel μ)}
    (hrun : Run (GroupStep setup effect₀ t) (GroupSystem.init effect₀) ls g) (m : μ) :
    I m (g.member m) := by
  refine hrun.invariant (fun u => ∀ m, I m (u.member m)) hstart ?_ m
  intro u l v hu hlast k
  cases hlast with
  | @act m l s hlast hgrants =>
      by_cases hk : k = m
      · subst hk
        simpa [GroupSystem.act] using hstep k _ _ _ (hu k) hlast
      · simpa [GroupSystem.act, hk] using hu k
  | evict hcurrent => exact hu k
  | @rebalance joined owner hhead hcurrent howner =>
      by_cases hk : k ∈ joined
      · have hmember : (u.rebalance joined owner).member k = u.reload owner k := if_pos hk
        rw [hmember]
        exact hreload k _ _ (hhead k hk) (hu k)
      · simpa [GroupSystem.rebalance, hk] using hu k

/-- What no step of a process takes away, no step of the group takes away from a member:
the others do not touch it, and a rebalance only moves its positions. -/
theorem GroupStep.member_subset {α : Type} (f : System σ → List α)
    (hstep : ∀ m s l s', Step (setup m) effect₀ t s l s' → f s ⊆ f s')
    (hreload : ∀ s offsets,
      f { s with consumer := { s.consumer with offsets := offsets } } = f s)
    {g g' : GroupSystem μ σ} {l : GroupLabel μ} (h : GroupStep setup effect₀ t g l g')
    (k : μ) : f (g.member k) ⊆ f (g'.member k) := by
  cases h with
  | @act m l s hact hgrants =>
      by_cases hk : k = m
      · subst hk
        simpa [GroupSystem.act] using hstep _ _ _ _ hact
      · simp [GroupSystem.act, hk]
  | evict hcurrent => exact List.Subset.refl _
  | @rebalance joined owner hhead hcurrent howner =>
      by_cases hk : k ∈ joined
      · have hmember : (g.rebalance joined owner).member k = g.reload owner k := if_pos hk
        have hsame : f (g.reload owner k) = f (g.member k) := hreload _ _
        rw [hmember, hsame]
        exact List.Subset.refl _
      · simp [GroupSystem.rebalance, hk]

/-- What a process has done is never forgotten. -/
theorem Step.history_prefix {setup : Setup σ} {s s' : System σ} {l : Label}
    (h : Step setup effect₀ t s l s') : s.history <+: s'.history := by
  cases h <;> first | exact List.prefix_rfl | exact List.prefix_append _ _

/-- The deeds of the group are those of its members. -/
theorem GroupSystem.deeds_of_run {g : GroupSystem μ σ} {ls : List (GroupLabel μ)}
    (hrun : Run (GroupStep setup effect₀ t) (GroupSystem.init effect₀) ls g) :
    ∀ d ∈ g.deeds, ∃ m, d ∈ (g.member m).history := by
  refine hrun.invariant (fun u => ∀ d ∈ u.deeds, ∃ m, d ∈ (u.member m).history)
    (List.forall_mem_nil _) ?_
  intro u l v hu hlast d hd
  have hkept : d ∈ u.deeds → ∃ m, d ∈ (v.member m).history := by
    intro hold
    obtain ⟨k, hk⟩ := hu d hold
    exact ⟨k, hlast.member_subset System.history (fun _ _ _ _ h => h.history_prefix.subset)
      (fun _ _ => rfl) k hk⟩
  cases hlast with
  | @act m l s hlast hgrants =>
      rcases List.mem_append.mp hd with hold | hnew
      · exact hkept hold
      · refine ⟨m, ?_⟩
        simpa [GroupSystem.act] using List.mem_of_mem_drop hnew
  | evict hcurrent => exact hkept hd
  | rebalance hhead hcurrent howner => exact hkept hd

/-- **Run lemma.** What the group has done was done to records of the topic. -/
theorem GroupSystem.genuine_of_run {g : GroupSystem μ σ} {ls : List (GroupLabel μ)}
    (hrun : Run (GroupStep setup effect₀ t) (GroupSystem.init effect₀) ls g) :
    ∀ d ∈ g.deeds, d.Genuine t := by
  intro d hd
  obtain ⟨m, hm⟩ := GroupSystem.deeds_of_run hrun d hd
  have hmember : (g.member m).Genuine t :=
    GroupSystem.members_of_run (I := fun _ s => s.Genuine t) (fun _ => System.genuine_init)
      (fun _ _ _ _ h hlast => h.step hlast)
      (fun _ _ _ _ h => ⟨h.pc, h.history, h.outcomes⟩) hrun m
  exact hmember.history d hm

/-! ## The group -/

/-- **Run lemma.** The invariant of the commit group holds of the view of every state:
the run of the system is a run of the commit group. -/
theorem GroupSystem.inv_of_run {g : GroupSystem μ σ} {ls : List (GroupLabel μ)}
    (hrun : Run (GroupStep setup effect₀ t) (GroupSystem.init effect₀) ls g) :
    CommitGroup.Inv t.parts g.abs := by
  obtain ⟨es, habs⟩ := GroupSystem.abs_run hrun
  exact CommitGroup.Inv.of_run habs

/-- **At least once, whoever reads.**  In every state of a group, through any rebalances,
evictions, crashes and restarts of its members:

* every record below a committed position has been aggregated, handed to a DLQ producer, or
  skipped as a tombstone by some member;
* a record is not handled before those below it in its partition have been;
* no later state has a smaller committed position;
* the deeds are at most the committed records, the faults, the evictions, and the members
  that hold a record which they have handled and not yet committed. -/
theorem group_at_least_once [Fintype μ] {g : GroupSystem μ σ} {ls : List (GroupLabel μ)}
    (hrun : Run (GroupStep setup effect₀ t) (GroupSystem.init effect₀) ls g) :
    (∀ p n, n < g.committed p → ∃ d ∈ g.deeds, d.coordinates = (p, n) ∧ d.Genuine t) ∧
      (∀ before d after, g.deeds = before ++ d :: after → ∀ k < d.message.offset,
        ∃ d' ∈ before, d'.coordinates = (d.message.partition, k)) ∧
      (∀ g' ls', Run (GroupStep setup effect₀ t) g ls' g' →
        ∀ p, g.committed p ≤ g'.committed p) ∧
      g.deeds.length ≤ ∑ p ∈ t.parts, g.committed p + ∑ m, (g.member m).faults +
        g.evictions + g.abs.holding := by
  have hinv := GroupSystem.inv_of_run hrun
  have hgenuine := GroupSystem.genuine_of_run hrun
  refine ⟨?_, ?_, ?_, ?_⟩
  · intro p n hn
    obtain ⟨d, hd, hcoordinates⟩ := List.mem_map.mp (hinv.handled p n hn)
    exact ⟨d, hd, hcoordinates, hgenuine d hd⟩
  · intro before d after hdeeds k hk
    have hsplit : g.abs.handled = before.map Deed.coordinates ++
        d.coordinates :: after.map Deed.coordinates := by
      simp [GroupSystem.abs, hdeeds]
    exact List.mem_map.mp (hinv.inOrder _ _ _ _ hsplit k hk)
  · intro g' ls' hrun' p
    obtain ⟨es, habs⟩ := GroupSystem.abs_run hrun'
    exact CommitGroup.committed_mono_of_run hinv habs p
  · obtain ⟨es, habs⟩ := GroupSystem.abs_run hrun
    have heffort := CommitGroup.effort_of_run habs
    simpa [GroupSystem.abs, System.abs] using heffort

end Group

/-! ## An eviction -/

/-- Partition 0 is assigned to one member. -/
def assignedTo (m : Fin 2) (p : ℕ) : Option (Fin 2) := if p = 0 then some m else none

/-- The partitions assigned to a member belong to nobody else. -/
theorem assignedTo_eq_some {k m : Fin 2} {p : ℕ} (h : assignedTo k p = some m) : m = k := by
  unfold assignedTo at h
  split at h
  · exact (Option.some.inj h).symm
  · cases h

/-- A member is evicted between its deed and the commit.  The other one handles the record
again and commits it; then the first one is refused, and leaves with an exception. -/
theorem eviction_run : ∃ g : GroupSystem (Fin 2) FailureSimulator,
    Run (GroupStep (fun _ => sampleSetup) {} tombstoneTopic) (GroupSystem.init {})
      [.rebalance {0} (assignedTo 0), .act 0 (.receive 0), .act 0 .skip, .evict 0,
        .rebalance {1} (assignedTo 1), .act 1 (.receive 0), .act 1 .skip, .act 1 .commit,
        .act 0 (.commitRaised kafkaException false)] g ∧
    g.deeds.length = 2 ∧ g.committed 0 = 1 ∧ g.evictions = 1 := by
  refine ⟨_, Run.cons (.rebalance ?_ ?_ ?_) <|
    Run.cons (.act (.receive rfl rfl rfl) (Grants.take_owned rfl)) <|
    Run.cons (.act (.skip rfl rfl) (Grants.quiet _ _)) <|
    Run.cons (.evict rfl) <| Run.cons (.rebalance ?_ ?_ ?_) <|
    Run.cons (.act (.receive rfl rfl rfl) (Grants.take_owned rfl)) <|
    Run.cons (.act (.skip rfl rfl) (Grants.quiet _ _)) <|
    Run.cons (.act (.commitSkipped rfl) (Grants.store_current _)) <|
    Run.single (.act (.commitRaised _ _ (Or.inl ⟨_, rfl⟩)) (Grants.quiet _ _)), rfl, rfl, rfl⟩
  · intro m _
    rfl
  · intro m hcurrent
    cases hcurrent
  · intro p m howner
    exact Finset.mem_singleton.mpr (assignedTo_eq_some howner)
  · intro m hm
    rw [Finset.mem_singleton.mp hm]
    rfl
  · intro m hcurrent
    match m with
    | 0 => cases hcurrent
    | 1 => cases hcurrent
  · intro p m howner
    exact Finset.mem_singleton.mpr (assignedTo_eq_some howner)

/-- The record of the evicted member is handled twice: one repeated handling, one fault and
one eviction. -/
theorem group_at_least_once_eviction : ∃ g : GroupSystem (Fin 2) FailureSimulator,
    g.deeds.length = 2 ∧ g.committed 0 = 1 ∧ g.evictions = 1 ∧
    (∃ d ∈ g.deeds, d.coordinates = (0, 0) ∧ d.Genuine tombstoneTopic) ∧
    g.deeds.length ≤ ∑ p ∈ tombstoneTopic.parts, g.committed p +
      ∑ m, (g.member m).faults + g.evictions + g.abs.holding := by
  obtain ⟨g, hrun, hlength, hcommitted, hevictions⟩ := eviction_run
  obtain ⟨hhandled, -, -, heffort⟩ := group_at_least_once hrun
  exact ⟨g, hlength, hcommitted, hevictions, hhandled 0 0 (by omega), heffort⟩

end OrderPipeline

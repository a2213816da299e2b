import OrderPipeline.GroupSystem
import OrderPipeline.TransientRecovery

/-!
# What a group does to a topic

A group without faults and evictions handles the messages of each partition once and in
their order, as one consumer does, although the partition may go from member to member
(`GroupSystem.handled_once`).  Within the retry budget of `main` it does not matter either which
member has seen an id before: a message decides what becomes of it
(`group_effect`).
-/

namespace OrderPipeline

open Runs CommitGroup

/-! ## Messages of a partition -/

/-- Messages at the first offsets of a partition are its first messages: every record
before them must have a message, and the same one. -/
theorem Topic.prefix_messages {t : Topic} {p : ℕ} {ms : List Message}
    (hholds : ∀ m ∈ ms, t.Holds m ∧ m.partition = p)
    (hoffsets : ms.map Message.offset = List.range ms.length) :
    ms <+: t.messages p := by
  have hfirst : ((t.log p).take ms.length).mapIdx (fun n r => r.message? t.name p n) =
      ms.map some := by
    apply List.ext_getElem?
    intro n
    rw [List.getElem?_mapIdx, List.getElem?_take, List.getElem?_map]
    by_cases hn : n < ms.length
    · have hoffset : ms[n].offset = n := by
        have hget := congrArg (fun l => l[n]?) hoffsets
        simpa [hn] using hget
      obtain ⟨⟨r, hr, hm⟩, hpartition⟩ := hholds ms[n] (List.getElem_mem hn)
      rw [hpartition, hoffset] at hr hm
      simp [hn, hr, hm]
    · simp [hn]
  have hall : t.messages p = (((t.log p).take ms.length ++ (t.log p).drop ms.length).mapIdx
      fun n r => r.message? t.name p n).reduceOption := by
    rw [List.take_append_drop]
    rfl
  have hdecoded : (ms.map some).reduceOption = ms := by simp [List.reduceOption]
  rw [hall, List.mapIdx_append, hfirst, List.reduceOption_append, hdecoded]
  exact List.prefix_append _ _

section Once

variable {μ σ : Type} [DecidableEq μ] {setup : μ → Setup σ} {effect₀ : σ} {t : Topic}

/-- The deeds of a group about one partition. -/
def GroupSystem.deedsOf (g : GroupSystem μ σ) (p : ℕ) : List Deed :=
  g.deeds.filter fun d => d.message.partition = p

/-- **Exactly once, whoever reads.**  Without faults and evictions the group has handled the
first messages of each partition, each once and in their order: the committed ones, and
one more if a member has not committed it yet. -/
theorem GroupSystem.handled_once {g : GroupSystem μ σ} {ls : List (GroupLabel μ)}
    (hrun : Run (GroupStep setup effect₀ t) (GroupSystem.init effect₀) ls g)
    (hevictions : g.evictions = 0) (hfaults : ∀ m, (g.member m).faults = 0) (p : ℕ) :
    (g.deedsOf p).map Deed.message <+: t.messages p ∧
      ((g.deedsOf p).length = g.committed p ∨
        (g.deedsOf p).length = g.committed p + 1 ∧
          ∃ m n, (g.member m).pc.phase = .settled p n) := by
  obtain ⟨es, habs⟩ := GroupSystem.abs_run hrun
  have hcalm : CommitGroup.Calm g.abs := CommitGroup.calm_of_run habs hevictions hfaults
  have hoffsets : CommitGroup.offsetsOf p g.abs.handled =
      ((g.deedsOf p).map Deed.message).map Message.offset := by
    unfold CommitGroup.offsetsOf GroupSystem.deedsOf GroupSystem.abs
    rw [List.filter_map, List.map_map, List.map_map]
    rfl
  have hgenuine := GroupSystem.genuine_of_run hrun
  have hholds : ∀ m ∈ (g.deedsOf p).map Deed.message, t.Holds m ∧ m.partition = p := by
    intro m hm
    obtain ⟨d, hd, rfl⟩ := List.mem_map.mp hm
    obtain ⟨hmem, hpartition⟩ := List.mem_filter.mp hd
    have hdeed := hgenuine d hmem
    refine ⟨?_, by simpa using hpartition⟩
    cases d <;> exact hdeed.1
  have hprefix : ∀ k, CommitGroup.offsetsOf p g.abs.handled = List.range k →
      (g.deedsOf p).map Deed.message <+: t.messages p ∧ (g.deedsOf p).length = k := by
    intro k hk
    rw [hoffsets] at hk
    have hlength : ((g.deedsOf p).map Deed.message).length = k := by
      simpa using congrArg List.length hk
    refine ⟨Topic.prefix_messages hholds (by rw [hlength, hk]), by simpa using hlength⟩
  by_cases hsettled : ∃ m n, (g.member m).pc.phase = .settled p n
  · obtain ⟨m, n, hphase⟩ := hsettled
    obtain ⟨hfirst, hlength⟩ := hprefix _ (hcalm.settled m p n hphase)
    exact ⟨hfirst, Or.inr ⟨hlength, m, n, hphase⟩⟩
  · simp only [not_exists] at hsettled
    obtain ⟨hfirst, hlength⟩ := hprefix _ (hcalm.unsettled p hsettled)
    exact ⟨hfirst, Or.inl hlength⟩

end Once

/-! ## The deed for a message -/

/-- What a message comes to: a tombstone is skipped, an order that passes `validate` and is
not POISON is aggregated, and any other is handed to the DLQ producer. -/
def Message.verdict (m : Message) : Deed :=
  match m.value with
  | none => .skipped m
  | some order =>
    if order.passes = true ∧ order.product ≠ some poisonProduct then .aggregated m
    else .handedOver m

/-- An outcome that the order alone decides. -/
def Decided (order : Order) (outcome : RetryOutcome) : Prop :=
  outcome.succeeded = true ↔ order.passes = true ∧ order.product ≠ some poisonProduct

/-- The deeds of a process are the verdicts on their messages, and the outcome in hand is
decided by its order. -/
structure System.Judged {σ : Type} (s : System σ) : Prop where
  history : ∀ d ∈ s.history, d = d.message.verdict
  executed : ∀ m order outcome, s.pc = .executed m order outcome → Decided order outcome
  publishing : ∀ m order outcome, s.pc = .publishing m order outcome →
    Decided order outcome ∧ outcome.succeeded = false

section Judged

variable {σ : Type} {setup : Setup σ} {effect₀ : σ} {t : Topic}

/-- An order that passes the checks and is no poison is aggregated, flaky or not. -/
theorem verdict_of_good {m : Message} {order : Order} (hvalue : m.value = some order)
    (hgood : order.passes = true ∧ order.product ≠ some poisonProduct) :
    m.verdict = .aggregated m := by
  simp only [Message.verdict, hvalue, if_pos hgood]

/-- Any other order is handed over to the DLQ. -/
theorem verdict_of_bad {m : Message} {order : Order} (hvalue : m.value = some order)
    (hbad : ¬(order.passes = true ∧ order.product ≠ some poisonProduct)) :
    m.verdict = .handedOver m := by
  simp only [Message.verdict, hvalue, if_neg hbad]

theorem System.judged_init : (System.init effect₀).Judged where
  history := List.forall_mem_nil _
  executed := fun _ _ _ hpc => by cases hpc
  publishing := fun _ _ _ hpc => by cases hpc

/-- A step that leaves no outcome in hand, and may do a deed. -/
theorem System.Judged.deeds {s s' : System σ} (h : s.Judged) {deeds : List Deed}
    (hhistory : s'.history = s.history ++ deeds) (hdeeds : ∀ d ∈ deeds, d = d.message.verdict)
    (hexecuted : ∀ m order outcome, s'.pc ≠ .executed m order outcome)
    (hpublishing : ∀ m order outcome, s'.pc ≠ .publishing m order outcome) : s'.Judged where
  history := by
    rw [hhistory]
    exact List.forall_mem_append.mpr ⟨h.history, hdeeds⟩
  executed := fun m order outcome hpc => absurd hpc (hexecuted m order outcome)
  publishing := fun m order outcome hpc => absurd hpc (hpublishing m order outcome)

/-- **Step lemma.** The deed of an outcome is decided by the order, whatever the
attempts were; from the end of the call to the publication the outcome is in hand. -/
theorem System.Judged.step {s s' : System σ} {l : Label} (h : s.Judged)
    (hgenuine : s.Genuine t) (hdecided : ∀ x ∈ s'.outcomes, Decided x.order x.outcome)
    (hstep : Step setup effect₀ t s l s') : s'.Judged := by
  have hinHand := hgenuine.pc
  cases hstep with
  | idle hpc => exact h
  | @skip m hpc hvalue =>
      have hverdict : m.verdict = .skipped m := by simp [Message.verdict, hvalue]
      exact h.deeds rfl (List.forall_mem_singleton.mpr hverdict.symm) (by simp) (by simp)
  | @returned m order remaining attempt lastExc calls a outcome hpc ha hverdict =>
      subst ha
      rw [hpc] at hinHand
      have hlast : Decided order outcome := hdecided _ (List.mem_append_right _ List.mem_cons_self)
      have hdeed : ∀ d ∈ deedOf m (setup.tryOnce order attempt s.consumer).result,
          d = d.message.verdict := by
        rcases Setup.tryOnce_returned hverdict m with ⟨hsucceeded, hdeeds⟩ | ⟨-, hdeeds⟩
        · rw [hdeeds, List.forall_mem_singleton]
          exact (verdict_of_good hinHand.2 (hlast.mp hsucceeded)).symm
        · rw [hdeeds]
          exact List.forall_mem_nil _
      refine ⟨List.forall_mem_append.mpr ⟨h.history, hdeed⟩, ?_, by simp⟩
      intro m' order' outcome' hpc'
      cases hpc'
      exact hlast
  | exhausted hpc =>
      refine ⟨h.history, ?_, by simp⟩
      intro m' order' outcome' hpc'
      cases hpc'
      exact hdecided _ (List.mem_append_right _ List.mem_cons_self)
  | failed hpc houtcome =>
      refine ⟨h.history, by simp, ?_⟩
      intro m' order' outcome' hpc'
      cases hpc'
      exact ⟨h.executed _ _ _ hpc, houtcome⟩
  | @produce m order outcome r failedAt hpc hr =>
      rw [hpc] at hinHand
      obtain ⟨hlast, hfailed⟩ := h.publishing _ _ _ hpc
      have hverdict : m.verdict = .handedOver m := by
        refine verdict_of_bad hinHand.2 fun hgood => ?_
        have hsucceeded := hlast.mpr hgood
        rw [hfailed] at hsucceeded
        cases hsucceeded
      exact h.deeds rfl (List.forall_mem_singleton.mpr hverdict.symm) (by simp) (by simp)
  | report i r hi hpc => exact ⟨h.history, h.executed, h.publishing⟩
  | _ =>
      exact h.deeds (List.append_nil _).symm (List.forall_mem_nil _)
        (fun _ _ _ hpc' => by cases hpc') (fun _ _ _ hpc' => by cases hpc')

end Judged

/-- Within the budget, or beyond the overflow, the outcomes of `main` are decided by the
orders. -/
theorem System.Executed.decided {args : Args} {rng : ℕ → Draw} {dlqTopic : String}
    (hbudget : 1 ≤ args.maxAttempts)
    (hrecovers : args.flakyAttempts < args.maxAttempts ∨ 1025 < args.maxAttempts)
    {s : System FailureSimulator}
    (h : s.Executed (mainSetup args rng dlqTopic)
      fun sim => sim.flakyAttemptsNeeded = args.flakyAttempts) :
    ∀ x ∈ s.outcomes, Decided x.order x.outcome := by
  intro x hx
  obtain ⟨c, hneeded, hresult, -⟩ := h.outcomes x hx
  rcases attempt_effect args rng dlqTopic x.order c hneeded with
    ⟨-, hescaped⟩ | ⟨hsafe, hok, -, -⟩
  · rw [hresult] at hescaped
    cases hescaped
  · rw [hresult] at hok
    have houtcome := Except.ok.inj hok
    unfold Decided
    rw [houtcome, unitEffect_succeeded_iff hbudget]
    refine ⟨fun hall => ⟨hall.1, hall.2.1⟩, fun hgood => ⟨hgood.1, hgood.2, ?_⟩⟩
    intro hflaky
    show args.flakyAttempts < _ + args.maxAttempts
    rcases hrecovers with hlt | hlarge
    · omega
    · -- the backoff would overflow before the order recovers
      by_contra hbeyond
      exact hsafe ⟨passes_iff.mp hgood.1, hflaky, hlarge, by omega⟩

/-- **The topic decides what a group does.**  Take members that run `main` with a positive
budget within which FLAKY orders recover, whatever their random draws, and let no fault
and no eviction happen.  Then however the partitions have been moved between members and
processes, the deeds about a partition are the verdicts on its first messages, in their
order: the committed ones, and one more if a member has not committed it yet. -/
theorem group_effect {μ : Type} [DecidableEq μ] {args : Args} {rng : μ → ℕ → Draw}
    {dlqTopic : String} {t : Topic} (hbudget : 1 ≤ args.maxAttempts)
    (hrecovers : args.flakyAttempts < args.maxAttempts ∨ 1025 < args.maxAttempts)
    {g : GroupSystem μ FailureSimulator} {ls : List (GroupLabel μ)}
    (hrun : Run (GroupStep (fun m => mainSetup args (rng m) dlqTopic)
      { flakyAttemptsNeeded := args.flakyAttempts } t)
      (GroupSystem.init { flakyAttemptsNeeded := args.flakyAttempts }) ls g)
    (hevictions : g.evictions = 0) (hfaults : ∀ m, (g.member m).faults = 0) (p : ℕ) :
    g.deedsOf p = ((t.messages p).take (g.deedsOf p).length).map Message.verdict ∧
      ((g.deedsOf p).length = g.committed p ∨
        (g.deedsOf p).length = g.committed p + 1 ∧
          ∃ m n, (g.member m).pc.phase = .settled p n) := by
  obtain ⟨hfirst, hlength⟩ := GroupSystem.handled_once hrun hevictions hfaults p
  refine ⟨?_, hlength⟩
  have hkept : ∀ m, Kept (mainSetup args (rng m) dlqTopic)
      fun sim => sim.flakyAttemptsNeeded = args.flakyAttempts := by
    intro m order sim hsim
    exact (FailureSimulator.process_flakyAttemptsNeeded order sim).trans hsim
  have hmembers : ∀ m, (g.member m).Genuine t ∧
      (g.member m).Executed (mainSetup args (rng m) dlqTopic)
        (fun sim => sim.flakyAttemptsNeeded = args.flakyAttempts) ∧ (g.member m).Judged := by
    refine GroupSystem.members_of_run (I := fun m s => s.Genuine t ∧
      s.Executed (mainSetup args (rng m) dlqTopic)
        (fun sim => sim.flakyAttemptsNeeded = args.flakyAttempts) ∧ s.Judged) ?_ ?_ ?_ hrun
    · intro m
      exact ⟨System.genuine_init, System.executed_of_run (t := t) (hkept m) rfl Run.nil,
        System.judged_init⟩
    · rintro m s l s' ⟨hgenuine, hexecuted, hjudged⟩ hstep
      have hexecuted' := hexecuted.step (hkept m) rfl hstep
      exact ⟨hgenuine.step hstep, hexecuted',
        hjudged.step hgenuine (hexecuted'.decided hbudget hrecovers) hstep⟩
    · rintro m s offsets hhead ⟨hgenuine, hexecuted, hjudged⟩
      have hpc : ∀ pc : Pc, pc ≠ .head → s.pc ≠ pc := by
        intro pc hne hpc
        exact hne (hpc.symm.trans hhead)
      exact ⟨⟨hgenuine.pc, hgenuine.history, hgenuine.outcomes⟩,
        hexecuted.of_same rfl rfl fun _ _ _ _ _ _ => hpc _ (by simp),
        hjudged.deeds (List.append_nil _).symm (List.forall_mem_nil _)
          (fun _ _ _ => hpc _ (by simp)) (fun _ _ _ => hpc _ (by simp))⟩
  have hverdicts : ∀ d ∈ g.deedsOf p, d = d.message.verdict := by
    intro d hd
    obtain ⟨m, hm⟩ := GroupSystem.deeds_of_run hrun d (List.mem_filter.mp hd).1
    exact (hmembers m).2.2.history d hm
  have htake := List.prefix_iff_eq_take.mp hfirst
  rw [List.length_map] at htake
  have hsame : (g.deedsOf p).map (Message.verdict ∘ Deed.message) = (g.deedsOf p).map id :=
    List.map_congr_left fun d hd => (hverdicts d hd).symm
  rw [← htake, List.map_map, hsame, List.map_id]

/-! ## A handover -/

/-- A topic with a POISON order and a tombstone. -/
def handoverTopic : Topic where
  name := "orders"
  partitions := [[⟨some "1001", .order ⟨"1001", "POISON", .finite 10⟩⟩,
    ⟨some "1001", .tombstone⟩]]

/-- The first member hands the order over and commits; then the partition moves to the
second one, which skips the tombstone. -/
theorem handover_run : ∃ g : GroupSystem (Fin 2) FailureSimulator,
    Run (GroupStep (fun _ => mainSetup {} (fun _ => Draw.half) "orders.DLQ") {} handoverTopic)
      (GroupSystem.init {})
      [.rebalance {0} (assignedTo 0), .act 0 (.receive 0), .act 0 .begin, .act 0 .attempt,
        .act 0 .branch, .act 0 (.produce ""), .act 0 .count, .act 0 .commit,
        .rebalance Finset.univ (assignedTo 1), .act 1 (.receive 0), .act 1 .skip,
        .act 1 .commit] g ∧
    (g.deedsOf 0).length = 2 ∧ g.committed 0 = 2 ∧ g.evictions = 0 ∧
    ∀ m, (g.member m).faults = 0 := by
  obtain ⟨r, hr⟩ : ∃ r, dlqRecordOf "orders.DLQ" poisonMessage poisonOrder poisonOutcome
      "" = .ok r := buildRecord_ofText _ _ _ _ _ _ _ _ _ _ _
  have hattempting : sampleSetup.policy.maxAttempts.toNat = 2 + 1 := rfl
  refine ⟨_, Run.cons (.rebalance ?_ ?_ ?_) <|
    Run.cons (.act (.receive rfl rfl rfl) (Grants.take_owned rfl)) <|
    Run.cons (.act (.begin rfl rfl) (Grants.quiet _ _)) <|
    Run.cons (.act (.returned (congrArg (fun n => Pc.attempting _ _ n 1 none []) hattempting)
      rfl (poison_verdict _)) (Grants.quiet _ _)) <|
    Run.cons (.act (.failed rfl rfl) (Grants.quiet _ _)) <|
    Run.cons (.act (.produce "" rfl hr) (Grants.quiet _ _)) <|
    Run.cons (.act (.count rfl) (Grants.quiet _ _)) <|
    Run.cons (.act (.commit rfl) (Grants.store_current _)) <|
    Run.cons (.rebalance ?_ ?_ ?_) <|
    Run.cons (.act (.receive rfl rfl rfl) (Grants.take_owned rfl)) <|
    Run.cons (.act (.skip rfl rfl) (Grants.quiet _ _)) <|
    Run.single (.act (.commitSkipped rfl) (Grants.store_current _)), rfl, rfl, rfl, ?_⟩
  · intro m _
    rfl
  · intro m hcurrent
    cases hcurrent
  · intro p m howner
    exact Finset.mem_singleton.mpr (assignedTo_eq_some howner)
  · intro m _
    match m with
    | 0 => rfl
    | 1 => rfl
  · intro m _ _
    exact Finset.mem_univ m
  · intro p m _
    exact Finset.mem_univ m
  · intro m
    match m with
    | 0 => rfl
    | 1 => rfl

/-- Both records are handled once, whoever reads them. -/
theorem group_effect_handover : ∃ g : GroupSystem (Fin 2) FailureSimulator,
    (g.deedsOf 0).length = 2 ∧
      g.deedsOf 0 = ((handoverTopic.messages 0).take 2).map Message.verdict := by
  obtain ⟨g, hrun, hlength, -, hevictions, hfaults⟩ := handover_run
  have hbudget : 1 ≤ ({} : Args).maxAttempts := by decide
  have hrecovers : ({} : Args).flakyAttempts < ({} : Args).maxAttempts ∨
      1025 < ({} : Args).maxAttempts := Or.inl (by decide)
  obtain ⟨hdeeds, -⟩ := @group_effect _ _ _ (fun _ _ => Draw.half) _ _ hbudget hrecovers _ _ hrun
    hevictions hfaults 0
  rw [hlength] at hdeeds
  exact ⟨g, hlength, hdeeds⟩

end OrderPipeline

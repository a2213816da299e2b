import OrderPipeline.Foundation.CommitLog

/-!
# Handle first, commit second, in a group

Several processes of the protocol of `CommitLog` share its logs.  A broker assigns each
log to one member of the group and keeps the committed cursors.

* A member is *evicted* without its knowledge.  It may finish the round that it is in, or
  even take another record, but it cannot commit any more.
* Logs are *rebalanced* among members that are between two rounds.  A member goes on from
  the committed cursors of the logs that it gets.

Whatever the members do, everything below a committed cursor has been handled, the
records of a log are handled for the first time in their order (`Inv`), and no committed
cursor goes back (`committed_mono_of_run`).
-/

namespace CommitLog

variable {ι : Type*} [DecidableEq ι]

/-- Read some logs from given cursors, which are committed. -/
def Offsets.reload (o : Offsets ι) (owned : ι → Prop) [DecidablePred owned]
    (committed : ι → ℕ) : Offsets ι where
  position := fun i => if owned i then committed i else o.position i
  committed := fun i => if owned i then committed i else o.committed i

end CommitLog

namespace CommitGroup

open CommitLog Runs

variable {μ ι : Type*} [DecidableEq μ] [DecidableEq ι]

/-! ## The group -/

/-- What a member is to the broker: not in the group, in it, or excluded from it without
knowing so. -/
inductive Standing
  | outside
  | current
  | fenced
  deriving DecidableEq

/-- The members, what the broker knows, and what the members have handled together,
oldest first. -/
structure State (μ ι : Type*) where
  member : μ → CommitLog.State ι
  standing : μ → Standing
  owner : ι → Option μ
  committed : ι → ℕ
  handled : List (ι × ℕ)
  evictions : ℕ

/-- A member takes records from the logs assigned to it, and a fenced one from any; only
current members commit. -/
structure Grants (standing : Standing) (owned : ι → Prop) (takes : Option ι)
    (stores : Bool) : Prop where
  take : ∀ i, takes = some i → standing = .current ∧ owned i ∨ standing = .fenced
  store : stores = true → standing = .current

omit [DecidableEq ι] in
/-- A current member may take from a log that is assigned to it. -/
theorem Grants.take_owned {owned : ι → Prop} {i : ι} (h : owned i) :
    Grants .current owned (some i) false where
  take := by
    intro j hj
    cases hj
    exact Or.inl ⟨rfl, h⟩
  store := fun hstores => by cases hstores

omit [DecidableEq ι] in
theorem Grants.quiet (standing : Standing) (owned : ι → Prop) :
    Grants standing owned none false where
  take := fun _ hi => by cases hi
  store := fun hstores => by cases hstores

omit [DecidableEq ι] in
theorem Grants.store_current (owned : ι → Prop) : Grants .current owned none true where
  take := fun _ hi => by cases hi
  store := fun _ => rfl

/-- The standings after a rebalance: those who have not joined stay fenced or outside. -/
def Standing.afterRebalance (joined : Bool) : Standing → Standing
  | .fenced => if joined then .current else .fenced
  | _ => if joined then .current else .outside

namespace State

/-- A member goes on to a state of its own. -/
def act (g : State μ ι) (m : μ) (s : CommitLog.State ι) (stores restarts : Bool) :
    State μ ι where
  member := Function.update g.member m s
  standing := if restarts then Function.update g.standing m .outside else g.standing
  owner := g.owner
  committed := fun i =>
    if stores = true ∧ g.owner i = some m then s.offsets.committed i else g.committed i
  handled := g.handled ++ s.handled.drop (g.member m).handled.length
  evictions := g.evictions

/-- The broker takes a member for dead: what it commits from now on is refused. -/
def evict (g : State μ ι) (m : μ) : State μ ι :=
  { g with
    standing := Function.update g.standing m .fenced
    evictions := g.evictions + 1 }

/-- The logs are handed out anew; the members that join start from the positions the
broker knows. -/
def rebalance (g : State μ ι) (joined : Finset μ) (owner : ι → Option μ) : State μ ι :=
  { g with
    member := fun m =>
      if m ∈ joined then
        { g.member m with
          offsets := (g.member m).offsets.reload (fun i => owner i = some m) g.committed }
      else g.member m
    standing := fun m => (g.standing m).afterRebalance (m ∈ joined)
    owner := owner }

/-- Nobody is in the group. -/
def start : State μ ι where
  member := fun _ => CommitLog.start
  standing := fun _ => .outside
  owner := fun _ => none
  committed := fun _ => 0
  handled := []
  evictions := 0

end State

/-- A step of one member, or one of the broker's two: to evict a member, and to hand the
logs out anew. -/
inductive Event (μ ι : Type*)
  | act (m : μ) (e : CommitLog.Event ι)
  | evict (m : μ)
  | rebalance (joined : Finset μ) (owner : ι → Option μ)

/-- The steps of a group over the logs `parts`.  A rebalance waits for the members of the
group that are up. -/
inductive Step (parts : Finset ι) : State μ ι → Event μ ι → State μ ι → Prop
  | act {g : State μ ι} {m : μ} {e : CommitLog.Event ι} {s : CommitLog.State ι}
      (hstep : CommitLog.Step parts (g.member m) e s)
      (hgrants : Grants (g.standing m) (fun i => g.owner i = some m) e.takes? e.stores) :
      Step parts g (.act m e) (g.act m s e.stores e.isRestart)
  | evict {g : State μ ι} {m : μ} (hcurrent : g.standing m = .current) :
      Step parts g (.evict m) (g.evict m)
  | rebalance {g : State μ ι} {joined : Finset μ} {owner : ι → Option μ}
      (hidle : ∀ m ∈ joined, (g.member m).phase = .idle)
      (hcurrent : ∀ m, g.standing m = .current → (g.member m).phase ≠ .down → m ∈ joined)
      (howner : ∀ i m, owner i = some m → m ∈ joined) :
      Step parts g (.rebalance joined owner) (g.rebalance joined owner)

/-! ## Safety -/

/-- The records are handled for the first time in the order of their log: before a record
come those below it. -/
def InOrder (handled : List (ι × ℕ)) : Prop :=
  ∀ before i n after, handled = before ++ (i, n) :: after → ∀ k < n, (i, k) ∈ before

omit [DecidableEq ι] in
/-- One more handling keeps the order if all earlier records of its log were handled
before. -/
theorem InOrder.snoc {handled : List (ι × ℕ)} {i : ι} {n : ℕ} (h : InOrder handled)
    (hbelow : ∀ k < n, (i, k) ∈ handled) : InOrder (handled ++ [(i, n)]) := by
  intro before j l after heq k hk
  induction after using List.reverseRecOn with
  | nil =>
      obtain ⟨rfl, hlast⟩ := List.append_inj' heq rfl
      cases hlast
      exact hbelow k hk
  | append_singleton after r _ =>
      rw [← List.cons_append, ← List.append_assoc] at heq
      exact h before j l after (List.append_inj' heq rfl).1 k hk

/-- The invariant of the group.  The members' cursors are behind the broker's, and those of
a current member agree with it on the logs that it owns. -/
structure Inv (parts : Finset ι) (g : State μ ι) : Prop where
  aligned : ∀ m, Aligned parts (g.member m).offsets (g.member m).phase
  behind : ∀ m i, (g.member m).offsets.committed i ≤ g.committed i
  owned : ∀ m i, g.standing m = .current → g.owner i = some m →
    (g.member m).offsets.committed i = g.committed i
  inHand : ∀ m i n, g.standing m = .current →
    (g.member m).phase = .taken i n ∨ (g.member m).phase = .settled i n → g.owner i = some m
  outside : ∀ m, g.standing m = .outside →
    (g.member m).phase = .idle ∨ (g.member m).phase = .down
  handled : ∀ i n, n < g.committed i → (i, n) ∈ g.handled
  pending : ∀ m, ∀ r ∈ pending (g.member m).phase, r ∈ g.handled
  inOrder : InOrder g.handled

omit [DecidableEq μ] in
/-- The invariant of the group before the first generation: no member is current, and
nothing is assigned. -/
theorem inv_start (parts : Finset ι) : Inv parts (State.start : State μ ι) where
  aligned := fun _ => rfl
  behind := fun _ _ => le_rfl
  owned := fun _ _ _ _ => rfl
  inHand := fun _ _ _ h => by cases h
  outside := fun _ _ => Or.inl rfl
  handled := fun _ _ h => absurd h (Nat.not_lt_zero _)
  pending := fun _ _ h => by cases h
  inOrder := by
    intro before i n after heq
    simp [State.start] at heq

/-- What a step of a member does to the broker's cursors: nothing, or it moves the one of
the record in hand. -/
theorem Inv.act_committed {parts : Finset ι} {g : State μ ι} {m : μ}
    {e : CommitLog.Event ι} {s : CommitLog.State ι} (hinv : Inv parts g)
    (hstep : CommitLog.Step parts (g.member m) e s)
    (hgrants : Grants (g.standing m) (fun i => g.owner i = some m) e.takes? e.stores) :
    (e.stores = false ∧ (g.act m s e.stores e.isRestart).committed = g.committed ∧
      s.offsets.committed = (g.member m).offsets.committed) ∨
    ∃ i, e.stores = true ∧ g.standing m = .current ∧ g.owner i = some m ∧
      (g.member m).phase = .settled i (g.committed i) ∧
      (g.act m s e.stores e.isRestart).committed =
        Function.update g.committed i (g.committed i + 1) ∧
      s.offsets.committed =
        Function.update (g.member m).offsets.committed i (g.committed i + 1) := by
  have hquiet : e.stores = false → s.offsets.committed = (g.member m).offsets.committed →
      e.stores = false ∧ (g.act m s e.stores e.isRestart).committed = g.committed ∧
        s.offsets.committed = (g.member m).offsets.committed := by
    intro hstores hsame
    refine ⟨hstores, ?_, hsame⟩
    funext i
    simp [State.act, hstores]
  have hloud : ∀ i n, e.stores = true → (g.member m).phase = .settled i n →
      s.offsets = (g.member m).offsets.commit → ∃ i, e.stores = true ∧
      g.standing m = .current ∧ g.owner i = some m ∧
      (g.member m).phase = .settled i (g.committed i) ∧
      (g.act m s e.stores e.isRestart).committed =
        Function.update g.committed i (g.committed i + 1) ∧
      s.offsets.committed =
        Function.update (g.member m).offsets.committed i (g.committed i + 1) := by
    intro i n hstores hphase hoffsets
    have hcurrent := hgrants.store hstores
    have howner := hinv.inHand m i n hcurrent (Or.inr hphase)
    have haligned := hinv.aligned m
    rw [hphase] at haligned
    obtain ⟨-, hn, hposition⟩ := haligned
    rw [hinv.owned m i hcurrent howner] at hn
    subst hn
    refine ⟨i, hstores, hcurrent, howner, hphase, ?_, by rw [hoffsets]; exact hposition⟩
    funext j
    simp only [State.act, hstores, hoffsets, Offsets.commit_committed, hposition, true_and]
    by_cases hj : j = i
    · subst hj
      simp [howner]
    · simp only [Function.update_of_ne hj]
      split
      · next hown => exact hinv.owned m j hcurrent hown
      · rfl
  cases hstep with
  | take i hphase hi => exact Or.inl (hquiet rfl rfl)
  | settle hphase => exact Or.inl (hquiet rfl rfl)
  | commit hphase => exact Or.inr (hloud _ _ rfl hphase rfl)
  | fail hphase => exact Or.inl (hquiet rfl rfl)
  | failAfterCommit hphase => exact Or.inr (hloud _ _ rfl hphase rfl)
  | stop hphase => exact Or.inl (hquiet rfl rfl)
  | restart hphase => exact Or.inl (hquiet rfl rfl)

/-- What a step of a member does to the records handled: nothing, and then the member has
nothing to commit after it, or it adds the record that the member has taken. -/
theorem act_handled {parts : Finset ι} {g : State μ ι} {m : μ} {e : CommitLog.Event ι}
    {s : CommitLog.State ι} (hstep : CommitLog.Step parts (g.member m) e s) :
    ((g.act m s e.stores e.isRestart).handled = g.handled ∧
      ∀ i n, s.phase ≠ .settled i n) ∨
    ∃ i n, (g.member m).phase = .taken i n ∧ s.phase = .settled i n ∧
      (g.act m s e.stores e.isRestart).handled = g.handled ++ [(i, n)] := by
  cases hstep with
  | @settle i n hphase => exact Or.inr ⟨i, n, hphase, rfl, by simp [State.act]⟩
  | _ => exact Or.inl ⟨by simp [State.act], fun i n h => by cases h⟩

section Act

variable {parts : Finset ι} {g : State μ ι} {m : μ} {e : CommitLog.Event ι}
  {s : CommitLog.State ι}

omit [DecidableEq ι] in
/-- The member that acts is in its new state. -/
theorem act_member_self (stores restarts : Bool) : (g.act m s stores restarts).member m = s :=
  Function.update_self _ _ _

omit [DecidableEq ι] in
/-- The other members are where they were. -/
theorem act_member_of_ne {k : μ} (hk : k ≠ m) (stores restarts : Bool) :
    (g.act m s stores restarts).member k = g.member k :=
  Function.update_of_ne hk _ _

omit [DecidableEq ι] in
/-- The other members are to the broker what they were. -/
theorem act_standing_of_ne {k : μ} (hk : k ≠ m) (stores restarts : Bool) :
    (g.act m s stores restarts).standing k = g.standing k := by
  cases restarts with
  | false => rfl
  | true => exact Function.update_of_ne hk _ _

omit [DecidableEq ι] in
/-- Only a new process changes its standing: it is outside. -/
theorem act_standing_self (stores restarts : Bool) :
    (g.act m s stores restarts).standing m = if restarts then .outside else g.standing m := by
  cases restarts with
  | false => rfl
  | true => exact Function.update_self _ _ _

omit [DecidableEq ι] in
/-- **The frame of a step.**  What is to hold of every member, given its standing, has to be
shown of the one that acts in its new state, and of the others as they were. -/
theorem act_members {P : μ → Standing → CommitLog.State ι → Prop} {stores restarts : Bool}
    (hself : P m (if restarts then .outside else g.standing m) s)
    (hothers : ∀ k, k ≠ m → P k (g.standing k) (g.member k)) (k : μ) :
    P k ((g.act m s stores restarts).standing k) ((g.act m s stores restarts).member k) := by
  rcases eq_or_ne k m with rfl | hk
  · rw [act_standing_self, act_member_self]
    exact hself
  · rw [act_standing_of_ne hk, act_member_of_ne hk]
    exact hothers k hk

omit [DecidableEq ι] in
/-- What has been handled stays handled. -/
theorem mem_act_handled {r : ι × ℕ} (hr : r ∈ g.handled) (stores restarts : Bool) :
    r ∈ (g.act m s stores restarts).handled :=
  List.mem_append_left _ hr

/-- A member that is in the group after its step, and so is no new process, was in it. -/
theorem current_of_new {restarts : Bool} {standing : Standing}
    (h : (if restarts then .outside else standing) = Standing.current) :
    standing = .current := by
  split at h
  · cases h
  · exact h

/-- The committed cursors do not go back. -/
theorem Inv.act_committed_le (hinv : Inv parts g)
    (hstep : CommitLog.Step parts (g.member m) e s)
    (hgrants : Grants (g.standing m) (fun i => g.owner i = some m) e.takes? e.stores) (i : ι) :
    g.committed i ≤ (g.act m s e.stores e.isRestart).committed i := by
  rcases hinv.act_committed hstep hgrants with ⟨-, hsame, -⟩ | ⟨j, -, -, -, -, hmoved, -⟩
  · rw [hsame]
  · rw [hmoved]
    by_cases hi : i = j
    · subst hi
      simp
    · rw [Function.update_of_ne hi]

/-- A member leaves the cursors of logs alone that are assigned to another one. -/
theorem Inv.act_committed_of_owner (hinv : Inv parts g)
    (hstep : CommitLog.Step parts (g.member m) e s)
    (hgrants : Grants (g.standing m) (fun i => g.owner i = some m) e.takes? e.stores) {i : ι}
    {k : μ} (hk : k ≠ m) (howner : g.owner i = some k) :
    (g.act m s e.stores e.isRestart).committed i = g.committed i := by
  rcases hinv.act_committed hstep hgrants with ⟨-, hsame, -⟩ | ⟨j, -, -, hj, -, hmoved, -⟩
  · rw [hsame]
  · have hi : i ≠ j := by
      rintro rfl
      rw [howner] at hj
      exact hk (Option.some.inj hj)
    rw [hmoved, Function.update_of_ne hi]

/-- The member that acts stays behind the broker. -/
theorem Inv.act_behind_self (hinv : Inv parts g)
    (hstep : CommitLog.Step parts (g.member m) e s)
    (hgrants : Grants (g.standing m) (fun i => g.owner i = some m) e.takes? e.stores) (i : ι) :
    s.offsets.committed i ≤ (g.act m s e.stores e.isRestart).committed i := by
  have hle := hinv.behind m i
  rcases hinv.act_committed hstep hgrants with ⟨-, hsame, hown⟩ |
    ⟨j, -, -, -, -, hmoved, hown⟩
  · rw [hsame, hown]
    exact hle
  · rw [hmoved, hown]
    by_cases hi : i = j
    · rw [hi, Function.update_self, Function.update_self]
    · rwa [Function.update_of_ne hi, Function.update_of_ne hi]

/-- On the logs that it owns it agrees with the broker, if it did so before: its commits
are the broker's, and nobody else commits there. -/
theorem Inv.act_owned_self (hinv : Inv parts g)
    (hstep : CommitLog.Step parts (g.member m) e s)
    (hgrants : Grants (g.standing m) (fun i => g.owner i = some m) e.takes? e.stores) {i : ι}
    (hcurrent : g.standing m = .current) (howner : g.owner i = some m) :
    s.offsets.committed i = (g.act m s e.stores e.isRestart).committed i := by
  have hagree := hinv.owned m i hcurrent howner
  rcases hinv.act_committed hstep hgrants with ⟨-, hsame, hown⟩ |
    ⟨j, -, -, -, -, hmoved, hown⟩
  · rw [hsame, hown]
    exact hagree
  · rw [hmoved, hown]
    by_cases hi : i = j
    · rw [hi, Function.update_self, Function.update_self]
    · rwa [Function.update_of_ne hi, Function.update_of_ne hi]

omit [DecidableEq μ] in
/-- The record in hand after a step is of a log that the member owns: it has just taken it
from there, or had it in hand before. -/
theorem Inv.act_inHand_self (hinv : Inv parts g)
    (hstep : CommitLog.Step parts (g.member m) e s)
    (hgrants : Grants (g.standing m) (fun i => g.owner i = some m) e.takes? e.stores) {i : ι}
    {n : ℕ} (hcurrent : g.standing m = .current)
    (hphase : s.phase = .taken i n ∨ s.phase = .settled i n) : g.owner i = some m := by
  cases hstep with
  | take j hidle hj =>
      obtain ⟨rfl, -⟩ : j = i ∧ _ := by simpa using hphase
      rcases hgrants.take j rfl with ⟨-, hown⟩ | hfenced
      · exact hown
      · rw [hfenced] at hcurrent
        cases hcurrent
  | settle htaken =>
      simp only [reduceCtorEq, CommitLog.Phase.settled.injEq, false_or] at hphase
      obtain ⟨rfl, rfl⟩ := hphase
      exact hinv.inHand m _ _ hcurrent (Or.inl htaken)
  | _ => rcases hphase with h | h <;> cases h

omit [DecidableEq μ] in
/-- Outside the group a process has nothing in hand, whatever it does. -/
theorem Inv.act_outside_self (hinv : Inv parts g)
    (hstep : CommitLog.Step parts (g.member m) e s)
    (hgrants : Grants (g.standing m) (fun i => g.owner i = some m) e.takes? e.stores)
    (houtside : (if e.isRestart then .outside else g.standing m) = Standing.outside) :
    s.phase = .idle ∨ s.phase = .down := by
  cases hstep with
  | take j hidle hj =>
      rcases hgrants.take j rfl with ⟨hcurrent, -⟩ | hfenced
      · exact absurd (hcurrent.symm.trans houtside) (by simp)
      · exact absurd (hfenced.symm.trans houtside) (by simp)
  | settle htaken => rcases hinv.outside m houtside with h | h <;> simp [htaken] at h
  | commit hsettled => exact Or.inl rfl
  | fail _ | failAfterCommit _ | stop _ => exact Or.inr rfl
  | restart _ => exact Or.inl rfl

/-- What lies below a cursor has been handled: if the cursor has moved, the member had the
record in hand, and had handled it. -/
theorem Inv.act_below (hinv : Inv parts g) (hstep : CommitLog.Step parts (g.member m) e s)
    (hgrants : Grants (g.standing m) (fun i => g.owner i = some m) e.takes? e.stores) {i : ι}
    {n : ℕ} (hn : n < (g.act m s e.stores e.isRestart).committed i) :
    (i, n) ∈ (g.act m s e.stores e.isRestart).handled := by
  rcases hinv.act_committed hstep hgrants with ⟨-, hsame, -⟩ |
    ⟨j, -, -, -, hsettled, hmoved, -⟩
  · rw [hsame] at hn
    exact mem_act_handled (hinv.handled i n hn) _ _
  · rw [hmoved] at hn
    by_cases hi : i = j
    · subst hi
      rw [Function.update_self] at hn
      rcases Nat.lt_succ_iff_lt_or_eq.mp hn with hlt | rfl
      · exact mem_act_handled (hinv.handled i n hlt) _ _
      · exact mem_act_handled (hinv.pending m _ (by simp [hsettled, CommitLog.pending])) _ _
    · rw [Function.update_of_ne hi] at hn
      exact mem_act_handled (hinv.handled i n hn) _ _

/-- A record that waits for its commit has been handled, in this very step. -/
theorem act_pending_self (hstep : CommitLog.Step parts (g.member m) e s) {r : ι × ℕ}
    (hr : r ∈ CommitLog.pending s.phase) : r ∈ (g.act m s e.stores e.isRestart).handled := by
  cases hphase : s.phase with
  | settled i n =>
      obtain rfl : r = (i, n) := by simpa [hphase, CommitLog.pending] using hr
      rcases act_handled hstep with ⟨-, hnothing⟩ | ⟨j, l, -, hafter, hhandled⟩
      · exact absurd hphase (hnothing i n)
      · rw [hphase] at hafter
        cases hafter
        rw [hhandled]
        simp
  | _ => simp [hphase, CommitLog.pending] at hr

/-- The record that is handled comes after all those below it, which the broker or the
member had handled before it was taken. -/
theorem Inv.act_inOrder (hinv : Inv parts g) (hstep : CommitLog.Step parts (g.member m) e s) :
    InOrder (g.act m s e.stores e.isRestart).handled := by
  rcases act_handled hstep with ⟨hsame, -⟩ | ⟨i, n, htaken, -, hhandled⟩
  · rw [hsame]
    exact hinv.inOrder
  · rw [hhandled]
    have haligned := hinv.aligned m
    rw [htaken] at haligned
    apply hinv.inOrder.snoc
    intro k hk
    have hle := hinv.behind m i
    rw [haligned.2.1] at hle
    exact hinv.handled i k (hk.trans_le hle)

/-- The step of a member keeps the invariant of the group.  Each field is a fact about
the member itself, from the lemmas above, and what it says of the others is left as it
was. -/
theorem Inv.act (hinv : Inv parts g) (hstep : CommitLog.Step parts (g.member m) e s)
    (hgrants : Grants (g.standing m) (fun i => g.owner i = some m) e.takes? e.stores) :
    Inv parts (g.act m s e.stores e.isRestart) where
  aligned :=
    act_members (P := fun _ _ s => Aligned parts s.offsets s.phase)
      ((hinv.aligned m).step hstep) (fun k _ => hinv.aligned k)
  behind :=
    act_members (P := fun _ _ s' => ∀ i, s'.offsets.committed i ≤
        (g.act m s e.stores e.isRestart).committed i)
      (hinv.act_behind_self hstep hgrants)
      (fun k _ i => (hinv.behind k i).trans (hinv.act_committed_le hstep hgrants i))
  owned :=
    act_members (P := fun k standing s' => ∀ i, standing = .current → g.owner i = some k →
        s'.offsets.committed i = (g.act m s e.stores e.isRestart).committed i)
      (fun _ hcurrent howner =>
        hinv.act_owned_self hstep hgrants (current_of_new hcurrent) howner)
      (fun k hk i hcurrent howner => (hinv.owned k i hcurrent howner).trans
        (hinv.act_committed_of_owner hstep hgrants hk howner).symm)
  inHand :=
    act_members (P := fun k standing s' => ∀ i n, standing = .current →
        s'.phase = .taken i n ∨ s'.phase = .settled i n → g.owner i = some k)
      (fun _ _ hcurrent hphase =>
        hinv.act_inHand_self hstep hgrants (current_of_new hcurrent) hphase)
      (fun k _ i n => hinv.inHand k i n)
  outside :=
    act_members (P := fun _ standing s' => standing = .outside →
        s'.phase = .idle ∨ s'.phase = .down)
      (hinv.act_outside_self hstep hgrants) (fun k _ => hinv.outside k)
  handled := fun _ _ => hinv.act_below hstep hgrants
  pending :=
    act_members (P := fun _ _ s' => ∀ r ∈ CommitLog.pending s'.phase,
        r ∈ (g.act m s e.stores e.isRestart).handled)
      (fun _ => act_pending_self hstep)
      (fun k _ r hr => mem_act_handled (hinv.pending k r hr) _ _)
  inOrder := hinv.act_inOrder hstep

end Act

omit [DecidableEq ι] in
/-- An eviction makes nobody current. -/
theorem current_of_evict {g : State μ ι} {m k : μ} (h : (g.evict m).standing k = .current) :
    g.standing k = .current := by
  by_cases hk : k = m
  · subst hk
    simp [State.evict] at h
  · simpa [State.evict, hk] using h

/-- An eviction only takes rights away: the evicted member may go on with what it holds,
and its commits no longer count. -/
theorem Inv.evict {parts : Finset ι} {g : State μ ι} (hinv : Inv parts g) (m : μ) :
    Inv parts (g.evict m) where
  aligned := hinv.aligned
  behind := hinv.behind
  owned := fun k i hcurrent => hinv.owned k i (current_of_evict hcurrent)
  inHand := fun k i n hcurrent => hinv.inHand k i n (current_of_evict hcurrent)
  outside := by
    intro k houtside
    by_cases hk : k = m
    · subst hk
      simp [State.evict] at houtside
    · exact hinv.outside k (by simpa [State.evict, hk] using houtside)
  handled := hinv.handled
  pending := hinv.pending
  inOrder := hinv.inOrder

section Rebalance

variable {parts : Finset ι} {g : State μ ι} {joined : Finset μ} {owner : ι → Option μ}

omit [DecidableEq ι] in
/-- A rebalance changes no phase. -/
@[simp] theorem rebalance_phase (m : μ) :
    ((g.rebalance joined owner).member m).phase = (g.member m).phase := by
  by_cases hm : m ∈ joined <;> simp [State.rebalance, hm]

omit [DecidableEq ι] in
/-- After a rebalance the current members are those that have joined. -/
theorem current_of_rebalance {m : μ} (h : (g.rebalance joined owner).standing m = .current) :
    m ∈ joined := by
  by_contra hm
  cases hstanding : g.standing m <;>
    simp [State.rebalance, Standing.afterRebalance, hstanding, hm] at h

/-- A rebalance: the members that join start from the committed positions, with nothing
in hand, and those that were current and did not join have gone down. -/
theorem Inv.rebalance (hinv : Inv parts g)
    (hidle : ∀ m ∈ joined, (g.member m).phase = .idle)
    (hcurrent : ∀ m, g.standing m = .current → (g.member m).phase ≠ .down → m ∈ joined) :
    Inv parts (g.rebalance joined owner) where
  aligned := by
    intro m
    rw [rebalance_phase]
    have haligned := hinv.aligned m
    by_cases hm : m ∈ joined
    · rw [hidle m hm] at haligned ⊢
      have hposition : (g.member m).offsets.position = (g.member m).offsets.committed := haligned
      simp [Aligned, State.rebalance, Offsets.reload, hm, hposition]
    · simpa [State.rebalance, hm] using haligned
  behind := by
    intro m i
    by_cases hm : m ∈ joined
    · simp only [State.rebalance, Offsets.reload, hm, if_true]
      split
      · exact le_rfl
      · exact hinv.behind m i
    · simpa [State.rebalance, hm] using hinv.behind m i
  owned := by
    intro m i hcurrent' howner
    have hm := current_of_rebalance hcurrent'
    have hown : owner i = some m := howner
    simp [State.rebalance, Offsets.reload, hm, hown]
  inHand := by
    intro m i n hcurrent' hphase
    rw [rebalance_phase, hidle m (current_of_rebalance hcurrent')] at hphase
    rcases hphase with h | h <;> cases h
  outside := by
    intro m houtside
    rw [rebalance_phase]
    cases hstanding : g.standing m with
    | outside => exact hinv.outside m hstanding
    | current =>
        by_contra hphase
        have hjoined := hcurrent m hstanding (fun hdown => hphase (Or.inr hdown))
        exact hphase (Or.inl (hidle m hjoined))
    | fenced =>
        by_cases hm : m ∈ joined <;>
          simp [State.rebalance, Standing.afterRebalance, hstanding, hm] at houtside
  handled := hinv.handled
  pending := by
    intro m r hr
    rw [rebalance_phase] at hr
    exact hinv.pending m r hr
  inOrder := hinv.inOrder

end Rebalance

/-- **Step lemma.** -/
theorem Inv.step {parts : Finset ι} {g g' : State μ ι} {e : Event μ ι} (hinv : Inv parts g)
    (hstep : Step parts g e g') : Inv parts g' := by
  cases hstep with
  | act hstep hgrants => exact hinv.act hstep hgrants
  | evict hcurrent => exact hinv.evict _
  | rebalance hidle hcurrent howner => exact hinv.rebalance hidle hcurrent

/-- **Run lemma.** -/
theorem Inv.of_run {parts : Finset ι} {g : State μ ι} {es : List (Event μ ι)}
    (hrun : Run (Step parts) State.start es g) : Inv parts g :=
  hrun.invariant (Inv parts) (inv_start parts) (fun _ _ _ hinv hstep => hinv.step hstep)

/-- No step takes back a committed cursor. -/
theorem Inv.committed_mono {parts : Finset ι} {g g' : State μ ι} {e : Event μ ι}
    (hinv : Inv parts g) (hstep : Step parts g e g') (i : ι) :
    g.committed i ≤ g'.committed i := by
  cases hstep with
  | act hstep hgrants => exact hinv.act_committed_le hstep hgrants i
  | evict hcurrent => exact le_rfl
  | rebalance hidle hcurrent howner => exact le_rfl

/-- **The committed cursors never go back**, whoever commits them. -/
theorem committed_mono_of_run {parts : Finset ι} {g g' : State μ ι} {es : List (Event μ ι)}
    (hinv : Inv parts g) (hrun : Run (Step parts) g es g') (i : ι) :
    g.committed i ≤ g'.committed i := by
  have hboth : Inv parts g' ∧ g.committed i ≤ g'.committed i := by
    refine hrun.invariant (fun u => Inv parts u ∧ g.committed i ≤ u.committed i)
      ⟨hinv, le_rfl⟩ ?_
    intro u l v hu hstep
    exact ⟨hu.1.step hstep, hu.2.trans (hu.1.committed_mono hstep i)⟩
  exact hboth.2

end CommitGroup

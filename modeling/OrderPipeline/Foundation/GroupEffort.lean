import Mathlib.Algebra.BigOperators.Ring.Finset
import Mathlib.Data.Fintype.BigOperators
import Mathlib.Tactic.Abel
import Mathlib.Tactic.Linarith
import OrderPipeline.Foundation.CommitGroup

/-!
# The effort of a group

How often the members of a `CommitGroup` handle a record.

* A failure or an eviction costs at most one repeated handling (`effort_of_run`).
* Without failures and evictions each record is handled once, and those of a log in their
  order, however often the log changes hands (`calm_of_run`).
-/

namespace CommitGroup

open CommitLog Runs

variable {μ ι : Type*} [DecidableEq μ] [DecidableEq ι]

/-! ## Failures and evictions -/

/-- Two sums over a group that differ at one member. -/
theorem sum_of_agree {M : Type*} [AddCommGroup M] [Fintype μ] {f f' : μ → M} (m : μ)
    (h : ∀ k, k ≠ m → f' k = f k) : ∑ k, f' k = ∑ k, f k + (f' m - f m) := by
  rw [← Finset.add_sum_erase _ f' (Finset.mem_univ m),
    ← Finset.add_sum_erase _ f (Finset.mem_univ m),
    Finset.sum_congr rfl fun k hk => h k (Finset.ne_of_mem_erase hk)]
  abel

/-- The handling that no commit covers yet, of a current member; and the one that the
eviction of a fenced member has paid for in advance. -/
def debt : Standing → Phase ι → ℤ
  | .current, .settled _ _ => 1
  | .fenced, .idle => -1
  | .fenced, .taken _ _ => -1
  | _, _ => 0

/-- What a member has failed, and what it owes. -/
def State.balance (g : State μ ι) (m : μ) : ℤ :=
  (g.member m).faults + debt (g.standing m) (g.member m).phase

section Counting

variable [Fintype μ]

/-- The handlings are the committed records, and those that failures, evictions and
records in hand account for. -/
def Effort (parts : Finset ι) (g : State μ ι) : Prop :=
  (g.handled.length : ℤ) ≤
    ∑ i ∈ parts, (g.committed i : ℤ) + g.evictions + ∑ m, g.balance m

omit [DecidableEq μ] [DecidableEq ι] in
theorem effort_start (parts : Finset ι) : Effort parts (State.start : State μ ι) := by
  simp [Effort, State.start, State.balance, CommitLog.start, debt]

/-- A commit of one record raises the committed total by one. -/
theorem sum_update_succ {parts : Finset ι} {i : ι} (hi : i ∈ parts) (c : ι → ℕ) :
    ∑ j ∈ parts, (Function.update c i (c i + 1) j : ℤ) = ∑ j ∈ parts, (c j : ℤ) + 1 := by
  have hrest : ∑ j ∈ parts.erase i, (Function.update c i (c i + 1) j : ℤ) =
      ∑ j ∈ parts.erase i, (c j : ℤ) := by
    refine Finset.sum_congr rfl fun j hj => ?_
    rw [Function.update_of_ne (Finset.ne_of_mem_erase hj)]
  rw [← Finset.add_sum_erase _ _ hi, hrest, ← Finset.add_sum_erase _ (fun j => (c j : ℤ)) hi,
    Function.update_self]
  push_cast
  abel

section Act

variable {parts : Finset ι} {g : State μ ι} {m : μ} {e : CommitLog.Event ι}
  {s : CommitLog.State ι}

omit [DecidableEq ι] in
/-- A step of one member changes the total of the balances by the change of its own. -/
theorem sum_balance_act (stores restarts : Bool) :
    ∑ k, (g.act m s stores restarts).balance k =
      ∑ k, g.balance k + ((g.act m s stores restarts).balance m - g.balance m) := by
  apply sum_of_agree
  intro k hk
  unfold State.balance
  rw [act_member_of_ne hk, act_standing_of_ne hk]

omit [DecidableEq μ] [Fintype μ] in
/-- A step pays for the record that it handles, if it handles one: by a debt until the
commit, by a failure, or by the eviction that went before. -/
theorem debt_step {standing : Standing} {owned : ι → Prop} {s s' : CommitLog.State ι}
    (houtside : standing = .outside → s.phase = .idle ∨ s.phase = .down)
    (hstep : CommitLog.Step parts s e s') (hgrants : Grants standing owned e.takes? e.stores) :
    ((s'.handled.drop s.handled.length).length : ℤ) + (s.faults + debt standing s.phase) ≤
      s'.faults + debt (if e.isRestart then .outside else standing) s'.phase +
        if e.stores then 1 else 0 := by
  cases hstep with
  | take i hphase hi =>
      have hstanding : standing ≠ .outside := by
        rintro rfl
        rcases hgrants.take i rfl with ⟨h, -⟩ | h <;> cases h
      cases standing <;> simp_all [debt, CommitLog.Event.isRestart, CommitLog.Event.stores]
  | settle hphase =>
      have hone : (1 : ℤ) + s.faults ≤ s.faults + 1 := by omega
      cases standing <;> simp_all [debt, CommitLog.Event.isRestart, CommitLog.Event.stores]
  | commit hphase =>
      obtain rfl := hgrants.store rfl
      simp [debt, hphase, CommitLog.Event.isRestart, CommitLog.Event.stores]
  | fail hphase =>
      cases hp : s.phase <;> cases standing <;>
        simp_all [debt, CommitLog.Event.isRestart, CommitLog.Event.stores]
  | failAfterCommit hphase =>
      obtain rfl := hgrants.store rfl
      simp [debt, hphase, CommitLog.Event.isRestart, CommitLog.Event.stores]
  | stop hphase =>
      cases standing <;> simp_all [debt, CommitLog.Event.isRestart, CommitLog.Event.stores]
  | restart hphase =>
      cases standing <;> simp_all [debt, CommitLog.Event.isRestart, CommitLog.Event.stores]

/-- A step of a member: a handling is paid for by the debt it makes, and a commit pays
that debt back. -/
theorem Inv.act_effort (hinv : Inv parts g)
    (hstep : CommitLog.Step parts (g.member m) e s)
    (hgrants : Grants (g.standing m) (fun i => g.owner i = some m) e.takes? e.stores)
    (heffort : Effort parts g) : Effort parts (g.act m s e.stores e.isRestart) := by
  have hpays := debt_step (hinv.outside m) hstep hgrants
  have htotal : ∑ i ∈ parts, ((g.act m s e.stores e.isRestart).committed i : ℤ) =
      ∑ i ∈ parts, (g.committed i : ℤ) + if e.stores then 1 else 0 := by
    rcases hinv.act_committed hstep hgrants with ⟨hstores, hsame, -⟩ |
      ⟨i, hstores, -, -, hsettled, hmoved, -⟩
    · rw [hsame, hstores]
      simp
    · have haligned := hinv.aligned m
      rw [hsettled] at haligned
      rw [hmoved, hstores, sum_update_succ haligned.1]
      rfl
  have hself : (g.act m s e.stores e.isRestart).balance m =
      s.faults + debt (if e.isRestart then .outside else g.standing m) s.phase := by
    unfold State.balance
    rw [act_member_self, act_standing_self]
  have hlength : (g.act m s e.stores e.isRestart).handled.length =
      g.handled.length + (s.handled.drop (g.member m).handled.length).length :=
    List.length_append
  have hevictions : (g.act m s e.stores e.isRestart).evictions = g.evictions := rfl
  unfold Effort at heffort ⊢
  rw [sum_balance_act, htotal, hself, hlength, hevictions]
  unfold State.balance at heffort ⊢
  push_cast
  linarith

end Act

omit [DecidableEq ι] in
/-- An eviction is counted, and lowers the balance of the evicted member by at most one. -/
theorem Effort.evict {parts : Finset ι} {g : State μ ι} {m : μ} (h : Effort parts g)
    (hcurrent : g.standing m = .current) : Effort parts (g.evict m) := by
  have hothers : ∀ k, k ≠ m → (g.evict m).balance k = g.balance k := by
    intro k hk
    simp [State.balance, State.evict, hk]
  have hself : g.balance m ≤ (g.evict m).balance m + 1 := by
    unfold State.balance
    cases hphase : (g.member m).phase <;> simp [State.evict, hphase, hcurrent, debt]
  have hevictions : (g.evict m).evictions = g.evictions + 1 := rfl
  have hcommitted : (g.evict m).committed = g.committed := rfl
  unfold Effort at h ⊢
  rw [sum_of_agree m hothers, hevictions, hcommitted]
  push_cast
  exact h.trans (by linarith)

omit [DecidableEq ι] in
/-- A rebalance lowers no balance: a member that joins has nothing in hand, and a current
one that does not join has gone down. -/
theorem Effort.rebalance {parts : Finset ι} {g : State μ ι} {joined : Finset μ}
    {owner : ι → Option μ} (h : Effort parts g)
    (hidle : ∀ m ∈ joined, (g.member m).phase = .idle)
    (hcurrent : ∀ m, g.standing m = .current → (g.member m).phase ≠ .down → m ∈ joined) :
    Effort parts (g.rebalance joined owner) := by
  have hbalance : ∀ m, g.balance m ≤ (g.rebalance joined owner).balance m := by
    intro m
    have hfaults : ((g.rebalance joined owner).member m).faults = (g.member m).faults := by
      by_cases hm : m ∈ joined <;> simp [State.rebalance, hm]
    unfold State.balance
    rw [hfaults, rebalance_phase]
    by_cases hm : m ∈ joined
    · rw [hidle m hm]
      cases hstanding : g.standing m <;>
        simp [State.rebalance, Standing.afterRebalance, hm, hstanding, debt]
    · cases hstanding : g.standing m with
      | outside => simp [State.rebalance, Standing.afterRebalance, hm, hstanding, debt]
      | fenced => simp [State.rebalance, Standing.afterRebalance, hm, hstanding]
      | current =>
          have hdown : (g.member m).phase = .down := by
            by_contra hup
            exact hm (hcurrent m hstanding hup)
          simp [State.rebalance, Standing.afterRebalance, hm, hstanding, hdown, debt]
  have hsum : ∑ m, g.balance m ≤ ∑ m, (g.rebalance joined owner).balance m :=
    Finset.sum_le_sum fun m _ => hbalance m
  exact h.trans (add_le_add_right hsum _)

/-- The members of the group with a record that is handled and not committed. -/
def State.holding (g : State μ ι) : ℕ :=
  (Finset.univ.filter fun m => debt (g.standing m) (g.member m).phase = 1).card

omit [DecidableEq ι] in
/-- The debt is at most one, and it is one only for a record that is handled and not yet
committed. -/
theorem debt_le (standing : Standing) (phase : Phase ι) :
    debt standing phase ≤ if debt standing phase = 1 then 1 else 0 := by
  cases standing <;> cases phase <;> simp [debt]

/-- **Run lemma.** A failure or an eviction costs at most one repeated handling.  The
invariant is `Effort`; at the end every debt is a record in hand. -/
theorem effort_of_run {parts : Finset ι} {g : State μ ι} {es : List (Event μ ι)}
    (hrun : Run (Step parts) State.start es g) :
    g.handled.length ≤ ∑ i ∈ parts, g.committed i + ∑ m, (g.member m).faults +
      g.evictions + g.holding := by
  have hboth : Inv parts g ∧ Effort parts g := by
    refine hrun.invariant (fun u => Inv parts u ∧ Effort parts u)
      ⟨inv_start parts, effort_start parts⟩ ?_
    intro u l v hu hstep
    refine ⟨hu.1.step hstep, ?_⟩
    cases hstep with
    | act hstep hgrants => exact hu.1.act_effort hstep hgrants hu.2
    | evict hcurrent => exact hu.2.evict hcurrent
    | rebalance hidle hcurrent howner => exact hu.2.rebalance hidle hcurrent
  have hdebts : ∑ m, debt (g.standing m) (g.member m).phase ≤ (g.holding : ℤ) := by
    unfold State.holding
    rw [Finset.card_filter, Nat.cast_sum]
    refine Finset.sum_le_sum fun m _ => ?_
    exact_mod_cast debt_le (g.standing m) (g.member m).phase
  have heffort := hboth.2
  unfold Effort State.balance at heffort
  rw [Finset.sum_add_distrib] at heffort
  have hcast : (g.handled.length : ℤ) ≤ ((∑ i ∈ parts, g.committed i +
      ∑ m, (g.member m).faults + g.evictions + g.holding : ℕ) : ℤ) := by
    rw [Nat.cast_add, Nat.cast_add, Nat.cast_add, Nat.cast_sum, Nat.cast_sum]
    linarith
  exact_mod_cast hcast

end Counting

/-! ## Without failures and evictions -/

/-- The records of a log among those handled, as they were handled. -/
def offsetsOf (i : ι) (handled : List (ι × ℕ)) : List ℕ :=
  (handled.filter fun r => r.1 = i).map Prod.snd

/-- A handling of a record of this log comes last among those of the log. -/
theorem offsetsOf_snoc_self (i : ι) (n : ℕ) (handled : List (ι × ℕ)) :
    offsetsOf i (handled ++ [(i, n)]) = offsetsOf i handled ++ [n] := by
  simp [offsetsOf]

/-- A handling of another log's record does not show here. -/
theorem offsetsOf_snoc_of_ne {i j : ι} (h : j ≠ i) (n : ℕ) (handled : List (ι × ℕ)) :
    offsetsOf i (handled ++ [(j, n)]) = offsetsOf i handled := by
  simp [offsetsOf, h]

/-- Of each log exactly the committed records have been handled, in their order, and the
next one if a member has handled it and not committed yet. -/
structure Calm (g : State μ ι) : Prop where
  unfenced : ∀ m, g.standing m ≠ .fenced
  settled : ∀ m i n, (g.member m).phase = .settled i n →
    offsetsOf i g.handled = List.range (g.committed i + 1)
  unsettled : ∀ i, (∀ m n, (g.member m).phase ≠ .settled i n) →
    offsetsOf i g.handled = List.range (g.committed i)

omit [DecidableEq μ] in
theorem calm_start : Calm (State.start : State μ ι) where
  unfenced := fun _ h => by cases h
  settled := fun _ _ _ h => by cases h
  unsettled := fun _ _ => rfl

section Act

variable {parts : Finset ι} {g : State μ ι} {m : μ} {e : CommitLog.Event ι}
  {s : CommitLog.State ι}

omit [DecidableEq μ] in
/-- A member with a record in hand is in the group, and owns the log of the record. -/
theorem Inv.owner_of_busy (hinv : Inv parts g) (hcalm : Calm g) {i : ι} {n : ℕ}
    (hphase : (g.member m).phase = .taken i n ∨ (g.member m).phase = .settled i n) :
    g.standing m = .current ∧ g.owner i = some m := by
  have hcurrent : g.standing m = .current := by
    cases hstanding : g.standing m with
    | current => rfl
    | fenced => exact absurd hstanding (hcalm.unfenced m)
    | outside =>
        rcases hinv.outside m hstanding with h | h <;> simp [h] at hphase
  exact ⟨hcurrent, hinv.inHand m i n hcurrent hphase⟩

omit [DecidableEq μ] in
/-- A record that a member has taken is the next one of its log, and nobody else has
handled it. -/
theorem Inv.taken_next (hinv : Inv parts g) (hcalm : Calm g) {i : ι} {n : ℕ}
    (hphase : (g.member m).phase = .taken i n) :
    n = g.committed i ∧ ∀ k l, (g.member k).phase ≠ .settled i l := by
  obtain ⟨hcurrent, howner⟩ := hinv.owner_of_busy hcalm (Or.inl hphase)
  have haligned := hinv.aligned m
  rw [hphase] at haligned
  refine ⟨by rw [← haligned.2.1, hinv.owned m i hcurrent howner], ?_⟩
  intro k l hsettled
  have hother := (hinv.owner_of_busy hcalm (Or.inr hsettled)).2
  rw [howner] at hother
  cases hother
  rw [hphase] at hsettled
  cases hsettled

omit [DecidableEq μ] in
/-- A settled member commits or fails. -/
theorem settled_step {s' : CommitLog.State ι} {i : ι} {n : ℕ}
    (hstep : CommitLog.Step parts s e s') (hphase : s.phase = .settled i n) :
    e.stores = true ∨ s'.faults ≠ 0 := by
  cases hstep <;> simp_all [CommitLog.Event.stores]

/-- A member that handles a record, or has one in hand, moves no cursor yet. -/
theorem Inv.act_committed_of_taken (hinv : Inv parts g)
    (hstep : CommitLog.Step parts (g.member m) e s)
    (hgrants : Grants (g.standing m) (fun i => g.owner i = some m) e.takes? e.stores) {i : ι}
    {n : ℕ} (htaken : (g.member m).phase = .taken i n) :
    (g.act m s e.stores e.isRestart).committed = g.committed := by
  rcases hinv.act_committed hstep hgrants with ⟨-, hsame, -⟩ | ⟨j, -, -, -, hsettled, -⟩
  · exact hsame
  · rw [htaken] at hsettled
    cases hsettled

/-- The member that has just handled a record is the only one to have done so, and the
record is the next one of its log. -/
theorem Calm.act_settled_self (hcalm : Calm g) (hinv : Inv parts g)
    (hstep : CommitLog.Step parts (g.member m) e s)
    (hgrants : Grants (g.standing m) (fun i => g.owner i = some m) e.takes? e.stores) {j : ι}
    {l : ℕ} (hphase : s.phase = .settled j l) :
    offsetsOf j (g.act m s e.stores e.isRestart).handled =
      List.range ((g.act m s e.stores e.isRestart).committed j + 1) := by
  rcases act_handled hstep with ⟨-, hnothing⟩ | ⟨i, n, htaken, hafter, hhandled⟩
  · exact absurd hphase (hnothing j l)
  · rw [hphase] at hafter
    cases hafter
    obtain ⟨hn, hfree⟩ := hinv.taken_next hcalm htaken
    rw [hhandled, hinv.act_committed_of_taken hstep hgrants htaken, offsetsOf_snoc_self,
      hcalm.unsettled j hfree, hn, List.range_succ]

/-- The log of a record that another member has yet to commit is left alone: it is assigned
to that member. -/
theorem Calm.act_settled_of_ne (hcalm : Calm g) (hinv : Inv parts g)
    (hstep : CommitLog.Step parts (g.member m) e s)
    (hgrants : Grants (g.standing m) (fun i => g.owner i = some m) e.takes? e.stores) {k : μ}
    (hk : k ≠ m) {j : ι} {l : ℕ} (hphase : (g.member k).phase = .settled j l) :
    offsetsOf j (g.act m s e.stores e.isRestart).handled =
      List.range ((g.act m s e.stores e.isRestart).committed j + 1) := by
  obtain ⟨-, howner⟩ := hinv.owner_of_busy hcalm (Or.inr hphase)
  rw [hinv.act_committed_of_owner hstep hgrants hk howner, ← hcalm.settled k j l hphase]
  rcases act_handled hstep with ⟨hsame, -⟩ | ⟨i, n, htaken, -, hhandled⟩
  · rw [hsame]
  · obtain ⟨-, hfree⟩ := hinv.taken_next hcalm htaken
    have hj : i ≠ j := by
      rintro rfl
      exact hfree k l hphase
    rw [hhandled, offsetsOf_snoc_of_ne hj]

/-- A log of which no record waits for its commit after a step: none has waited before it,
or the step is the commit. -/
theorem Calm.act_unsettled (hcalm : Calm g) (hinv : Inv parts g)
    (hstep : CommitLog.Step parts (g.member m) e s)
    (hgrants : Grants (g.standing m) (fun i => g.owner i = some m) e.takes? e.stores)
    (hfaults : s.faults = 0) {j : ι} (hself : ∀ l, s.phase ≠ .settled j l)
    (hothers : ∀ k l, k ≠ m → (g.member k).phase ≠ .settled j l) :
    offsetsOf j (g.act m s e.stores e.isRestart).handled =
      List.range ((g.act m s e.stores e.isRestart).committed j) := by
  have hbefore : (∀ l, (g.member m).phase ≠ .settled j l) →
      offsetsOf j g.handled = List.range (g.committed j) := by
    intro hfree
    apply hcalm.unsettled
    intro k l
    rcases eq_or_ne k m with rfl | hk
    · exact hfree l
    · exact hothers k l hk
  rcases act_handled hstep with ⟨hsame, -⟩ | ⟨i, n, htaken, hafter, hhandled⟩
  · rw [hsame]
    rcases hinv.act_committed hstep hgrants with ⟨hstores, hcommitted, -⟩ |
      ⟨i, -, -, -, hsettled, hmoved, -⟩
    · rw [hcommitted]
      refine hbefore fun l hold => ?_
      rcases settled_step hstep hold with hstored | hfailed
      · rw [hstores] at hstored
        cases hstored
      · exact hfailed hfaults
    · rw [hmoved]
      by_cases hj : j = i
      · subst hj
        rw [Function.update_self, hcalm.settled m j _ hsettled]
      · rw [Function.update_of_ne hj]
        refine hbefore fun l hold => ?_
        rw [hsettled] at hold
        cases hold
        exact hj rfl
  · have hj : i ≠ j := by
      rintro rfl
      exact hself n hafter
    rw [hhandled, hinv.act_committed_of_taken hstep hgrants htaken, offsetsOf_snoc_of_ne hj]
    refine hbefore fun l hold => ?_
    rw [htaken] at hold
    cases hold

/-- The step of a member that does not fail keeps the group calm: it handles the next
record of a log that it owns, and no other member is about to handle the same. -/
theorem Calm.act (hcalm : Calm g) (hinv : Inv parts g)
    (hstep : CommitLog.Step parts (g.member m) e s)
    (hgrants : Grants (g.standing m) (fun i => g.owner i = some m) e.takes? e.stores)
    (hfaults : s.faults = 0) : Calm (g.act m s e.stores e.isRestart) where
  unfenced := by
    refine act_members (P := fun _ standing _ => standing ≠ .fenced) ?_
      (fun k _ => hcalm.unfenced k)
    split
    · simp
    · exact hcalm.unfenced m
  settled :=
    act_members (P := fun _ _ s' => ∀ j l, s'.phase = .settled j l →
        offsetsOf j (g.act m s e.stores e.isRestart).handled =
          List.range ((g.act m s e.stores e.isRestart).committed j + 1))
      (fun _ _ => hcalm.act_settled_self hinv hstep hgrants)
      (fun _ hk _ _ => hcalm.act_settled_of_ne hinv hstep hgrants hk)
  unsettled := by
    intro j hnone
    refine hcalm.act_unsettled hinv hstep hgrants hfaults (fun l => ?_) (fun k l hk => ?_)
    · have hafter := hnone m l
      rwa [act_member_self] at hafter
    · have hafter := hnone k l
      rwa [act_member_of_ne hk] at hafter

end Act

/-- A rebalance moves the logs between members and leaves the committed positions and
the handlings as they are. -/
theorem Calm.rebalance {g : State μ ι} (hcalm : Calm g)
    (joined : Finset μ) (owner : ι → Option μ) : Calm (g.rebalance joined owner) where
  unfenced := by
    intro m hfenced
    have hbefore := hcalm.unfenced m
    cases hstanding : g.standing m with
    | fenced => exact hbefore hstanding
    | _ =>
        by_cases hm : m ∈ joined <;>
          simp [State.rebalance, Standing.afterRebalance, hstanding, hm] at hfenced
  settled := by
    intro m i n hphase
    rw [rebalance_phase] at hphase
    exact hcalm.settled m i n hphase
  unsettled := by
    intro i hnone
    simp only [rebalance_phase] at hnone
    exact hcalm.unsettled i hnone

omit [DecidableEq μ] in
/-- Failures are never forgotten, so a run without failures had none at any earlier
state. -/
theorem faults_step {parts : Finset ι} {s s' : CommitLog.State ι} {e : CommitLog.Event ι}
    (hstep : CommitLog.Step parts s e s') (h : s'.faults = 0) : s.faults = 0 := by
  cases hstep <;> simp_all

/-- **Exactly once.**  Without failures and evictions each log is handled exactly up to
its committed cursor, or one record further, however often it has been assigned anew. -/
theorem calm_of_run {parts : Finset ι} {g : State μ ι} {es : List (Event μ ι)}
    (hrun : Run (Step parts) State.start es g) (hevictions : g.evictions = 0)
    (hfaults : ∀ m, (g.member m).faults = 0) : Calm g := by
  have hall : Inv parts g ∧
      (g.evictions = 0 → (∀ m, (g.member m).faults = 0) → Calm g) := by
    refine hrun.invariant
      (fun u => Inv parts u ∧ (u.evictions = 0 → (∀ m, (u.member m).faults = 0) → Calm u))
      ⟨inv_start parts, fun _ _ => calm_start⟩ ?_
    rintro u l v ⟨hinv, hcalm⟩ hstep
    refine ⟨hinv.step hstep, ?_⟩
    intro hevictions hfaults
    cases hstep with
    | @act m e s hstep hgrants =>
        have hs : s.faults = 0 := by
          have hm := hfaults m
          rwa [act_member_self] at hm
        refine (hcalm hevictions fun k => ?_).act hinv hstep hgrants hs
        rcases eq_or_ne k m with rfl | hk
        · exact faults_step hstep hs
        · have hk' := hfaults k
          rwa [act_member_of_ne hk] at hk'
    | evict hcurrent => cases hevictions
    | @rebalance joined owner hidle hcurrent howner =>
        refine (hcalm hevictions fun k => ?_).rebalance joined owner
        have hk := hfaults k
        by_cases hm : k ∈ joined
        · simpa [State.rebalance, hm] using hk
        · simpa [State.rebalance, hm] using hk
  exact hall.2 hevictions hfaults

end CommitGroup

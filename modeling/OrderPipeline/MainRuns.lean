import OrderPipeline.Foundation.Interleaving
import OrderPipeline.UnitOfWork

/-!
# Runs of `main`

The loop with the failure simulator.  The simulator keeps one counter for each
order id, and what happens to an order depends on the counter of its id alone.
So a run handles its orders like the machine `Interleaving.trace` whose answers
are `unitEffect` (`handled_trace`), whatever the jitter and the time stamps.
-/

namespace OrderPipeline

/-- The key under which a polled order is counted. -/
def orderKey (x : Message × Order) : String := FailureSimulator.keyOf x.2

/-- The effect of a polled order, and the counter of its id after it. -/
def orderAnswer (policy : RetryPolicy) (flakyAttemptsNeeded : ℤ) (x : Message × Order)
    (seen : ℕ) : UnitEffect × ℕ :=
  let u := unitEffect policy flakyAttemptsNeeded x.2 seen
  (u, seen + u.counted)

/-- A handling with the order and the effect it stands for. -/
def Handling.Shows (h : Handling) (x : (Message × Order) × UnitEffect) : Prop :=
  h.message = x.1.1 ∧ h.order = x.1.2 ∧ h.outcome = x.2.outcome ∧
    (invocations h.calls).length = x.2.invocations

/-- Counting an attempt, or none, leaves the threshold as it is. -/
theorem FailureSimulator.countIfAny_flakyAttemptsNeeded (sim : FailureSimulator)
    (orderId : String) (n : ℕ) :
    (sim.countIfAny orderId n).flakyAttemptsNeeded = sim.flakyAttemptsNeeded := by
  unfold FailureSimulator.countIfAny
  split <;> rfl

/-- Counting attempts updates the counter of one order id, and counting none of them
updates nothing. -/
theorem FailureSimulator.seen_countIfAny (sim : FailureSimulator) (orderId : String)
    (n : ℕ) :
    (sim.countIfAny orderId n).seen =
      Function.update sim.seen orderId (sim.seen orderId + n) := by
  funext id
  unfold FailureSimulator.countIfAny
  by_cases hid : id = orderId
  · subst id
    rw [Function.update_self]
    split
    · next hn =>
      rw [hn, Nat.add_zero]
    · exact sim.seen_count_self orderId n
  · rw [Function.update_of_ne hid]
    split
    · rfl
    · exact sim.seen_count_of_ne n hid

/-- The error of an effect is plain text, so its record can be built: the texts of the
validator and of the simulator hold no surrogates. -/
theorem dlqRecordOf_unitEffect (policy : RetryPolicy) (flakyAttemptsNeeded : ℤ)
    (order : Order) (seen : ℕ) (dlqTopic : String) (m : Message) (failedAt : String) :
    ∃ r, dlqRecordOf dlqTopic m order
      (unitEffect policy flakyAttemptsNeeded order seen).outcome failedAt = .ok r := by
  have hnone : ∀ outcome : RetryOutcome, outcome.error = none →
      ∃ r, dlqRecordOf dlqTopic m order outcome failedAt = .ok r := by
    intro outcome herror
    unfold dlqRecordOf
    rw [herror]
    exact buildRecord_noError _ _ _ _ _ _ _ _
  have htext : ∀ (outcome : RetryOutcome) name bases text,
      outcome.error = some (Exn.ofText name bases text) →
      ∃ r, dlqRecordOf dlqTopic m order outcome failedAt = .ok r := by
    intro outcome name bases text herror
    unfold dlqRecordOf
    rw [herror]
    exact buildRecord_ofText _ _ _ _ _ _ _ _ _ _ _
  unfold unitEffect
  simp only
  split
  · exact hnone _ rfl
  · split
    · next exc hexc =>
      obtain ⟨text, rfl⟩ := validate_error_text hexc
      exact htext _ _ _ _ rfl
    · split
      · exact htext _ _ _ _ rfl
      · split
        · split
          · exact hnone _ rfl
          · exact htext _ _ _ _ rfl
        · exact hnone _ rfl

section Main

variable {args : Args} {rng : ℕ → Draw} {dlqTopic : String} {tick : Tick}
  {c c' : Consumer FailureSimulator}

/-- What a completed pass of `main` does to the log and to the simulator: it
brings no order, or it handles one with its effect. -/
theorem main_pass (hneeded : c.work.effect.flakyAttemptsNeeded = args.flakyAttempts)
    (hpass : iterate (mainSetup args rng dlqTopic) tick c = .next c') :
    (tick.order? = none ∧ c'.handled = c.handled ∧ c'.work = c.work) ∨
    ∃ m order h, tick.order? = some (m, order) ∧
      let seen := c.work.effect.seen (FailureSimulator.keyOf order)
      let u := unitEffect (mainSetup args rng dlqTopic).policy args.flakyAttempts order seen
      ¬Overflows args.maxAttempts args.flakyAttempts order seen ∧
        c'.handled = c.handled ++ [h] ∧ h.Shows ((m, order), u) ∧
        c'.work.effect =
          c.work.effect.countIfAny (FailureSimulator.keyOf order) u.counted := by
  rcases iterate_next hpass with ⟨hidle, rfl⟩ |
    ⟨m, hpoll, ⟨hvalue, -, rfl⟩ | ⟨order, hvalue, hhandle⟩⟩
  · refine Or.inl ⟨?_, rfl, rfl⟩
    rcases hidle with h | h <;> simp [Tick.order?, h]
  · refine Or.inl ⟨?_, rfl, rfl⟩
    simp [Tick.order?, hpoll, hvalue]
  · have horder : tick.order? = some (m, order) := by simp [Tick.order?, hpoll, hvalue]
    obtain ⟨outcome, hresult, hlog, hwork, -⟩ := handle_next_log hhandle
    rcases attempt_effect args rng dlqTopic order (c.receive m) hneeded with
      ⟨-, hescaped⟩ | ⟨hnone, hok, heffect, hinvocations⟩
    · rw [hresult] at hescaped
      cases hescaped
    · rw [hresult] at hok
      have houtcome := Except.ok.inj hok
      refine Or.inr ⟨m, order, _, horder, hnone, hlog, ⟨rfl, rfl, houtcome, hinvocations⟩, ?_⟩
      rw [hwork]
      exact heffect

/-- **A run is a trace.**  The orders that a run of `main` handles are the
polled ones, each with the effect that the counter of its id gives it.  The
induction is on the ticks, from any state of the simulator. -/
theorem handled_trace {ticks : List Tick}
    (hneeded : c.work.effect.flakyAttemptsNeeded = args.flakyAttempts)
    (hrun : runLoop (mainSetup args rng dlqTopic) ticks c = .next c') :
    ∃ hs, c'.handled = c.handled ++ hs ∧
      List.Forall₂ Handling.Shows hs
        (Interleaving.trace orderKey
          (orderAnswer (mainSetup args rng dlqTopic).policy args.flakyAttempts)
          c.work.effect.seen (polledOrders ticks)) := by
  induction ticks generalizing c with
  | nil =>
      cases hrun
      exact ⟨[], by simp, List.Forall₂.nil⟩
  | cons tick ticks ih =>
      have hcons : (iterate (mainSetup args rng dlqTopic) tick c).andThen
          (runLoop (mainSetup args rng dlqTopic) ticks) = .next c' := hrun
      obtain ⟨d, hpass, hrest⟩ := Pass.andThen_eq_next.mp hcons
      rcases main_pass hneeded hpass with ⟨horder, hhandled, hwork⟩ |
        ⟨m, order, h, horder, -, hhandled, hshows, heffect⟩
      · obtain ⟨hs, hlog, htrace⟩ := ih (by rw [hwork]; exact hneeded) hrest
        refine ⟨hs, by rw [hlog, hhandled], ?_⟩
        have hpolled : polledOrders (tick :: ticks) = polledOrders ticks :=
          List.filterMap_cons_none horder
        rw [hpolled, ← hwork]
        exact htrace
      · have hneeded' : d.work.effect.flakyAttemptsNeeded = args.flakyAttempts := by
          rw [heffect, FailureSimulator.countIfAny_flakyAttemptsNeeded]
          exact hneeded
        obtain ⟨hs, hlog, htrace⟩ := ih hneeded' hrest
        refine ⟨h :: hs, by rw [hlog, hhandled, List.append_assoc]; rfl, ?_⟩
        have hpolled : polledOrders (tick :: ticks) = (m, order) :: polledOrders ticks :=
          List.filterMap_cons_some horder
        rw [heffect, FailureSimulator.seen_countIfAny] at htrace
        rw [hpolled]
        exact List.Forall₂.cons hshows htrace

/-- The handlings of a fresh run. -/
theorem handled_of_run {offsets : CommitLog.Offsets ℕ} {ticks : List Tick}
    (hrun : runLoop (mainSetup args rng dlqTopic) ticks (mainStart args offsets) =
      .next c') :
    List.Forall₂ Handling.Shows c'.handled
      (Interleaving.trace orderKey
        (orderAnswer (mainSetup args rng dlqTopic).policy args.flakyAttempts)
        (fun _ => 0) (polledOrders ticks)) := by
  have hneeded : (mainStart args offsets).work.effect.flakyAttemptsNeeded =
      args.flakyAttempts := rfl
  obtain ⟨hs, hlog, htrace⟩ := handled_trace hneeded hrun
  have hlog' : c'.handled = hs := hlog
  rw [hlog']
  exact htrace

end Main

end OrderPipeline

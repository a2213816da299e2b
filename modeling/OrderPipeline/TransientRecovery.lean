import OrderPipeline.DeadLetterContent
import OrderPipeline.EndToEnd
import OrderPipeline.FailureSequences
import OrderPipeline.Resumption

/-!
# Which failures reach the dead letter topic

Whatever crashes, interrupts and restarts there are, an outcome of the system is that
of one whole call of `execute`, from a state of the side effect that the side effect
itself can leave behind (`System.executed_of_run`).

For `main` this decides which failures are dead-lettered.  Within the budget a FLAKY
order recovers, in every process and however often it is handled again, so only
failures for good are: an order that `validate` rejects or a POISON order, invoked
once.  With a larger threshold a FLAKY order is dead-lettered, unless the budget is so
large that the backoff overflows first (`only_lost_causes_iff`).
-/

namespace OrderPipeline

open Runs

/-! ## The outcomes of a run -/

section Outcomes

variable {σ : Type} {setup : Setup σ} {effect₀ : σ} {t : Topic} {P : σ → Prop}

/-- A property of the side effect's state that every call keeps. -/
def Kept (setup : Setup σ) (P : σ → Prop) : Prop :=
  ∀ order s, P s → P (setup.sideEffect order s).2

/-- A call of the closure `process` keeps it, too. -/
theorem Kept.process (hkept : Kept setup P) (order : Order) {w : Work σ} (hw : P w.effect) :
    P (OrderPipeline.process setup.sideEffect order w).2.effect := by
  rcases process_cases setup.sideEffect order w with ⟨exc, -, h⟩ |
    ⟨-, product, price, -, -, ⟨exc, effect, hside, h⟩ | ⟨effect, hside, h⟩⟩
  · rw [h]
    exact hw
  · rw [h]
    have hafter := hkept order w.effect hw
    rw [hside] at hafter
    exact hafter
  · rw [h]
    have hafter := hkept order w.effect hw
    rw [hside] at hafter
    exact hafter

/-- An attempt calls the side effect at most once, so it keeps what every call keeps. -/
theorem Kept.tryOnce (hkept : Kept setup P) (order : Order) (attempt : ℕ) {c : Consumer σ}
    (hc : P c.work.effect) : P (setup.tryOnce order attempt c).state.effect := by
  have hafter := hkept.process order hc
  unfold Setup.tryOnce
  rcases setup.policy.attemptOnce_cases (OrderPipeline.process setup.sideEffect order) attempt
      c.drawn c.work with ⟨w, hfn, ha⟩ |
    ⟨exc, w, hfn, ⟨-, ha⟩ | ⟨-, ⟨e, -, ha⟩ | ⟨delay, n, -, ha⟩⟩⟩ <;>
  · rw [hfn] at hafter
    rw [ha]
    exact hafter

/-- The state after a call of `execute` that has made some of its calls already. -/
def Setup.resumed (setup : Setup σ) (order : Order) (remaining attempt : ℕ)
    (lastExc : Option Exn) (calls : List Call) (c : Consumer σ) : Execution (Work σ) :=
  let rest := setup.policy.executeFrom (OrderPipeline.process setup.sideEffect order) remaining
    attempt lastExc c.drawn c.work
  { rest with calls := calls ++ rest.calls }

/-- One attempt of it is the first of the rest. -/
theorem Setup.resumed_again {order : Order} {remaining attempt : ℕ} {lastExc : Option Exn}
    {calls : List Call} {c : Consumer σ} {exc : Exn} {delay : PyFloat}
    (hverdict : (setup.tryOnce order attempt c).verdict = .again exc delay) :
    setup.resumed order (remaining + 1) attempt lastExc calls c =
      setup.resumed order remaining (attempt + 1) (some exc)
        (calls ++ [.invoked (setup.tryOnce order attempt c).result, .slept delay])
        { c with
          work := (setup.tryOnce order attempt c).state
          drawn := (setup.tryOnce order attempt c).drawn } := by
  unfold Setup.tryOnce at hverdict
  simp only [Setup.resumed, RetryPolicy.executeFrom, hverdict, Setup.tryOnce,
    List.append_assoc, List.cons_append, List.nil_append]

/-- An attempt that returns ends the call of `execute`, and its invocation is the last
one. -/
theorem Setup.resumed_returned {order : Order} {attempt : ℕ} {c : Consumer σ}
    {outcome : RetryOutcome} (remaining : ℕ) (lastExc : Option Exn) (calls : List Call)
    (hverdict : (setup.tryOnce order attempt c).verdict = .returned outcome) :
    (setup.resumed order (remaining + 1) attempt lastExc calls c).result = .ok outcome ∧
      (setup.resumed order (remaining + 1) attempt lastExc calls c).calls =
        calls ++ [.invoked (setup.tryOnce order attempt c).result] := by
  unfold Setup.tryOnce at hverdict
  simp only [Setup.resumed, RetryPolicy.executeFrom, hverdict, Setup.tryOnce, true_and]

/-- The outcomes are those of whole calls of `execute`, and so will be the one of the
call that is under way. -/
structure System.Executed (setup : Setup σ) (P : σ → Prop) (s : System σ) : Prop where
  effect : P s.consumer.work.effect
  attempting : ∀ m order remaining attempt lastExc calls,
    s.pc = .attempting m order remaining attempt lastExc calls → ∃ c : Consumer σ,
      P c.work.effect ∧ setup.attempt order c =
        setup.resumed order remaining attempt lastExc calls s.consumer
  outcomes : ∀ h ∈ s.outcomes, ∃ c : Consumer σ, P c.work.effect ∧
    (setup.attempt h.order c).result = .ok h.outcome ∧
      (setup.attempt h.order c).calls = h.calls

/-- Between two calls of `execute` the property stays if the work and the outcomes do. -/
theorem System.Executed.of_same {s s' : System σ} (h : s.Executed setup P)
    (heffect : s'.consumer.work = s.consumer.work) (houtcomes : s'.outcomes = s.outcomes)
    (hpc : ∀ m order remaining attempt lastExc calls,
      s'.pc ≠ .attempting m order remaining attempt lastExc calls) :
    s'.Executed setup P where
  effect := by
    rw [heffect]
    exact h.effect
  attempting := fun m order remaining attempt lastExc calls hpc' => absurd hpc' (hpc _ _ _ _ _ _)
  outcomes := by
    rw [houtcomes]
    exact h.outcomes

/-- **Step lemma.** A call that is under way is resumed from its state: an attempt that
returns gives the outcome of the whole call, and another one is the rest of it. -/
theorem System.Executed.step {s s' : System σ} {l : Label} (hkept : Kept setup P)
    (hstart : P effect₀) (h : s.Executed setup P) (hstep : Step setup effect₀ t s l s') :
    s'.Executed setup P := by
  cases hstep with
  | idle hpc => exact h
  | begin hpc hvalue =>
      refine ⟨h.effect, ?_, h.outcomes⟩
      intro m order remaining attempt lastExc calls hpc'
      cases hpc'
      exact ⟨s.consumer, h.effect, rfl⟩
  | @returned m order remaining attempt lastExc calls a outcome hpc ha hverdict =>
      subst ha
      obtain ⟨c, hc, hwhole⟩ := h.attempting _ _ _ _ _ _ hpc
      obtain ⟨hresult, hcalls⟩ := Setup.resumed_returned remaining lastExc calls hverdict
      refine ⟨hkept.tryOnce order attempt h.effect, ?_, forall_mem_snoc h.outcomes ?_⟩
      · intro m' order' remaining' attempt' lastExc' calls' hpc'
        cases hpc'
      · exact ⟨c, hc, by rw [hwhole, hresult], by rw [hwhole, hcalls]⟩
  | @again m order remaining attempt lastExc calls a exc delay hpc ha hverdict =>
      subst ha
      obtain ⟨c, hc, hwhole⟩ := h.attempting _ _ _ _ _ _ hpc
      refine ⟨hkept.tryOnce order attempt h.effect, ?_, h.outcomes⟩
      intro m' order' remaining' attempt' lastExc' calls' hpc'
      cases hpc'
      exact ⟨c, hc, hwhole.trans (Setup.resumed_again hverdict)⟩
  | @escaped m order remaining attempt lastExc calls a exc hpc ha hverdict =>
      subst ha
      refine ⟨hkept.tryOnce order attempt h.effect, ?_, h.outcomes⟩
      intro m' order' remaining' attempt' lastExc' calls' hpc'
      cases hpc'
  | @exhausted m order attempt lastExc calls hpc =>
      obtain ⟨c, hc, hwhole⟩ := h.attempting _ _ _ _ _ _ hpc
      refine ⟨h.effect, ?_, forall_mem_snoc h.outcomes ?_⟩
      · intro m' order' remaining' attempt' lastExc' calls' hpc'
        cases hpc'
      · refine ⟨c, hc, by rw [hwhole]; rfl, ?_⟩
        rw [hwhole]
        exact List.append_nil calls
  | commit hpc =>
      refine h.of_same ?_ rfl (fun _ _ _ _ _ _ hpc' => by cases hpc')
      obtain ⟨summaries, hsummary⟩ :=
        Consumer.summarize_eq setup.summaryEvery s.consumer.commit
      show (s.consumer.commit.summarize setup.summaryEvery).work = s.consumer.work
      rw [hsummary]
      rfl
  | commitRaised exc stored hpc =>
      refine h.of_same ?_ rfl (fun _ _ _ _ _ _ hpc' => by cases hpc')
      cases stored <;> rfl
  | report i r hi hpc => exact ⟨h.effect, h.attempting, h.outcomes⟩
  | restart drawn hpc =>
      refine ⟨hstart, ?_, h.outcomes⟩
      intro m' order' remaining' attempt' lastExc' calls' hpc'
      cases hpc'
  | _ => exact h.of_same rfl rfl (fun _ _ _ _ _ _ hpc' => by cases hpc')

/-- **Run lemma.**  Every outcome is that of a call of `execute` from a state with the
property. -/
theorem System.executed_of_run (hkept : Kept setup P) (hstart : P effect₀) {s : System σ}
    {ls : List Label} (hrun : Run (Step setup effect₀ t) (System.init effect₀) ls s) :
    s.Executed setup P := by
  refine hrun.invariant (System.Executed setup P) ?_
    (fun _ _ _ h hstep => h.step hkept hstart hstep)
  refine ⟨hstart, ?_, by simp [System.init]⟩
  intro m order remaining attempt lastExc calls hpc
  cases hpc

end Outcomes

/-! ## The failures of `main` -/

/-- A failure for good: the order is rejected by `validate` or a POISON order, and the
unit of work was invoked once. -/
structure Handling.LostCause (policy : RetryPolicy) (h : Handling) : Prop where
  order : h.order.passes = false ∨ h.order.product = some poisonProduct
  error : ∃ exc, classify exc = .permanent ∧ h.outcome = policy.failure (some exc)
  once : (invocations h.calls).length = 1

section Main

variable {args : Args} {rng : ℕ → Draw} {dlqTopic : String} {t : Topic}

/-- Within the budget, or beyond the overflow, only lost causes fail: an order that
fails a check, or a POISON order, and both after one invocation. -/
theorem Handling.LostCause.of_effect {policy : RetryPolicy} {h : Handling} {seen : ℕ}
    (hpolicy : policy.maxAttempts = args.maxAttempts) (hbudget : 1 ≤ args.maxAttempts)
    (hrecovers : args.flakyAttempts < args.maxAttempts ∨ 1025 < args.maxAttempts)
    (hsafe : ¬Overflows args.maxAttempts args.flakyAttempts h.order seen)
    (houtcome : h.outcome = (unitEffect policy args.flakyAttempts h.order seen).outcome)
    (hinvocations : (invocations h.calls).length =
      (unitEffect policy args.flakyAttempts h.order seen).invocations)
    (hfailed : h.outcome.succeeded = false) : h.LostCause policy := by
  have hpositive : policy.maxAttempts.toNat ≠ 0 := by omega
  unfold unitEffect at houtcome hinvocations
  simp only [hpositive, if_false] at houtcome hinvocations
  cases hvalid : validate h.order with
  | error exc =>
      simp only [hvalid] at houtcome hinvocations
      have hrejected : h.order.passes = false := by simp [Order.passes, hvalid]
      exact ⟨Or.inl hrejected, ⟨exc, validate_error_permanent hvalid, houtcome⟩, hinvocations⟩
  | ok _ =>
      simp only [hvalid] at houtcome hinvocations
      by_cases hpoison : h.order.product = some poisonProduct
      · rw [if_pos hpoison] at houtcome hinvocations
        exact ⟨Or.inr hpoison, ⟨_, rfl, houtcome⟩, hinvocations⟩
      · rw [if_neg hpoison] at houtcome
        by_cases hflaky : h.order.product = some flakyProduct
        · rw [if_pos hflaky] at houtcome
          by_cases henough : attemptsToRecover args.flakyAttempts seen ≤
              policy.maxAttempts.toNat
          · rw [if_pos henough] at houtcome
            rw [houtcome] at hfailed
            cases hfailed
          · -- the threshold is beyond the budget, so the backoff overflows first
            rw [hpolicy, attemptsToRecover_le_iff hbudget] at henough
            exact absurd ⟨hvalid, hflaky, by omega, by omega⟩ hsafe
        · rw [if_neg hflaky] at houtcome
          rw [houtcome] at hfailed
          cases hfailed

/-- The failed outcomes of a run, when only lost causes fail. -/
theorem lost_causes_of_run (hbudget : 1 ≤ args.maxAttempts)
    (hrecovers : args.flakyAttempts < args.maxAttempts ∨ 1025 < args.maxAttempts)
    {s : System FailureSimulator} {ls : List Label}
    (hrun : Run (Step (mainSetup args rng dlqTopic)
      { flakyAttemptsNeeded := args.flakyAttempts } t)
      (System.init { flakyAttemptsNeeded := args.flakyAttempts }) ls s) :
    ∀ h ∈ s.outcomes, h.outcome.succeeded = false →
      h.LostCause (mainSetup args rng dlqTopic).policy := by
  have hkept : Kept (mainSetup args rng dlqTopic)
      fun sim => sim.flakyAttemptsNeeded = args.flakyAttempts := by
    intro order sim hsim
    exact (FailureSimulator.process_flakyAttemptsNeeded order sim).trans hsim
  have hexecuted := System.executed_of_run hkept rfl hrun
  intro h hh hfailed
  obtain ⟨c, hneeded, hresult, hcalls⟩ := hexecuted.outcomes h hh
  rcases attempt_effect args rng dlqTopic h.order c hneeded with
    ⟨-, hescaped⟩ | ⟨hsafe, hok, -, hinvocations⟩
  · rw [hresult] at hescaped
    cases hescaped
  · rw [hresult] at hok
    rw [hcalls] at hinvocations
    exact Handling.LostCause.of_effect rfl hbudget hrecovers hsafe (Except.ok.inj hok)
      hinvocations hfailed

/-- The records of a run whose failures are lost causes say so. -/
theorem System.Sourced.retry_header {setup : Setup FailureSimulator}
    {s : System FailureSimulator} (h : s.Sourced dlqTopic)
    (hlost : ∀ g ∈ s.outcomes, g.outcome.succeeded = false → g.LostCause setup.policy) :
    ∀ d ∈ s.delivery.all, d.headers.lookup hdrRetryCount =
      some (PyStr.encodeString "1") := by
  obtain ⟨hs, ds, hsublist, hcopies, hall⟩ := h.failed
  intro d hd
  obtain ⟨g, hg, hpublished⟩ := exists_of_mem_right hcopies (hall.subset hd)
  obtain ⟨hmem, hfailed⟩ := List.mem_filter.mp (hsublist.subset hg)
  obtain ⟨exc, hpermanent, houtcome⟩ := (hlost g hmem (by simpa using hfailed)).error
  have hattempts : g.outcome.attempts = 1 := by
    rw [houtcome]
    simp [RetryPolicy.failure, hpermanent]
  rw [hpublished.retry_header, hattempts]
  rfl

end Main

/-! ## When a FLAKY order is dead-lettered -/

/-- A topic with one FLAKY order. -/
def flakyTopic : Topic where
  name := "orders"
  partitions := [[⟨some "1001", .order ⟨"1001", "FLAKY", .finite 20⟩⟩]]

def flakyOrder : Order := dictToOrder ⟨"1001", "FLAKY", .finite 20⟩

theorem flakyOrder_valid : validate flakyOrder = .ok () := by decide +kernel

/-- The first process handles the FLAKY order with a fresh counter, so all that its
threshold asks for is asked of this one call. -/
theorem flaky_handled (args : Args) (rng : ℕ → Draw) (dlqTopic : String)
    (hsafe : ¬Overflows args.maxAttempts args.flakyAttempts flakyOrder 0) :
    ∃ s ls h, Run (Step (mainSetup args rng dlqTopic)
        { flakyAttemptsNeeded := args.flakyAttempts } flakyTopic)
        (System.init { flakyAttemptsNeeded := args.flakyAttempts }) ls s ∧
      h ∈ s.outcomes ∧ h.order = flakyOrder ∧
      h.outcome = (unitEffect (mainSetup args rng dlqTopic).policy args.flakyAttempts
        flakyOrder 0).outcome := by
  have hhead : AtHead args (mainStart args CommitLog.Offsets.zero) := ⟨rfl, rfl⟩
  have hrecord : (flakyTopic.log 0)[CommitLog.Offsets.zero.position 0]? =
      some ⟨some "1001", .order ⟨"1001", "FLAKY", .finite 20⟩⟩ := rfl
  have hpassed : Passed args rng dlqTopic flakyTopic kafkaException
      (mainStart args CommitLog.Offsets.zero) 0 := by
    refine passed_of_not_blocking hhead ?_
    intro r hr
    have hsame : some _ = some r := hrecord.symm.trans hr
    cases hsame
    exact hsafe
  obtain ⟨d, hd, -⟩ := hpassed _ hrecord ""
  have hserved : (flakyTopic.serve kafkaException CommitLog.Offsets.zero 0 "").ServedBy
      flakyTopic CommitLog.Offsets.zero := by
    intro m hm
    have hpoll : flakyTopic.pollAt kafkaException CommitLog.Offsets.zero 0 = .message m := hm
    obtain ⟨r, hr, hmessage⟩ := Topic.pollAt_eq_message hpoll
    exact ⟨0, r, hr, hmessage⟩
  let sim : FailureSimulator := { flakyAttemptsNeeded := args.flakyAttempts }
  obtain ⟨s, hs, hserves, -, hhandled⟩ :=
    pass_serves (s := System.init sim) sim rfl rfl hserved hd
  obtain ⟨ls, hrun, -⟩ := hserves.quietly
  rcases main_pass hhead.flakyAttemptsNeeded hd with
    ⟨hnone, -⟩ | ⟨m, order, h, horder, -, hlog, ⟨-, hsame, houtcome, -⟩, -⟩
  · cases hnone
  · cases horder
    have hone : hs = [h] := List.append_cancel_left (hhandled.symm.trans hlog)
    refine ⟨s, ls, h, hrun, ?_, hsame, houtcome⟩
    rw [hserves.outcomes, hone]
    simp

/-- **Which failures reach the dead letter topic.**  In every state of every run, with
its crashes, interrupts and restarts, a failed outcome is a lost cause and every DLQ
record reports one attempt, exactly when the budget is positive and the FLAKY orders
recover within it, or run into the overflow of the backoff. -/
theorem only_lost_causes_iff (args : Args) (rng : ℕ → Draw) (dlqTopic : String) :
    (∀ t ls s, Run (Step (mainSetup args rng dlqTopic)
        { flakyAttemptsNeeded := args.flakyAttempts } t)
        (System.init { flakyAttemptsNeeded := args.flakyAttempts }) ls s →
      (∀ h ∈ s.outcomes, h.outcome.succeeded = false →
        h.LostCause (mainSetup args rng dlqTopic).policy) ∧
      ∀ d ∈ s.delivery.all, d.headers.lookup hdrRetryCount =
        some (PyStr.encodeString "1")) ↔
    1 ≤ args.maxAttempts ∧
      (args.flakyAttempts < args.maxAttempts ∨ 1025 < args.maxAttempts) := by
  constructor
  · intro hlost
    by_contra hbeyond
    have hsafe : ¬Overflows args.maxAttempts args.flakyAttempts flakyOrder 0 := by
      rintro ⟨-, -, hlarge, hthreshold⟩
      omega
    obtain ⟨s, ls, h, hrun, hh, horder, houtcome⟩ := flaky_handled args rng dlqTopic hsafe
    have hfailed : h.outcome.succeeded = false := by
      rw [houtcome]
      by_cases hbudget : 1 ≤ args.maxAttempts
      · rw [← Bool.not_eq_true,
          unitEffect_succeeded_iff (by exact hbudget) args.flakyAttempts flakyOrder 0]
        rintro ⟨-, -, hflaky⟩
        have hlt : args.flakyAttempts < 0 + args.maxAttempts := hflaky rfl
        omega
      · have hzero : (mainSetup args rng dlqTopic).policy.maxAttempts.toNat = 0 := by
          show args.maxAttempts.toNat = 0
          omega
        unfold unitEffect
        rw [if_pos hzero]
        rfl
    obtain ⟨hrejected | hpoison, -, -⟩ := (hlost flakyTopic ls s hrun).1 h hh hfailed
    · rw [horder, passes_iff.mpr flakyOrder_valid] at hrejected
      cases hrejected
    · rw [horder] at hpoison
      revert hpoison
      decide
  · rintro ⟨hbudget, hrecovers⟩ t ls s hrun
    have hlost := lost_causes_of_run hbudget hrecovers hrun
    exact ⟨hlost, (System.sourced_of_run hrun).retry_header hlost⟩

end OrderPipeline

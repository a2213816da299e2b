import OrderPipeline.Consumer

/-!
# Interim summaries

The loop prints a summary whenever `processed` is a positive multiple of
`--summary-every` at the end of a pass that has handled an order.  A success
has just raised `processed`, but a failure has not: it prints again what the
last success printed.

`summaries_once_per_multiple_iff` says when a run prints one summary for each
multiple: exactly when no order fails while `processed` is a positive multiple.
-/

namespace OrderPipeline

variable {σ : Type}

/-- The pass of a tick handles an order that fails for good. -/
def Setup.FailsAt (setup : Setup σ) (tick : Tick) (c : Consumer σ) : Prop :=
  ∃ m order outcome, tick.poll = .message m ∧ m.value = some order ∧
    (setup.attempt order (c.receive m)).result = .ok outcome ∧ outcome.succeeded = false

/-- One summary for each multiple of `n`: at every loop head their number is
that of the multiples reached, and a pass prints nothing or the multiple to
which it has raised `processed`. -/
structure OncePerMultiple (setup : Setup σ) (n : ℕ) (ticks : List Tick)
    (start : Consumer σ) : Prop where
  number : ∀ ts d, ts <+: ticks → runLoop setup ts start = .next d →
    d.summaries.length = d.processed / n
  placed : ∀ ts tick d d', ts ++ [tick] <+: ticks → runLoop setup ts start = .next d →
    iterate setup tick d = .next d' →
    d'.summaries = d.summaries ∨
      (d'.processed = d.processed + 1 ∧ n ∣ d'.processed ∧
        d'.summaries = d.summaries ++ [d'.processed])

/-- No order fails while `processed` is a positive multiple of `n`. -/
def NoFailureAtMultiple (setup : Setup σ) (n : ℕ) (ticks : List Tick)
    (start : Consumer σ) : Prop :=
  ∀ before tick after d, ticks = before ++ tick :: after →
    runLoop setup before start = .next d → setup.FailsAt tick d →
    ¬(0 < d.processed ∧ n ∣ d.processed)

/-! ## One pass -/

@[simp] theorem Consumer.summarize_processed (summaryEvery : ℤ) (c : Consumer σ) :
    (c.summarize summaryEvery).processed = c.processed := by
  obtain ⟨summaries, h⟩ := c.summarize_eq summaryEvery
  rw [h]

/-- What the end of a pass prints. -/
theorem Consumer.summarize_summaries {n : ℕ} (hn : 1 ≤ n) (c : Consumer σ) :
    (c.summarize n).summaries =
      c.summaries ++ if 0 < c.processed ∧ n ∣ c.processed then [c.processed] else [] := by
  have hcondition : ((n : ℤ) ≠ 0 ∧ c.processed ≠ 0 ∧ (c.processed : ℤ) % n = 0) ↔
      (0 < c.processed ∧ n ∣ c.processed) := by
    rw [← Int.dvd_iff_emod_eq_zero, Int.natCast_dvd_natCast]
    have hne : (n : ℤ) ≠ 0 := by omega
    simp only [hne, ne_eq, not_false_eq_true, true_and, Nat.pos_iff_ne_zero]
  unfold summarize
  by_cases h : 0 < c.processed ∧ n ∣ c.processed
  · rw [if_pos (hcondition.mpr h), if_pos h]
  · rw [if_neg (fun h' => h (hcondition.mp h')), if_neg h]
    exact (List.append_nil _).symm

/-- Whether the pass of an order fails is what its outcome says; the polled order
determines the call. -/
theorem Setup.failsAt_iff {setup : Setup σ} {tick : Tick} {c : Consumer σ} {m : Message}
    {order : Order} {outcome : RetryOutcome} (hpoll : tick.poll = .message m)
    (hvalue : m.value = some order)
    (hresult : (setup.attempt order (c.receive m)).result = .ok outcome) :
    setup.FailsAt tick c ↔ outcome.succeeded = false := by
  constructor
  · intro h
    obtain ⟨m', order', outcome', hpoll', hvalue', hresult', hfailed⟩ := h
    rw [hpoll] at hpoll'
    cases hpoll'
    rw [hvalue] at hvalue'
    cases hvalue'
    rw [hresult] at hresult'
    cases hresult'
    exact hfailed
  · intro hfailed
    exact ⟨m, order, outcome, hpoll, hvalue, hresult, hfailed⟩

/-- A pass that fails has polled an order. -/
theorem Setup.FailsAt.polled {setup : Setup σ} {tick : Tick} {c : Consumer σ}
    (h : setup.FailsAt tick c) : ∃ m order, tick.poll = .message m ∧ m.value = some order := by
  obtain ⟨m, order, -, hpoll, hvalue, -⟩ := h
  exact ⟨m, order, hpoll, hvalue⟩

/-- A completed pass is quiet, or a success has raised `processed`, or a failure
has left it; the last two print if `processed` is a positive multiple. -/
theorem iterate_summaries {setup : Setup σ} {n : ℕ} (hn : 1 ≤ n)
    (hevery : setup.summaryEvery = n) {tick : Tick} {d d' : Consumer σ}
    (h : iterate setup tick d = .next d') :
    (¬setup.FailsAt tick d ∧ d'.processed = d.processed ∧ d'.summaries = d.summaries) ∨
    (¬setup.FailsAt tick d ∧ d'.processed = d.processed + 1 ∧
      d'.summaries = d.summaries ++ if n ∣ d'.processed then [d'.processed] else []) ∨
    (setup.FailsAt tick d ∧ d'.processed = d.processed ∧
      d'.summaries = d.summaries ++
        if 0 < d.processed ∧ n ∣ d.processed then [d.processed] else []) := by
  rcases iterate_next h with ⟨hidle, rfl⟩ |
    ⟨m, hpoll, ⟨hvalue, -, rfl⟩ | ⟨order, hvalue, hhandle⟩⟩
  · refine Or.inl ⟨?_, rfl, rfl⟩
    intro hfails
    obtain ⟨m, -, hpoll, -⟩ := hfails.polled
    rw [hpoll] at hidle
    rcases hidle with hidle | hidle <;> cases hidle
  · refine Or.inl ⟨?_, rfl, rfl⟩
    intro hfails
    obtain ⟨m', order, hpoll', horder⟩ := hfails.polled
    rw [hpoll] at hpoll'
    cases hpoll'
    rw [hvalue] at horder
    cases horder
  · obtain ⟨outcome, hresult, -, hbranch⟩ := handle_next hhandle
    have hfails := Setup.failsAt_iff hpoll hvalue hresult
    rcases hbranch with ⟨hsucceeded, rfl⟩ | ⟨hfailed, -, r, -, rfl⟩
    · refine Or.inr (Or.inl ⟨?_, ?_, ?_⟩)
      · rw [hfails, hsucceeded]
        decide
      · rw [Consumer.summarize_processed]
        rfl
      · rw [hevery, Consumer.summarize_summaries hn, Consumer.summarize_processed]
        have hpos : 0 < (setup.settled m order outcome
            (d.receive m)).countProcessed.commit.processed := Nat.succ_pos d.processed
        simp only [hpos, true_and]
        rfl
    · refine Or.inr (Or.inr ⟨hfails.mpr hfailed, ?_, ?_⟩)
      · rw [Consumer.summarize_processed]
        rfl
      · rw [hevery, Consumer.summarize_summaries hn]
        rfl

/-! ## Runs -/

/-- What holds over a run holds over its beginnings. -/
theorem NoFailureAtMultiple.restrict {setup : Setup σ} {n : ℕ} {ts ticks : List Tick}
    {start : Consumer σ} (h : NoFailureAtMultiple setup n ticks start) (hinitial : ts <+: ticks) :
    NoFailureAtMultiple setup n ts start := by
  obtain ⟨rest, rfl⟩ := hinitial
  intro before tick after d hts
  refine h before tick (after ++ rest) d ?_
  rw [hts, List.append_assoc]
  rfl

/-- A run in which no order fails at a positive multiple has printed one summary
for each multiple reached. -/
theorem summaries_length {setup : Setup σ} {n : ℕ} (hn : 1 ≤ n)
    (hevery : setup.summaryEvery = n) {effect : σ} {offsets : CommitLog.Offsets ℕ}
    {ticks : List Tick} {c : Consumer σ}
    (hquiet : NoFailureAtMultiple setup n ticks (Consumer.fresh effect offsets))
    (hrun : runLoop setup ticks (Consumer.fresh effect offsets) = .next c) :
    c.summaries.length = c.processed / n := by
  induction ticks using List.reverseRecOn generalizing c with
  | nil =>
      cases hrun
      exact (Nat.zero_div n).symm
  | append_singleton ticks tick ih =>
      obtain ⟨d, hd, hpass⟩ := runLoop_snoc_next.mp hrun
      have hbefore := ih (hquiet.restrict (List.prefix_append ticks [tick])) hd
      rcases iterate_summaries hn hevery hpass with
        ⟨-, hprocessed, hsummaries⟩ | ⟨-, hprocessed, hsummaries⟩ |
          ⟨hfails, hprocessed, hsummaries⟩
      · rw [hsummaries, hprocessed, hbefore]
      · rw [hsummaries, List.length_append, hbefore, hprocessed, Nat.succ_div]
        by_cases hdvd : n ∣ d.processed + 1
        · rw [if_pos hdvd, if_pos hdvd]
          rfl
        · rw [if_neg hdvd, if_neg hdvd]
          rfl
      · rw [if_neg (hquiet ticks tick [] d rfl hd hfails)] at hsummaries
        rw [hsummaries, hprocessed, List.append_nil, hbefore]

/-- **When the summaries come once per multiple.**  In a completed run of the
loop they do exactly when no order fails while `processed` is a positive
multiple of `--summary-every`. -/
theorem summaries_once_per_multiple_iff {setup : Setup σ} {n : ℕ} (hn : 1 ≤ n)
    (hevery : setup.summaryEvery = n) {effect : σ} {offsets : CommitLog.Offsets ℕ}
    {ticks : List Tick} {c : Consumer σ}
    (hrun : runLoop setup ticks (Consumer.fresh effect offsets) = .next c) :
    OncePerMultiple setup n ticks (Consumer.fresh effect offsets) ↔
      NoFailureAtMultiple setup n ticks (Consumer.fresh effect offsets) := by
  constructor
  · intro honce before tick after d hticks hbefore hfails hmultiple
    subst hticks
    obtain ⟨e, d', he, hpass⟩ := runLoop_next_split hrun
    rw [hbefore] at he
    cases he
    have hinitial : before ++ [tick] <+: before ++ tick :: after :=
      ⟨after, (List.append_cons before tick after).symm⟩
    rcases iterate_summaries hn hevery hpass with ⟨hnot, -⟩ | ⟨hnot, -⟩ |
      ⟨-, hprocessed, hsummaries⟩
    · exact hnot hfails
    · exact hnot hfails
    · rw [if_pos hmultiple] at hsummaries
      rcases honce.placed before tick d d' hinitial hbefore hpass with hsame | ⟨hraised, -⟩
      · rw [hsummaries] at hsame
        simp at hsame
      · omega
  · intro hquiet
    refine ⟨?_, ?_⟩
    · intro ts d hinitial hts
      exact summaries_length hn hevery (hquiet.restrict hinitial) hts
    · intro ts tick d d' hinitial hts hpass
      rcases iterate_summaries hn hevery hpass with
        ⟨-, -, hsummaries⟩ | ⟨-, hprocessed, hsummaries⟩ | ⟨hfails, -, hsummaries⟩
      · exact Or.inl hsummaries
      · by_cases hdvd : n ∣ d'.processed
        · rw [if_pos hdvd] at hsummaries
          exact Or.inr ⟨hprocessed, hdvd, hsummaries⟩
        · rw [if_neg hdvd, List.append_nil] at hsummaries
          exact Or.inl hsummaries
      · rw [if_neg (hquiet.restrict hinitial ts tick [] d rfl hts hfails), List.append_nil]
          at hsummaries
        exact Or.inl hsummaries

/-- A tick that brings an order of a product, at a price of 10. -/
def orderTick (offset : ℕ) (product : String) : Tick where
  poll := .message ⟨"orders", 0, offset, some (toString (1001 + offset)),
    some (dictToOrder ⟨toString (1001 + offset), product, .finite 10⟩)⟩

/-- The ticks of a run with two successes, a failure between them and an idle
poll. -/
def mixedTicks : List Tick :=
  [orderTick 0 "Item1", orderTick 1 poisonProduct, { poll := .idle }, orderTick 2 "Item2"]

/-- Every second success prints a summary, and the failure in between does not. -/
theorem mixed_run_summaries :
    (runLoop (mainSetup { summaryEvery := 2 } (fun _ => Draw.half) "orders.DLQ") mixedTicks
      (mainStart {} CommitLog.Offsets.zero)).state.summaries = [2] ∧
    OncePerMultiple (mainSetup { summaryEvery := 2 } (fun _ => Draw.half) "orders.DLQ") 2
      mixedTicks (mainStart {} CommitLog.Offsets.zero) := by
  refine ⟨by decide +kernel, (summaries_once_per_multiple_iff (by decide) rfl
    (Pass.eq_next (by decide +kernel))).mpr ?_⟩
  intro before tick after d hticks hbefore _
  have htake : mixedTicks.take before.length = before := by
    rw [hticks, List.take_left]
  have hlength : before.length < mixedTicks.length := by
    rw [hticks, List.length_append, List.length_cons]
    omega
  have hheads : ∀ k < mixedTicks.length,
      let processed := (runLoop (mainSetup { summaryEvery := 2 } (fun _ => Draw.half)
        "orders.DLQ") (mixedTicks.take k) (mainStart {} CommitLog.Offsets.zero)).state.processed
      ¬(0 < processed ∧ 2 ∣ processed) := by
    decide +kernel
  have hhead := hheads before.length hlength
  rw [htake] at hhead
  have hd : (runLoop (mainSetup { summaryEvery := 2 } (fun _ => Draw.half) "orders.DLQ")
      before (mainStart {} CommitLog.Offsets.zero)).state = d := by
    have hbefore' : runLoop (mainSetup { summaryEvery := 2 } (fun _ => Draw.half)
        "orders.DLQ") before (mainStart {} CommitLog.Offsets.zero) = .next d := hbefore
    rw [hbefore']
    rfl
  rw [hd] at hhead
  exact hhead

/-- A success and a failure after it. -/
def reprintTicks : List Tick := [orderTick 0 "Item1", orderTick 1 poisonProduct]

/-- With a summary after every order, the failure prints the summary of the
success once more. -/
theorem failure_reprints_summary :
    ∃ c, runLoop (mainSetup { summaryEvery := 1 } (fun _ => Draw.half) "orders.DLQ")
        reprintTicks (mainStart {} CommitLog.Offsets.zero) = .next c ∧
      c.processed = 1 ∧ c.failed = 1 ∧ c.summaries = [1, 1] ∧
      ¬OncePerMultiple (mainSetup { summaryEvery := 1 } (fun _ => Draw.half) "orders.DLQ") 1
        reprintTicks (mainStart {} CommitLog.Offsets.zero) := by
  have hrun := Pass.eq_next (p := runLoop (mainSetup { summaryEvery := 1 }
    (fun _ => Draw.half) "orders.DLQ") reprintTicks (mainStart {} CommitLog.Offsets.zero))
    (by decide +kernel)
  refine ⟨_, hrun, by decide +kernel, by decide +kernel, by decide +kernel, ?_⟩
  intro honce
  have hlength := honce.number reprintTicks _ List.prefix_rfl hrun
  revert hlength
  decide +kernel

end OrderPipeline

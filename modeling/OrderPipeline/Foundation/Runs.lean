import Mathlib.Tactic.Common

/-!
# Finite runs of a labelled step relation

A system is a relation `step s l t`: from `s`, the event `l` may lead to `t`.
A run records the labels of its steps, oldest first, so that a property may
speak about the states a run reaches and about what happened on the way.

* `Run.invariant` and `Run.trace_invariant` package the induction over a run:
  the second one carries an invariant that reads the labels as well;
* `Guarded` restricts a relation to the steps that meet a condition on the
  state before the step;
* `Run.project` transports a run along an abstraction function whose steps
  are matched by one step of the abstract system or by none.
-/

namespace Runs

variable {S L S' L' : Type*}

/-- A finite run and the labels of its steps, oldest first. -/
inductive Run (step : S → L → S → Prop) (s : S) : List L → S → Prop
  | nil : Run step s [] s
  | snoc {ls : List L} {t u : S} {l : L}
      (run : Run step s ls t) (last : step t l u) : Run step s (ls ++ [l]) u

variable {step : S → L → S → Prop}

/-- A single step is a run of length one. -/
theorem Run.single {s t : S} {l : L} (h : step s l t) : Run step s [l] t :=
  Run.snoc Run.nil h

/-- Runs compose, and so do their label lists. -/
theorem Run.append {s t u : S} {ls ms : List L}
    (hleft : Run step s ls t) (hright : Run step t ms u) :
    Run step s (ls ++ ms) u := by
  induction hright with
  | nil => simpa using hleft
  | snoc _ hlast ih =>
      rw [← List.append_assoc]
      exact Run.snoc ih hlast

/-- Prepend one step to a run. -/
theorem Run.cons {s t u : S} {l : L} {ls : List L}
    (h : step s l t) (hrun : Run step t ls u) : Run step s (l :: ls) u :=
  (Run.single h).append hrun

/-- **Trace induction.**  A property of the labels seen so far and of the
state reached, true at the start and kept by every step, holds of the run. -/
theorem Run.trace_invariant {s t : S} {ls : List L}
    (hrun : Run step s ls t) (I : List L → S → Prop) (hstart : I [] s)
    (hstep : ∀ ms u l v, I ms u → step u l v → I (ms ++ [l]) v) :
    I ls t := by
  induction hrun with
  | nil => exact hstart
  | snoc _ hlast ih => exact hstep _ _ _ _ ih hlast

/-- **Invariant rule.**  What holds at the start and is kept by every step
holds in every state a run reaches. -/
theorem Run.invariant {s t : S} {ls : List L}
    (hrun : Run step s ls t) (I : S → Prop) (hstart : I s)
    (hstep : ∀ u l v, I u → step u l v → I v) : I t :=
  hrun.trace_invariant (fun _ u => I u) hstart
    (fun _ u l v hu h => hstep u l v hu h)

/-- Weaken the step relation of a run. -/
theorem Run.mono {step' : S → L → S → Prop} {s t : S} {ls : List L}
    (hrun : Run step s ls t) (h : ∀ u l v, step u l v → step' u l v) :
    Run step' s ls t := by
  induction hrun with
  | nil => exact Run.nil
  | snoc _ hlast ih => exact Run.snoc ih (h _ _ _ hlast)

/-- The steps that meet a condition on the state before the step. -/
def Guarded (step : S → L → S → Prop) (guard : S → L → Prop) :
    S → L → S → Prop :=
  fun s l t => step s l t ∧ guard s l

/-- A guarded run is a run. -/
theorem Run.unguard {guard : S → L → Prop} {s t : S} {ls : List L}
    (hrun : Run (Guarded step guard) s ls t) : Run step s ls t :=
  hrun.mono (fun _ _ _ h => h.1)

/-- **Projection.**  When every concrete step is matched by at most one
abstract step, the abstraction of a reachable state is reachable. -/
theorem Run.project {step' : S' → L' → S' → Prop} (abs : S → S')
    (hmatch : ∀ u l v, step u l v →
      abs v = abs u ∨ ∃ l', step' (abs u) l' (abs v))
    {s t : S} {ls : List L} (hrun : Run step s ls t) :
    ∃ ls', Run step' (abs s) ls' (abs t) := by
  induction hrun with
  | nil => exact ⟨[], Run.nil⟩
  | snoc _ hlast ih =>
      obtain ⟨ls', hls⟩ := ih
      rcases hmatch _ _ _ hlast with hsame | ⟨l', hl⟩
      · exact ⟨ls', hsame ▸ hls⟩
      · exact ⟨ls' ++ [l'], Run.snoc hls hl⟩

end Runs

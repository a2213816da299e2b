import Mathlib.Data.List.Perm.Basic
import Mathlib.Logic.Function.Basic

/-!
# Interleaved streams and state kept per key

A machine keeps one piece of state for each key.  Handling an item reads and
writes the state of the item's own key and answers with a result; `trace`
pairs every item of a list with its answer.

If no two items of different sources share a key, the answers to the items of
one source do not depend on the others (`trace_filter`).  So any two
interleavings of the same sources produce the same answers up to order
(`trace_perm`), and so do machines that share the sources among them, each with
state of its own (`trace_split`).  If no key occurs twice, every answer comes from the starting
state (`trace_of_nodup`).
-/

namespace Interleaving

variable {α β κ τ ρ : Type*}

/-- Two lists with the same items from every source are permutations of each
other. -/
theorem perm_of_filter_eq [DecidableEq ρ] (source : α → ρ) {xs ys : List α}
    (h : ∀ r, xs.filter (fun x => source x = r) =
      ys.filter (fun y => source y = r)) : xs.Perm ys := by
  classical
  rw [List.perm_iff_count]
  intro a
  have hcount : ∀ zs : List α,
      zs.count a = (zs.filter (fun z => source z = source a)).count a := by
    intro zs
    exact (List.count_filter (by simp)).symm
  rw [hcount xs, hcount ys, h]

variable [DecidableEq κ]

/-- Every item of the list with the answer it gets. -/
def trace (key : α → κ) (answer : α → τ → β × τ) (state : κ → τ) :
    List α → List (α × β)
  | [] => []
  | x :: xs =>
      (x, (answer x (state (key x))).1) ::
        trace key answer
          (Function.update state (key x) (answer x (state (key x))).2) xs

variable {key : α → κ} {answer : α → τ → β × τ}

/-- If no key occurs twice, every item is answered from the starting state, for no
earlier item has changed the state of its key. -/
theorem trace_of_nodup {state : κ → τ} {xs : List α} (h : (xs.map key).Nodup) :
    trace key answer state xs = xs.map fun x => (x, (answer x (state (key x))).1) := by
  have hagree : ∀ (ys : List α) (s : κ → τ), (ys.map key).Nodup →
      (∀ y ∈ ys, s (key y) = state (key y)) →
      trace key answer s ys = ys.map fun y => (y, (answer y (state (key y))).1) := by
    intro ys
    induction ys with
    | nil =>
        intro s _ _
        rfl
    | cons y ys ih =>
        intro s hnodup hs
        obtain ⟨hnotin, hrest⟩ := List.nodup_cons.mp hnodup
        rw [trace, List.map_cons, hs y (by simp)]
        congr 1
        refine ih _ hrest ?_
        intro z hz
        have hne : key z ≠ key y := by
          intro heq
          exact hnotin (heq ▸ List.mem_map_of_mem hz)
        rw [Function.update_of_ne hne]
        exact hs z (by simp [hz])
  exact hagree xs state h (fun _ _ => rfl)

/-- Dropping items whose keys the kept ones do not use changes no answer of a
kept one.  The two starting states need to agree on the keys of kept items
only, which is what the induction carries. -/
theorem trace_filter_of_agree (keep : α → Bool) {state state' : κ → τ}
    {xs : List α}
    (hkeys : ∀ x ∈ xs, ∀ y ∈ xs, key x = key y → keep x = keep y)
    (hstate : ∀ x ∈ xs, keep x = true → state (key x) = state' (key x)) :
    (trace key answer state xs).filter (fun p => keep p.1) =
      trace key answer state' (xs.filter keep) := by
  induction xs generalizing state state' with
  | nil => rfl
  | cons x xs ih =>
      have hkeys' : ∀ y ∈ xs, ∀ z ∈ xs, key y = key z → keep y = keep z :=
        fun y hy z hz => hkeys y (by simp [hy]) z (by simp [hz])
      by_cases hx : keep x = true
      · have hsame := hstate x (by simp) hx
        rw [List.filter_cons_of_pos hx]
        simp only [trace]
        rw [List.filter_cons_of_pos (by simpa using hx), hsame]
        congr 1
        refine ih hkeys' ?_
        intro y hy hkeep
        by_cases hkey : key y = key x
        · rw [hkey, Function.update_self, Function.update_self]
        · rw [Function.update_of_ne hkey, Function.update_of_ne hkey]
          exact hstate y (by simp [hy]) hkeep
      · rw [List.filter_cons_of_neg hx]
        simp only [trace]
        rw [List.filter_cons_of_neg (by simpa using hx)]
        refine ih hkeys' ?_
        intro y hy hkeep
        have hkey : key y ≠ key x := by
          intro heq
          exact hx ((hkeys y (by simp [hy]) x (by simp) heq).symm.trans hkeep)
        rw [Function.update_of_ne hkey]
        exact hstate y (by simp [hy]) hkeep

/-- Items of other keys can be deleted without changing an answer. -/
theorem trace_filter (keep : α → Bool) (state : κ → τ) {xs : List α}
    (hkeys : ∀ x ∈ xs, ∀ y ∈ xs, key x = key y → keep x = keep y) :
    (trace key answer state xs).filter (fun p => keep p.1) =
      trace key answer state (xs.filter keep) :=
  trace_filter_of_agree keep hkeys (fun _ _ _ => rfl)

/-- **Interleavings agree.**  Two lists with the same items from every source,
where different sources share no key, get the same answers up to order. -/
theorem trace_perm [DecidableEq ρ] (source : α → ρ) (state : κ → τ)
    {xs ys : List α}
    (hsources : ∀ r, xs.filter (fun x => source x = r) =
      ys.filter (fun y => source y = r))
    (hkeys : ∀ x ∈ xs, ∀ y ∈ xs, key x = key y → source x = source y) :
    (trace key answer state xs).Perm (trace key answer state ys) := by
  have hperm := perm_of_filter_eq source hsources
  have hkeys' : ∀ x ∈ ys, ∀ y ∈ ys, key x = key y → source x = source y :=
    fun x hx y hy => hkeys x (hperm.mem_iff.mpr hx) y (hperm.mem_iff.mpr hy)
  apply perm_of_filter_eq (fun p => source p.1)
  intro r
  have hfilter : ∀ zs : List α,
      (∀ x ∈ zs, ∀ y ∈ zs, key x = key y → source x = source y) →
      (trace key answer state zs).filter (fun p => source p.1 = r) =
        trace key answer state (zs.filter (fun z => source z = r)) := by
    intro zs hz
    refine trace_filter (fun z => decide (source z = r)) state ?_
    intro x hx y hy h
    simp only [hz x hx y hy h]
  rw [hfilter xs hkeys, hfilter ys hkeys', hsources r]

/-- A trace has the items of its list, in order. -/
theorem trace_map_fst (state : κ → τ) (xs : List α) :
    (trace key answer state xs).map Prod.fst = xs := by
  induction xs generalizing state with
  | nil => rfl
  | cons x xs ih => rw [trace, List.map_cons, ih]

omit [DecidableEq κ] in
/-- A list is what its owners hold of it, one owner after the other.  By induction on
the owners: the first takes its items out, and the others share the rest. -/
theorem perm_flatMap_owner {ω : Type*} [DecidableEq ω] (owner : α → ω) {workers : List ω}
    (hworkers : workers.Nodup) {xs : List α} (howner : ∀ x ∈ xs, owner x ∈ workers) :
    xs.Perm (workers.flatMap fun w => xs.filter fun x => owner x = w) := by
  induction workers generalizing xs with
  | nil =>
      cases xs with
      | nil => exact List.Perm.refl _
      | cons x xs => exact absurd (howner x (by simp)) (by simp)
  | cons w workers ih =>
      obtain ⟨hnotin, hrest⟩ := List.nodup_cons.mp hworkers
      have hothers : ∀ x ∈ xs.filter (fun x => !decide (owner x = w)), owner x ∈ workers := by
        intro x hx
        obtain ⟨hmem, hne⟩ := List.mem_filter.mp hx
        rcases List.mem_cons.mp (howner x hmem) with heq | hmem'
        · simp [heq] at hne
        · exact hmem'
      have hsame : (workers.flatMap fun v =>
          (xs.filter fun x => !decide (owner x = w)).filter fun x => owner x = v) =
          workers.flatMap fun v => xs.filter fun x => owner x = v := by
        apply List.flatMap_congr
        intro v hv
        have hne : v ≠ w := fun heq => hnotin (heq ▸ hv)
        rw [List.filter_filter]
        apply List.filter_congr
        intro x _
        by_cases hx : owner x = v
        · simp [hx, hne]
        · simp [hx]
      have hperm := ih hrest hothers
      rw [hsame] at hperm
      rw [List.flatMap_cons]
      exact (List.filter_append_perm _ xs).symm.trans (hperm.append_left _)

/-- **Sharing the work.**  If each item is owned by one worker and items with one key
have one owner, workers that answer their own items only, each from the starting
state, give together the answers of one machine. -/
theorem trace_split {ω : Type*} [DecidableEq ω] {workers : List ω}
    (hworkers : workers.Nodup) (owner : α → ω) (state : κ → τ) {xs : List α}
    (howner : ∀ x ∈ xs, owner x ∈ workers)
    (hkeys : ∀ x ∈ xs, ∀ y ∈ xs, key x = key y → owner x = owner y) :
    (trace key answer state xs).Perm
      (workers.flatMap fun w => trace key answer state (xs.filter fun x => owner x = w)) := by
  have howned : ∀ w, (trace key answer state xs).filter (fun p => owner p.1 = w) =
      trace key answer state (xs.filter fun x => owner x = w) := by
    intro w
    refine trace_filter (fun x => decide (owner x = w)) state ?_
    intro x hx y hy h
    simp only [hkeys x hx y hy h]
  have hmem : ∀ p ∈ trace key answer state xs, owner p.1 ∈ workers := by
    intro p hp
    have hfst : p.1 ∈ (trace key answer state xs).map Prod.fst := List.mem_map_of_mem hp
    rw [trace_map_fst] at hfst
    exact howner p.1 hfst
  have hperm := perm_flatMap_owner (fun p : α × β => owner p.1) hworkers hmem
  simpa only [howned] using hperm

end Interleaving

import Mathlib.Data.List.Forall2

/-!
# Loops that may raise

`xs.mapM f` runs a function that may raise over a list, from left to right.  It
returns the results of all items (`mapM_ok_iff`), so it returns when every item
does (`mapM_returns_iff`); what it raises is what one of the items has raised
(`mapM_error`).
-/

namespace RaisingLoop

variable {ε α β : Type*} {f : α → Except ε β} {xs : List α}

/-- A loop returns the results of all its items, in their order, and it returns at all
only if each of them does. -/
theorem mapM_ok_iff {ys : List β} :
    xs.mapM f = .ok ys ↔ List.Forall₂ (fun x y => f x = .ok y) xs ys := by
  induction xs generalizing ys with
  | nil =>
      constructor
      · intro h
        cases h
        exact List.Forall₂.nil
      · intro h
        cases h
        rfl
  | cons x xs ih =>
      rw [List.mapM_cons, List.forall₂_cons_left_iff]
      constructor
      · intro h
        cases hx : f x with
        | error exc =>
            rw [hx] at h
            cases h
        | ok y =>
            rw [hx] at h
            cases hrest : xs.mapM f with
            | error exc =>
                rw [hrest] at h
                cases h
            | ok rest =>
                rw [hrest] at h
                cases h
                exact ⟨y, rest, rfl, ih.mp hrest, rfl⟩
      · intro h
        obtain ⟨y, rest, hx, hrest, rfl⟩ := h
        rw [hx, ih.mpr hrest]
        rfl

/-- A loop returns when all its items do. -/
theorem mapM_returns_iff : (∃ ys, xs.mapM f = .ok ys) ↔ ∀ x ∈ xs, ∃ y, f x = .ok y := by
  simp only [mapM_ok_iff]
  induction xs with
  | nil => simp
  | cons x xs ih =>
      rw [List.forall_mem_cons, ← ih]
      constructor
      · intro h
        obtain ⟨_, hall⟩ := h
        obtain ⟨y, ys, hx, hrest, -⟩ := List.forall₂_cons_left_iff.mp hall
        exact ⟨⟨y, hx⟩, ys, hrest⟩
      · intro h
        obtain ⟨⟨y, hx⟩, ys, hrest⟩ := h
        exact ⟨y :: ys, List.Forall₂.cons hx hrest⟩

/-- What a loop raises comes from one of its items; the loop has nothing of its own to
raise. -/
theorem mapM_error {exc : ε} (h : xs.mapM f = .error exc) : ∃ x ∈ xs, f x = .error exc := by
  induction xs with
  | nil => cases h
  | cons x xs ih =>
      rw [List.mapM_cons] at h
      cases hx : f x with
      | error e =>
          rw [hx] at h
          cases h
          exact ⟨x, List.mem_cons_self, hx⟩
      | ok y =>
          rw [hx] at h
          cases hrest : xs.mapM f with
          | error e =>
              rw [hrest] at h
              cases h
              obtain ⟨z, hz, hraised⟩ := ih hrest
              exact ⟨z, List.mem_cons_of_mem x hz, hraised⟩
          | ok rest =>
              rw [hrest] at h
              cases h

end RaisingLoop

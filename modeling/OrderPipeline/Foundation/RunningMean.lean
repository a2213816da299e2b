import Mathlib.Algebra.BigOperators.Group.List.Basic
import Mathlib.Algebra.Order.BigOperators.Group.List
import Mathlib.Algebra.Order.Field.Basic
import Mathlib.Order.Lattice
import Mathlib.Tactic.FieldSimp
import Mathlib.Tactic.Ring

/-!
# Streaming statistics

Count, sum, mean, minimum and maximum of a stream, kept up to date with a
constant amount of work per value.  The mean is corrected by
`(x - mean) / count`, never recomputed.

`foldl_update` says that the streaming statistics of a list are its batch
statistics.  Since these do not depend on the order of the list
(`batch_perm`), neither does the result of the stream, although a single
update does not commute with another one in an arbitrary state.
-/

/-- The running statistics of a stream of values. -/
structure Running (K : Type*) where
  count : ℕ
  total : K
  average : K
  minimum : Option K
  maximum : Option K

namespace Running

section Extremes

variable {K : Type*} [LinearOrder K]

/-- The minimum after one more value. -/
theorem min?_concat (xs : List K) (x : K) :
    (xs ++ [x]).min? = some (xs.min?.elim x (· ⊓ x)) := by
  cases xs with
  | nil => rfl
  | cons y ys =>
      have hleft : (y :: ys ++ [x]).min? = some (ys.foldl Min.min y ⊓ x) := by
        rw [List.cons_append, List.min?_cons', List.foldl_append]
        rfl
      rw [hleft, List.min?_cons']
      rfl

theorem max?_concat (xs : List K) (x : K) :
    (xs ++ [x]).max? = some (xs.max?.elim x (· ⊔ x)) := by
  cases xs with
  | nil => rfl
  | cons y ys =>
      have hleft : (y :: ys ++ [x]).max? = some (ys.foldl Max.max y ⊔ x) := by
        rw [List.cons_append, List.max?_cons', List.foldl_append]
        rfl
      rw [hleft, List.max?_cons']
      rfl

/-- The minimum does not depend on the order of the values. -/
theorem min?_perm {xs ys : List K} (h : xs.Perm ys) : xs.min? = ys.min? := by
  cases hx : xs.min? with
  | none =>
      rw [List.min?_eq_none_iff] at hx
      subst hx
      rw [List.nil_perm.mp h]
      rfl
  | some a =>
      obtain ⟨hmem, hle⟩ := List.min?_eq_some_iff.mp hx
      refine (List.min?_eq_some_iff.mpr ⟨h.mem_iff.mp hmem, ?_⟩).symm
      intro b hb
      exact hle b (h.mem_iff.mpr hb)

theorem max?_perm {xs ys : List K} (h : xs.Perm ys) : xs.max? = ys.max? := by
  cases hx : xs.max? with
  | none =>
      rw [List.max?_eq_none_iff] at hx
      subst hx
      rw [List.nil_perm.mp h]
      rfl
  | some a =>
      obtain ⟨hmem, hle⟩ := List.max?_eq_some_iff.mp hx
      refine (List.max?_eq_some_iff.mpr ⟨h.mem_iff.mp hmem, ?_⟩).symm
      intro b hb
      exact hle b (h.mem_iff.mpr hb)

end Extremes

variable {K : Type*} [Field K] [LinearOrder K]

/-- The statistics of the empty stream. -/
def empty : Running K := ⟨0, 0, 0, none, none⟩

/-- Take one more value into account. -/
def update (r : Running K) (x : K) : Running K where
  count := r.count + 1
  total := r.total + x
  average := r.average + (x - r.average) / ((r.count + 1 : ℕ) : K)
  minimum := some (r.minimum.elim x (· ⊓ x))
  maximum := some (r.maximum.elim x (· ⊔ x))

/-- The statistics of a list, computed from the whole of it. -/
def batch (xs : List K) : Running K where
  count := xs.length
  total := xs.sum
  average := xs.sum / (xs.length : K)
  minimum := xs.min?
  maximum := xs.max?

/-- Batch statistics forget the order of arrival. -/
theorem batch_perm {xs ys : List K} (h : xs.Perm ys) : batch xs = batch ys := by
  simp only [batch, h.length_eq, h.sum_eq, min?_perm h, max?_perm h]

variable [IsStrictOrderedRing K]

/-- The correction term turns the mean of `n` values into that of `n + 1`. -/
theorem mean_correction (s x : K) (n : ℕ) (hzero : n = 0 → s = 0) :
    s / (n : K) + (x - s / (n : K)) / ((n + 1 : ℕ) : K) =
      (s + x) / ((n + 1 : ℕ) : K) := by
  have hsucc : ((n + 1 : ℕ) : K) ≠ 0 := by
    exact_mod_cast Nat.succ_ne_zero n
  by_cases hn : n = 0
  · subst hn
    simp [hzero rfl]
  · have hn' : (n : K) ≠ 0 := by exact_mod_cast hn
    push_cast at hsucc ⊢
    field_simp
    ring

/-- One update of batch statistics gives the batch statistics. -/
theorem update_batch (xs : List K) (x : K) :
    (batch xs).update x = batch (xs ++ [x]) := by
  have hsum : (xs ++ [x]).sum = xs.sum + x := by simp
  have hlength : (xs ++ [x]).length = xs.length + 1 := by simp
  have hmean := mean_correction xs.sum x xs.length
    (fun h => by simp [List.length_eq_zero_iff.mp h])
  simp only [update, batch, hsum, hlength, hmean, min?_concat, max?_concat]

/-- **Streaming equals batch.** -/
theorem foldl_update (xs : List K) : xs.foldl update empty = batch xs := by
  have hbatch : ∀ ys zs : List K,
      zs.foldl update (batch ys) = batch (ys ++ zs) := by
    intro ys zs
    induction zs generalizing ys with
    | nil => simp
    | cons z zs ih =>
        rw [List.foldl_cons, update_batch, ih]
        simp
  have hempty : (empty : Running K) = batch [] := by
    simp [empty, batch]
  rw [hempty, hbatch]
  rfl

/-- The mean of a non-empty list lies between its extremes, since each value does. -/
theorem batch_bounds {xs : List K} (hne : xs ≠ []) :
    ∃ lo hi, (batch xs).minimum = some lo ∧ (batch xs).maximum = some hi ∧
      lo ≤ (batch xs).average ∧ (batch xs).average ≤ hi := by
  obtain ⟨lo, hlo⟩ := Option.ne_none_iff_exists'.mp
    (fun h => hne (List.min?_eq_none_iff.mp h))
  obtain ⟨hi, hhi⟩ := Option.ne_none_iff_exists'.mp
    (fun h => hne (List.max?_eq_none_iff.mp h))
  have hpos : (0 : K) < (xs.length : K) := by
    exact_mod_cast List.length_pos_iff.mpr hne
  refine ⟨lo, hi, hlo, hhi, ?_, ?_⟩
  · have hsum := List.card_nsmul_le_sum xs lo (List.min?_eq_some_iff.mp hlo).2
    rw [nsmul_eq_mul, mul_comm] at hsum
    exact (le_div_iff₀ hpos).mpr hsum
  · have hsum := List.sum_le_card_nsmul xs hi (List.max?_eq_some_iff.mp hhi).2
    rw [nsmul_eq_mul, mul_comm] at hsum
    exact (div_le_iff₀ hpos).mpr hsum

end Running

import Mathlib.Algebra.BigOperators.Group.List.Basic
import Mathlib.Algebra.Order.BigOperators.Group.List
import Mathlib.Algebra.Order.Field.Basic
import Mathlib.Tactic.Linarith
import Mathlib.Tactic.Ring

/-!
# Exponential backoff with a cap and jitter

The wait number `k`, counted from 0, is `min (base * multiplier ^ k) cap`
(`nominal`), stretched by a factor between `1 - jitter` and `1 + jitter` that a
draw between 0 and 1 picks (`wait`).  The cap is applied before the jitter.

* `wait_band`: jitter stays within its band around the nominal wait;
* `wait_le_cap_iff`: when a wait stays below the cap;
* `wait_lt_wait`: when the waits grow whatever the draws;
* `sum_wait_le`: the waits of a run sum to at most their worst case.
-/

/-- The parameters of an exponential backoff. -/
structure Backoff (K : Type*) where
  base : K
  multiplier : K
  cap : K
  jitter : K

namespace Backoff

variable {K : Type*} [Field K] [LinearOrder K] (b : Backoff K)

/-- The wait without jitter. -/
def nominal (k : ℕ) : K := min (b.base * b.multiplier ^ k) b.cap

/-- The factor that a draw picks. -/
def factor (u : K) : K := 1 + b.jitter * (2 * u - 1)

/-- The wait with jitter; it is never negative. -/
def wait (k : ℕ) (u : K) : K := max 0 (b.nominal k * b.factor u)

/-- The longest that a wait can be. -/
def longest (k : ℕ) : K := (1 + b.jitter) * max 0 (b.nominal k)

/-- The longest that `n` waits can take together. -/
def worstTotal (n : ℕ) : K := ((List.range n).map b.longest).sum

/-- A wait is never negative, whatever the jitter and the draw. -/
theorem wait_nonneg (k : ℕ) (u : K) : 0 ≤ b.wait k u := le_max_left _ _

/-- Without jitter the cap is a bound; it is the factor applied afterwards that can
exceed it. -/
theorem nominal_le_cap (k : ℕ) : b.nominal k ≤ b.cap := min_le_right _ _

variable {b} [IsStrictOrderedRing K]

/-- With a draw at the right end a wait is as long as it can be. -/
theorem wait_one (hjitter : 0 ≤ b.jitter) (k : ℕ) : b.wait k 1 = b.longest k := by
  have hfactor : b.factor 1 = 1 + b.jitter := by
    unfold factor
    ring
  have hpos : 0 ≤ 1 + b.jitter := by linarith
  unfold wait longest
  rw [hfactor, mul_max_of_nonneg _ _ hpos, mul_zero, mul_comm]

section Factor

variable {u : K} (hjitter : 0 ≤ b.jitter) (h0 : 0 ≤ u) (h1 : u ≤ 1)

include hjitter h0 h1

/-- A draw from the unit interval changes a wait by at most the jitter, in either
direction. -/
theorem factor_bounds : 1 - b.jitter ≤ b.factor u ∧ b.factor u ≤ 1 + b.jitter := by
  have hleft : b.jitter * (-1) ≤ b.jitter * (2 * u - 1) :=
    mul_le_mul_of_nonneg_left (by linarith) hjitter
  have hright : b.jitter * (2 * u - 1) ≤ b.jitter * 1 :=
    mul_le_mul_of_nonneg_left (by linarith) hjitter
  unfold factor
  constructor
  · linarith
  · linarith

/-- With a jitter of at most one the factor turns no wait negative. -/
theorem factor_nonneg (hone : b.jitter ≤ 1) : 0 ≤ b.factor u := by
  have hbounds := (factor_bounds hjitter h0 h1).1
  linarith

/-- **The band.**  Jitter moves a wait by at most its share of the nominal one. -/
theorem wait_band (hone : b.jitter ≤ 1) {k : ℕ} (hnominal : 0 ≤ b.nominal k) :
    (1 - b.jitter) * b.nominal k ≤ b.wait k u ∧
      b.wait k u ≤ (1 + b.jitter) * b.nominal k := by
  obtain ⟨hleft, hright⟩ := factor_bounds hjitter h0 h1
  have hwait : b.wait k u = b.nominal k * b.factor u :=
    max_eq_right (mul_nonneg hnominal (factor_nonneg hjitter h0 h1 hone))
  rw [hwait, mul_comm (b.nominal k)]
  exact ⟨mul_le_mul_of_nonneg_right hleft hnominal,
    mul_le_mul_of_nonneg_right hright hnominal⟩

/-- No draw makes a wait longer than its longest. -/
theorem wait_le_longest (hone : b.jitter ≤ 1) (k : ℕ) : b.wait k u ≤ b.longest k := by
  obtain ⟨-, hright⟩ := factor_bounds hjitter h0 h1
  have hfactor := factor_nonneg hjitter h0 h1 hone
  have hpositive : 0 ≤ max 0 (b.nominal k) := le_max_left _ _
  unfold wait longest
  apply max_le
  · exact mul_nonneg (by linarith) hpositive
  · calc b.nominal k * b.factor u
        ≤ max 0 (b.nominal k) * b.factor u :=
          mul_le_mul_of_nonneg_right (le_max_right _ _) hfactor
      _ = b.factor u * max 0 (b.nominal k) := mul_comm _ _
      _ ≤ (1 + b.jitter) * max 0 (b.nominal k) :=
          mul_le_mul_of_nonneg_right hright hpositive

/-- A factor of at most 1 keeps a wait below the cap. -/
theorem wait_le_cap_of_factor (hone : b.jitter ≤ 1) (hcap : 0 ≤ b.cap) (k : ℕ)
    (hfactor : b.factor u ≤ 1) : b.wait k u ≤ b.cap := by
  have hnonneg := factor_nonneg hjitter h0 h1 hone
  apply max_le hcap
  rcases le_total 0 (b.nominal k) with hpos | hneg
  · calc b.nominal k * b.factor u
        ≤ b.nominal k * 1 := mul_le_mul_of_nonneg_left hfactor hpos
      _ = b.nominal k := mul_one _
      _ ≤ b.cap := b.nominal_le_cap k
  · exact (mul_nonpos_of_nonpos_of_nonneg hneg hnonneg).trans hcap

/-- **Below the cap.**  A wait is at most the cap exactly when there is no
jitter, the cap is zero, the draw does not lengthen the wait, or the lengthened
exponential is below the cap by itself. -/
theorem wait_le_cap_iff (hone : b.jitter ≤ 1) (hcap : 0 ≤ b.cap) (k : ℕ) :
    b.wait k u ≤ b.cap ↔
      b.jitter = 0 ∨ b.cap = 0 ∨ 2 * u ≤ 1 ∨
        b.base * b.multiplier ^ k * b.factor u ≤ b.cap := by
  have hnonneg := factor_nonneg hjitter h0 h1 hone
  have hmin : b.nominal k * b.factor u =
      min (b.base * b.multiplier ^ k * b.factor u) (b.cap * b.factor u) :=
    min_mul_of_nonneg _ _ hnonneg
  constructor
  · intro hwait
    have hle : b.nominal k * b.factor u ≤ b.cap := (le_max_right _ _).trans hwait
    rw [hmin, min_le_iff] at hle
    rcases hle with hexponential | hcapped
    · exact Or.inr (Or.inr (Or.inr hexponential))
    · by_contra hnone
      push Not at hnone
      obtain ⟨hj, hc, hu, -⟩ := hnone
      have hlonger : 1 < b.factor u := by
        have hproduct : 0 < b.jitter * (2 * u - 1) :=
          mul_pos (lt_of_le_of_ne hjitter (Ne.symm hj)) (by linarith)
        unfold factor
        linarith
      have hcap' : 0 < b.cap := lt_of_le_of_ne hcap (Ne.symm hc)
      have hbeyond : b.cap * 1 < b.cap * b.factor u := mul_lt_mul_of_pos_left hlonger hcap'
      linarith
  · rintro (hj | hc | hu | hexponential)
    · apply wait_le_cap_of_factor hjitter h0 h1 hone hcap
      simp [factor, hj]
    · have hzero : b.nominal k ≤ 0 := hc ▸ b.nominal_le_cap k
      exact max_le hcap
        ((mul_nonpos_of_nonpos_of_nonneg hzero hnonneg).trans hcap)
    · apply wait_le_cap_of_factor hjitter h0 h1 hone hcap
      have hproduct : b.jitter * (2 * u - 1) ≤ 0 :=
        mul_nonpos_of_nonneg_of_nonpos hjitter (by linarith)
      unfold factor
      linarith
    · apply max_le hcap
      rw [hmin]
      exact (min_le_left _ _).trans hexponential

end Factor

/-- With positive parameters there is a wait before every attempt. -/
theorem nominal_pos (hbase : 0 < b.base) (hmultiplier : 0 < b.multiplier)
    (hcap : 0 < b.cap) (k : ℕ) : 0 < b.nominal k :=
  lt_min (mul_pos hbase (pow_pos hmultiplier k)) hcap

/-- **Growth.**  If the bands of two consecutive exponentials do not meet, the
later wait is strictly longer, whatever the draws, as long as it is not capped. -/
theorem wait_lt_wait (hbase : 0 < b.base) (hmultiplier : 0 < b.multiplier)
    (hcap : 0 < b.cap) (hjitter : 0 ≤ b.jitter) (hone : b.jitter ≤ 1)
    (hapart : 1 + b.jitter < b.multiplier * (1 - b.jitter)) {k : ℕ}
    (huncapped : b.base * b.multiplier ^ (k + 1) ≤ b.cap) {u v : K}
    (hu : 0 ≤ u ∧ u ≤ 1) (hv : 0 ≤ v ∧ v ≤ 1) : b.wait k u < b.wait (k + 1) v := by
  have hthis := (wait_band hjitter hu.1 hu.2 hone (nominal_pos hbase hmultiplier hcap k).le).2
  have hnext := (wait_band hjitter hv.1 hv.2 hone
    (nominal_pos hbase hmultiplier hcap (k + 1)).le).1
  have hexact : b.nominal (k + 1) = b.base * b.multiplier ^ (k + 1) :=
    min_eq_left huncapped
  have hexponential : 0 < b.base * b.multiplier ^ k := mul_pos hbase (pow_pos hmultiplier k)
  calc b.wait k u
      ≤ (1 + b.jitter) * b.nominal k := hthis
    _ ≤ (1 + b.jitter) * (b.base * b.multiplier ^ k) :=
        mul_le_mul_of_nonneg_left (min_le_left _ _) (by linarith)
    _ < b.multiplier * (1 - b.jitter) * (b.base * b.multiplier ^ k) :=
        mul_lt_mul_of_pos_right hapart hexponential
    _ = (1 - b.jitter) * b.nominal (k + 1) := by
        rw [hexact, pow_succ]
        ring
    _ ≤ b.wait (k + 1) v := hnext

/-- The longest wait is not negative, so more waits never take less time. -/
theorem longest_nonneg (hjitter : 0 ≤ b.jitter) (k : ℕ) : 0 ≤ b.longest k :=
  mul_nonneg (by linarith) (le_max_left _ _)

/-- More waits can take more time, never less. -/
theorem worstTotal_mono (hjitter : 0 ≤ b.jitter) {m n : ℕ} (h : m ≤ n) :
    b.worstTotal m ≤ b.worstTotal n := by
  induction n, h using Nat.le_induction with
  | base => exact le_rfl
  | succ n _ ih =>
      unfold worstTotal at ih ⊢
      rw [List.range_succ, List.map_append, List.sum_append]
      have hlast := longest_nonneg hjitter n
      simp only [List.map_cons, List.map_nil, List.sum_singleton]
      linarith

/-- The first `n` waits sum to at most their worst case. -/
theorem sum_wait_le (hjitter : 0 ≤ b.jitter) (hone : b.jitter ≤ 1) {u : ℕ → K}
    (hu : ∀ k, 0 ≤ u k ∧ u k ≤ 1) (n : ℕ) :
    ((List.range n).map fun k => b.wait k (u k)).sum ≤ b.worstTotal n := by
  unfold worstTotal
  apply List.sum_le_sum
  intro k _
  exact wait_le_longest hjitter (hu k).1 (hu k).2 hone k

end Backoff

import Mathlib.Algebra.Ring.Int.Defs
import OrderPipeline.Foundation.PyText

/-!
# Integers as decimal text

`str` of an integer and its way back: `intOf?` reads digits with an optional minus
sign, and `intOf?_toString` says that it recovers what was printed.  So different
integers have different texts (`toString_injective`).
-/

namespace PyStr

/-- The number that a sequence of digits denotes. -/
def natOf? (cs : List Char) : Option ℕ :=
  if cs ≠ [] ∧ cs.all Char.isDigit then some (Nat.ofDigitChars 10 cs 0) else none

/-- Digits with an optional minus sign. -/
def intOfChars? : List Char → Option ℤ
  | '-' :: digits => (natOf? digits).map fun (n : ℕ) => -(n : ℤ)
  | digits => (natOf? digits).map fun (n : ℕ) => (n : ℤ)

/-- The integer that a decimal text denotes. -/
def intOf? (s : PyStr) : Option ℤ := (s.mapM toChar?).bind intOfChars?

/-- What is written for a natural number is read back as that number. -/
theorem natOf?_toDigits (n : ℕ) : natOf? (Nat.toDigits 10 n) = some n := by
  have hdigits : (Nat.toDigits 10 n).all Char.isDigit = true := by
    rw [List.all_eq_true]
    intro c hc
    exact Nat.isDigit_of_mem_toDigits (by decide) (by decide) hc
  unfold natOf?
  rw [if_pos ⟨Nat.toDigits_ne_nil, hdigits⟩, Nat.ofDigitChars_ten_toDigits]

/-- The same for an integer that is not negative: there is no sign in front. -/
theorem intOfChars?_toDigits (n : ℕ) : intOfChars? (Nat.toDigits 10 n) = some (n : ℤ) := by
  unfold intOfChars?
  split
  · next digits heq =>
    -- no digit is a minus sign
    have hdigit : '-'.isDigit = true := Nat.isDigit_of_mem_toDigits (n := n) (b := 10)
      (by decide) (by decide) (heq ▸ List.mem_cons_self)
    exact absurd hdigit (by decide)
  · rw [natOf?_toDigits, Option.map_some]

/-- Printing an integer and reading the text gives it back. -/
theorem intOf?_toString (n : ℤ) : intOf? (ofString (toString n)) = some n := by
  have hrepr : toString n = n.repr := rfl
  unfold intOf? ofString
  rw [mapM_toChar?_ofChar, Option.bind_some, hrepr, Int.repr_eq_if]
  split
  · next hn =>
    rw [Nat.toList_repr, intOfChars?_toDigits, Int.toNat_of_nonneg hn]
  · next hn =>
    have hneg : ((-n).toNat : ℤ) = -n := Int.toNat_of_nonneg (by omega)
    rw [String.toList_append, Nat.toList_repr]
    show (natOf? (Nat.toDigits 10 (-n).toNat)).map (fun (k : ℕ) => -(k : ℤ)) = some n
    rw [natOf?_toDigits, Option.map_some, hneg, neg_neg]

/-- Different integers print differently. -/
theorem toString_injective {m n : ℤ} (h : toString m = toString n) : m = n := by
  have hread := intOf?_toString m
  rw [h, intOf?_toString n] at hread
  exact (Option.some.inj hread).symm

/-- The text of an integer is never empty. -/
theorem toString_int_ne_empty (n : ℤ) : toString n ≠ "" := by
  intro hempty
  have hread := intOf?_toString n
  rw [hempty] at hread
  cases hread

end PyStr

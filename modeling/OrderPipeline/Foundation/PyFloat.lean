import Mathlib.Algebra.Order.Field.Rat
import Mathlib.Algebra.Order.Floor.Semifield
import Mathlib.Data.Int.Log
import Mathlib.Data.Rat.Floor
import Mathlib.Tactic.Common

/-!
# Python floats with exact finite values

A float is a rational number, an infinity or NaN.  Finite results are exact,
so rounding is not modelled; the special values follow IEEE 754 and Python's
comparison rules: every comparison with NaN is false, `min` and `max` keep
their first argument unless the second one is strictly better, and `**`
raises `OverflowError` when the exact power lies outside the binary64 range.
The two zeros are one value.

The second half is Python's `repr`, the shortest decimal that reads back as
the same binary64 number, and the format `.2f`.
-/

/-- A Python float. -/
inductive PyFloat
  | finite (q : ℚ)
  | posInf
  | negInf
  | nan
  deriving DecidableEq, Repr

namespace PyFloat

instance : Inhabited PyFloat := ⟨finite 0⟩

/-- Change of sign. -/
def neg : PyFloat → PyFloat
  | finite q => finite (-q)
  | posInf => negInf
  | negInf => posInf
  | nan => nan

/-- Python's `x + y`. -/
def add : PyFloat → PyFloat → PyFloat
  | finite a, finite b => finite (a + b)
  | nan, _ => nan
  | _, nan => nan
  | posInf, negInf => nan
  | negInf, posInf => nan
  | posInf, _ => posInf
  | _, posInf => posInf
  | negInf, _ => negInf
  | _, negInf => negInf

/-- Python's `x - y`. -/
def sub (x y : PyFloat) : PyFloat := add x (neg y)

/-- Python's `x * y`. -/
def mul : PyFloat → PyFloat → PyFloat
  | finite a, finite b => finite (a * b)
  | nan, _ => nan
  | _, nan => nan
  | finite a, y => if a = 0 then nan else if 0 < a then y else neg y
  | x, finite b => if b = 0 then nan else if 0 < b then x else neg x
  | posInf, y => y
  | negInf, y => neg y

/-- Python's `x / n` for a positive integer `n`. -/
def divNat : PyFloat → ℕ → PyFloat
  | finite q, n => finite (q / n)
  | x, _ => x

/-- Python's `x < y`. -/
def lt : PyFloat → PyFloat → Bool
  | finite a, finite b => decide (a < b)
  | nan, _ => false
  | _, nan => false
  | posInf, _ => false
  | _, negInf => false
  | _, _ => true

/-- Python's `x <= y`. -/
def le : PyFloat → PyFloat → Bool
  | finite a, finite b => decide (a ≤ b)
  | nan, _ => false
  | _, nan => false
  | negInf, _ => true
  | _, posInf => true
  | _, _ => false

/-- Python's `min(x, y)`. -/
def min (x y : PyFloat) : PyFloat := if lt y x then y else x

/-- Python's `max(x, y)`. -/
def max (x y : PyFloat) : PyFloat := if lt x y then y else x

/-- The least magnitude that rounds outside the binary64 range. -/
def binary64Limit : ℚ := 2 ^ 1024 - 2 ^ 970

/-- Python's `x ** n` for an integer `n >= 0`; `none` is `OverflowError`. -/
def pow : PyFloat → ℕ → Option PyFloat
  | finite q, n => if |q ^ n| < binary64Limit then some (finite (q ^ n)) else none
  | _, 0 => some (finite 1)
  | posInf, _ => some posInf
  | negInf, n => some (if n % 2 = 0 then posInf else negInf)
  | nan, _ => some nan

/-- The truth value of a float: everything but zero is true. -/
def truthy (x : PyFloat) : Bool := x ≠ finite 0

/-- `random.uniform(a, b)` when `random()` draws `u`. -/
def uniform (a b : PyFloat) (u : ℚ) : PyFloat :=
  add a (mul (sub b a) (finite u))

@[simp] theorem add_finite (a b : ℚ) : add (finite a) (finite b) = finite (a + b) := rfl

@[simp] theorem sub_finite (a b : ℚ) : sub (finite a) (finite b) = finite (a - b) := by
  simp [sub, neg, sub_eq_add_neg]

@[simp] theorem mul_finite (a b : ℚ) : mul (finite a) (finite b) = finite (a * b) := rfl

@[simp] theorem divNat_finite (q : ℚ) (n : ℕ) : divNat (finite q) n = finite (q / n) := rfl

@[simp] theorem lt_finite (a b : ℚ) : lt (finite a) (finite b) = decide (a < b) := rfl

@[simp] theorem le_finite (a b : ℚ) : le (finite a) (finite b) = decide (a ≤ b) := rfl

@[simp] theorem min_finite (a b : ℚ) :
    min (finite a) (finite b) = finite (a ⊓ b) := by
  by_cases h : b < a
  · simp [min, h, inf_eq_right.mpr h.le]
  · simp [min, h, inf_eq_left.mpr (not_lt.mp h)]

@[simp] theorem max_finite (a b : ℚ) :
    max (finite a) (finite b) = finite (a ⊔ b) := by
  by_cases h : a < b
  · simp [max, h, sup_eq_right.mpr h.le]
  · simp [max, h, sup_eq_left.mpr (not_lt.mp h)]

/-- A sum with NaN or an infinity is never finite again. -/
theorem add_finite_iff {x y : PyFloat} :
    (∃ q, add x y = finite q) ↔ (∃ a, x = finite a) ∧ ∃ b, y = finite b := by
  cases x <;> cases y <;> simp [add]

/-- The powers of two up to the largest exponent do not overflow. -/
theorem two_pow_lt_limit {n : ℕ} (h : n < 1024) : (2 : ℚ) ^ n < binary64Limit := by
  have hlast : (2 : ℚ) ^ 1024 = 2 ^ 1023 + 2 ^ 1023 := by
    rw [pow_succ, mul_two]
  have hhalf : (2 : ℚ) ^ 970 < 2 ^ 1023 := pow_lt_pow_right₀ (by decide +kernel) (by decide)
  have hle : (2 : ℚ) ^ n ≤ 2 ^ 1023 := pow_le_pow_right₀ (by decide +kernel) (by omega)
  unfold binary64Limit
  rw [hlast, lt_sub_iff_add_lt]
  exact add_lt_add_of_le_of_lt hle hhalf

/-- The powers of two overflow from the exponent 1024 on. -/
theorem pow_two_eq_none_iff (n : ℕ) : pow (finite 2) n = none ↔ 1024 ≤ n := by
  have habs : |(2 : ℚ) ^ n| = 2 ^ n := abs_of_pos (pow_pos (by decide +kernel) n)
  simp only [pow, habs]
  split
  · next hlt =>
    refine iff_of_false (by simp) ?_
    intro hn
    have hle : (2 : ℚ) ^ 1024 ≤ 2 ^ n := pow_le_pow_right₀ (by decide +kernel) hn
    have hlimit : binary64Limit < (2 : ℚ) ^ 1024 :=
      sub_lt_self _ (pow_pos (by decide +kernel) 970)
    exact absurd (hlimit.trans_le hle) (not_lt.mpr hlt.le)
  · next hge =>
    refine iff_of_true rfl ?_
    by_contra hn
    exact hge (two_pow_lt_limit (not_le.mp hn))

/-! ## Text -/

/-- Round to an integer, ties to even. -/
def roundHalfEven (x : ℚ) : ℤ :=
  if x - ⌊x⌋ < 1 / 2 then ⌊x⌋
  else if 1 / 2 < x - ⌊x⌋ then ⌊x⌋ + 1
  else if ⌊x⌋ % 2 = 0 then ⌊x⌋ else ⌊x⌋ + 1

/-- The binary64 number nearest to `q`, ties to even. -/
def nearestBinary64 (q : ℚ) : ℚ :=
  if q = 0 then 0 else
    let ulp : ℚ := 2 ^ (Max.max (Int.log 2 |q|) (-1022) - 52)
    roundHalfEven (q / ulp) * ulp

/-- The first `n` significant decimal digits of a positive number, correctly
rounded, and the decimal exponent of the first one. -/
def decimalDigits (n : ℕ) (q : ℚ) : ℕ × ℤ :=
  let e := Int.log 10 q
  let d := (roundHalfEven (q / 10 ^ (e - n + 1))).toNat
  if d = 10 ^ n then (10 ^ (n - 1), e + 1) else (d, e)

/-- The shortest digits that read back as the positive binary64 number `q`.
At a power of two the nearest decimal of that length may not read back while
its neighbour does. -/
def shortestDigits (q : ℚ) : ℕ × ℤ :=
  let readBack (n : ℕ) : Option (ℕ × ℤ) :=
    let p := decimalDigits n q
    [(p.1, p.2), (p.1 + 1, p.2), (p.1 - 1, p.2)].find? fun c =>
      nearestBinary64 (c.1 * 10 ^ (c.2 - n + 1)) = q
  ((List.range' 1 17).findSome? readBack).getD (decimalDigits 17 q)

/-- The layout of `repr`: positional between `1e-4` and `1e16`, scientific
outside. -/
def layout (digits : ℕ) (exponent : ℤ) : String :=
  let ds := (toString digits).toList
  let zeros (n : ℤ) : List Char := List.replicate n.toNat '0'
  let point := exponent + 1
  if -4 < point ∧ point ≤ 16 then
    String.ofList <|
      if point ≤ 0 then '0' :: '.' :: (zeros (-point) ++ ds)
      else if (ds.length : ℤ) ≤ point then ds ++ zeros (point - ds.length) ++ ['.', '0']
      else ds.take point.toNat ++ '.' :: ds.drop point.toNat
  else
    let tail := ds.drop 1
    let mantissa := ds.take 1 ++ if tail = [] then [] else '.' :: tail
    let power := (toString exponent.natAbs).toList
    String.ofList (mantissa ++ ['e', if exponent < 0 then '-' else '+'] ++
      zeros (2 - power.length) ++ power)

/-- Python's `repr(x)`, which is also `str(x)` and `format(x, "")`. -/
def repr : PyFloat → String
  | finite q =>
      if q = 0 then "0.0"
      else
        let p := shortestDigits |q|
        (if q < 0 then "-" else "") ++ layout p.1 p.2
  | posInf => "inf"
  | negInf => "-inf"
  | nan => "nan"

/-- Python's `format(x, ".2f")`. -/
def fixed2 : PyFloat → String
  | finite q =>
      let hundredths := (roundHalfEven (|q| * 100)).toNat
      (if q < 0 then "-" else "") ++ toString (hundredths / 100) ++ "." ++
        toString (hundredths / 10 % 10) ++ toString (hundredths % 10)
  | posInf => "inf"
  | negInf => "-inf"
  | nan => "nan"

end PyFloat

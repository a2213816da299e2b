import OrderPipeline.Foundation.JsonGrammar
import OrderPipeline.Foundation.ShortestDecimal

/-!
# The text of a float as a JSON number

`layout` spells its digits as a number of the JSON grammar, positional or
scientific, with the value that the digits and the exponent stand for
(`layout_spells`).  So the `repr` of a binary64 number is a JSON number that
rounds to it (`repr_numeral`).
-/

namespace PyFloat

open JsonText

/-! ## Digits -/

/-- The decimal digits of a natural number are read back as that number. -/
theorem natOf_toDigits (d : ℕ) : natOf (Nat.toDigits 10 d) = d := Nat.ofDigitChars_ten_toDigits

/-- They are digits, and there is at least one. -/
theorem digits_toDigits (d : ℕ) : Digits (Nat.toDigits 10 d) := by
  refine ⟨Nat.toDigits_ne_nil, ?_⟩
  intro c hc
  exact Nat.isDigit_of_mem_toDigits (by decide) (by decide) hc

/-- A positive number has no leading zero. -/
theorem head_toDigits {d : ℕ} (hd : 0 < d) : (Nat.toDigits 10 d).head? ≠ some '0' := by
  induction d using Nat.base_induction 10 (by decide) with
  | single m hm =>
      rw [Nat.toDigits_of_lt_base hm]
      have hdigits : ∀ m < 10, 0 < m → m.digitChar ≠ '0' := by decide
      intro heq
      exact hdigits m hm hd (Option.some.inj heq)
  | digit m k hk hm ih =>
      rw [← Nat.toDigits_append_toDigits (by decide) hm hk,
        List.head?_append_of_ne_nil _ Nat.toDigits_ne_nil]
      exact ih hm

/-- The length of digits, from the power of ten below their number. -/
theorem length_toDigits {n d : ℕ} (hn : 1 ≤ n) (hlow : 10 ^ (n - 1) ≤ d) (hhigh : d < 10 ^ n) :
    (Nat.toDigits 10 d).length = n := by
  have hle : (Nat.toDigits 10 d).length ≤ n :=
    (Nat.length_toDigits_le_iff (by decide) hn).mpr hhigh
  rcases Nat.lt_or_ge 1 n with hlt | hone
  · have hge : ¬(Nat.toDigits 10 d).length ≤ n - 1 := by
      rw [Nat.length_toDigits_le_iff (by decide) (by omega)]
      omega
    omega
  · have hpos := Nat.length_toDigits_pos (b := 10) (n := d)
    omega

/-- Zeros in front do not count. -/
theorem natOf_zeros_append (k : ℕ) (ds : List Char) :
    natOf (List.replicate k '0' ++ ds) = natOf ds := by
  rw [natOf, Nat.ofDigitChars_append, Nat.ofDigitChars_replicate_zero, Nat.mul_zero]
  rfl

/-- Each zero at the end multiplies by ten. -/
theorem natOf_append_zeros (ds : List Char) (k : ℕ) :
    natOf (ds ++ List.replicate k '0') = 10 ^ k * natOf ds := by
  rw [natOf, Nat.ofDigitChars_append, Nat.ofDigitChars_replicate_zero]
  rfl

/-- Digits with more digits behind them. -/
theorem digits_append {ds ds' : List Char} (h : Digits ds)
    (h' : ∀ c ∈ ds', c.isDigit = true) : Digits (ds ++ ds') := by
  refine ⟨List.append_ne_nil_of_left_ne_nil h.1 _, ?_⟩
  intro c hc
  rcases List.mem_append.mp hc with hc | hc
  · exact h.2 c hc
  · exact h' c hc

theorem digits_zero : Digits ['0'] := by
  refine ⟨List.cons_ne_nil _ _, ?_⟩
  intro c hc
  obtain rfl := List.mem_singleton.mp hc
  rfl

/-- The zeros that pad a number are digits. -/
theorem isDigit_of_mem_zeros {k : ℕ} {c : Char} (h : c ∈ List.replicate k '0') :
    c.isDigit = true := by
  obtain rfl := List.eq_of_mem_replicate h
  rfl

/-- Digits with zeros in front of them. -/
theorem digits_zeros_append (k : ℕ) {ds : List Char} (h : Digits ds) :
    Digits (List.replicate k '0' ++ ds) := by
  refine ⟨List.append_ne_nil_of_right_ne_nil _ h.1, ?_⟩
  intro c hc
  rcases List.mem_append.mp hc with hc | hc
  · exact isDigit_of_mem_zeros hc
  · exact h.2 c hc

/-- The integer part of a float's digits, cut off where the point goes. -/
theorem digits_take {ds : List Char} (h : Digits ds) {k : ℕ} (hk : 0 < k) :
    Digits (ds.take k) := by
  refine ⟨?_, fun c hc => h.2 c (List.mem_of_mem_take hc)⟩
  rw [← List.length_pos_iff, List.length_take]
  have hpos := List.length_pos_of_ne_nil h.1
  omega

/-- Nor has an initial part of its digits. -/
theorem head_take_toDigits {d k : ℕ} (hd : 0 < d) (hk : 0 < k) :
    ((Nat.toDigits 10 d).take k).head? ≠ some '0' := by
  rw [List.head?_take, if_neg hk.ne']
  exact head_toDigits hd

/-! ## The layout -/

/-- `text` is a number of the grammar, after an optional minus sign, with the value
of `digits` whose first one stands at `exponent`. -/
def Spells (text : List Char) (digits : ℕ) (exponent : ℤ) : Prop :=
  ∀ negative : Bool, ∃ m : Numeral,
    m.text = (if negative then ['-'] else []) ++ text ∧
      m.value = (if negative then -1 else 1) *
        digitsValue (Nat.toDigits 10 digits).length (digits, exponent)

/-- Digits with a point among or around them and no exponent. -/
theorem spells_positional {int frac : List Char} {d : ℕ} {e : ℤ} (hint : Digits int)
    (hzero : int.head? = some '0' → int = ['0']) (hfrac : Digits frac)
    (hvalue : (natOf (int ++ frac) : ℚ) * 10 ^ (-(frac.length : ℤ)) =
      digitsValue (Nat.toDigits 10 d).length (d, e)) :
    Spells (int ++ '.' :: frac) d e := by
  intro negative
  refine ⟨
    { negative := negative
      int := int
      frac := frac
      exponent := none
      int_ok := hint
      int_zero := hzero
      frac_ok := hfrac.2 }, ?_, ?_⟩
  · simp [Numeral.text, fracText, hfrac.1, exponentText]
  · rw [← hvalue, Numeral.value, decimal, exponentValue, zero_sub, mul_assoc]

/-- `0.000ddd`. -/
theorem spells_small {d : ℕ} {e : ℤ} (he : e + 1 ≤ 0) :
    Spells ('0' :: '.' :: (List.replicate (-(e + 1)).toNat '0' ++ Nat.toDigits 10 d)) d e := by
  have hfrac := digits_zeros_append (-(e + 1)).toNat (digits_toDigits d)
  apply spells_positional digits_zero (fun _ => rfl) hfrac
  have hnat : natOf (['0'] ++ (List.replicate (-(e + 1)).toNat '0' ++ Nat.toDigits 10 d)) = d := by
    rw [show ['0'] = List.replicate 1 '0' from rfl, natOf_zeros_append, natOf_zeros_append,
      natOf_toDigits]
  rw [hnat, digitsValue, List.length_append, List.length_replicate]
  congr 2
  push_cast
  omega

/-- `ddd000.0`: the digits reach up to the point or not, and the zeros fill what is
missing. -/
theorem spells_large {d : ℕ} (hd : 0 < d) {e : ℤ}
    (he : ((Nat.toDigits 10 d).length : ℤ) ≤ e + 1) :
    Spells (Nat.toDigits 10 d ++
      List.replicate (e + 1 - (Nat.toDigits 10 d).length).toNat '0' ++ ['.', '0']) d e := by
  generalize hk : (e + 1 - (Nat.toDigits 10 d).length).toNat = k
  have hint : Digits (Nat.toDigits 10 d ++ List.replicate k '0') :=
    digits_append (digits_toDigits d) fun c hc => isDigit_of_mem_zeros hc
  rw [show ['.', '0'] = '.' :: ['0'] from rfl]
  apply spells_positional hint ?_ digits_zero ?_
  · intro hhead
    rw [List.head?_append_of_ne_nil _ Nat.toDigits_ne_nil] at hhead
    exact absurd hhead (head_toDigits hd)
  · have hnat : natOf (Nat.toDigits 10 d ++ List.replicate k '0' ++ ['0']) = 10 ^ (k + 1) * d := by
      rw [List.append_assoc, show ['0'] = List.replicate 1 '0' from rfl,
        List.replicate_append_replicate, natOf_append_zeros, natOf_toDigits]
    rw [hnat, digitsValue]
    push_cast
    rw [mul_comm ((10 : ℚ) ^ (k + 1)), mul_assoc, ← zpow_natCast, ← zpow_add₀ (by norm_num)]
    congr 2
    push_cast
    simp only [List.length_singleton]
    omega

/-- `d.ddd` with the point after the digit `k`. -/
theorem spells_middle {d : ℕ} (hd : 0 < d) {e : ℤ} {k : ℕ} (hk : e + 1 = k) (hpos : 0 < k)
    (hlt : k < (Nat.toDigits 10 d).length) :
    Spells ((Nat.toDigits 10 d).take k ++ '.' :: (Nat.toDigits 10 d).drop k) d e := by
  have hdigits := digits_toDigits d
  have hfrac : Digits ((Nat.toDigits 10 d).drop k) := by
    refine ⟨?_, fun c hc => hdigits.2 c (List.mem_of_mem_drop hc)⟩
    rw [← List.length_pos_iff, List.length_drop]
    omega
  apply spells_positional (digits_take hdigits hpos) ?_ hfrac ?_
  · intro hhead
    exact absurd hhead (head_take_toDigits hd hpos)
  · rw [List.take_append_drop, natOf_toDigits, digitsValue, List.length_drop]
    congr 2
    omega

/-- The exponent `e`, its digits padded with zeros. -/
def scientificExponent (e : ℤ) (zeros : ℕ) : Exponent where
  letter := 'e'
  sign := some (if e < 0 then '-' else '+')
  digits := List.replicate zeros '0' ++ Nat.toDigits 10 e.natAbs
  letter_ok := Or.inl rfl
  sign_ok := by
    intro c hc
    obtain rfl := Option.some.inj hc
    split
    · exact Or.inr rfl
    · exact Or.inl rfl
  digits_ok := digits_zeros_append zeros (digits_toDigits _)

/-- The exponent written with its sign and two digits at least is read back as the
exponent. -/
theorem scientificExponent_value (e : ℤ) (zeros : ℕ) :
    (scientificExponent e zeros).value = e := by
  have hnat : natOf (scientificExponent e zeros).digits = e.natAbs := by
    show natOf (List.replicate zeros '0' ++ Nat.toDigits 10 e.natAbs) = _
    rw [natOf_zeros_append, natOf_toDigits]
  have hsign : (scientificExponent e zeros).sign = some '-' ↔ e < 0 := by
    show some (if e < 0 then '-' else '+') = some '-' ↔ e < 0
    split <;> simp_all
  rw [Exponent.value, hnat]
  split
  · next h =>
    have := hsign.mp h
    omega
  · next h =>
    have := mt hsign.mpr h
    omega

/-- Scientific notation, `d.ddde+xx`: one digit before the point, and no point if there
is no other digit. -/
theorem spells_scientific {d : ℕ} (hd : 0 < d) (e : ℤ) (zeros : ℕ) :
    Spells ((Nat.toDigits 10 d).take 1 ++ fracText ((Nat.toDigits 10 d).drop 1) ++
      (scientificExponent e zeros).text) d e := by
  intro negative
  have hdigits := digits_toDigits d
  have hlength := Nat.length_toDigits_pos (b := 10) (n := d)
  refine ⟨
    { negative := negative
      int := (Nat.toDigits 10 d).take 1
      frac := (Nat.toDigits 10 d).drop 1
      exponent := some (scientificExponent e zeros)
      int_ok := digits_take hdigits (by decide)
      int_zero := fun hhead => absurd hhead (head_take_toDigits hd (by decide))
      frac_ok := fun c hc => hdigits.2 c (List.mem_of_mem_drop hc) }, ?_, ?_⟩
  · simp [Numeral.text, exponentText]
  · have hexponent : exponentValue (some (scientificExponent e zeros)) = e :=
      scientificExponent_value e zeros
    rw [Numeral.value, hexponent, decimal, List.take_append_drop, natOf_toDigits, digitsValue,
      List.length_drop, mul_assoc]
    congr 3
    omega

/-- **The layout is a JSON number** with the value of its digits. -/
theorem layout_spells {d : ℕ} (hd : 0 < d) (e : ℤ) : Spells (layout d e).toList d e := by
  have hds : (toString d).toList = Nat.toDigits 10 d := Nat.toList_repr
  have hpower : (toString e.natAbs).toList = Nat.toDigits 10 e.natAbs := Nat.toList_repr
  unfold layout
  simp only [hds, hpower]
  split
  · next hpoint =>
    rw [String.toList_ofList]
    split
    · next hsmall => exact spells_small hsmall
    · next hpositive =>
      split
      · next hlarge => exact spells_large hd hlarge
      · next hmiddle => exact spells_middle hd (by omega) (by omega) (by omega)
  · rw [String.toList_ofList]
    have hscientific := spells_scientific hd e (2 - ((Nat.toDigits 10 e.natAbs).length : ℤ)).toNat
    simpa [fracText, Exponent.text, scientificExponent] using hscientific

/-! ## `repr` -/

/-- **`repr` of a binary64 number is a JSON number that is read as it.** The shortest
digits read back by their definition; what is shown here is that no layout changes their
value. -/
theorem repr_numeral {q : ℚ} (h : IsBinary64 q) :
    ∃ m : Numeral, m.text = (repr (finite q)).toList ∧ ofDecimal m.value = finite q := by
  rcases eq_or_ne q 0 with rfl | hne
  · refine ⟨
      { negative := false
        int := ['0']
        frac := ['0']
        exponent := none
        int_ok := digits_zero
        int_zero := fun _ => rfl
        frac_ok := digits_zero.2 }, by decide, ?_⟩
    rw [Numeral.value, decimal, show natOf (['0'] ++ ['0']) = 0 from rfl, Nat.cast_zero,
      mul_zero, zero_mul, ofDecimal_zero]
  · have hpos : 0 < |q| := abs_pos.mpr hne
    obtain ⟨n, hn, hlow, hhigh, hreads⟩ := shortestDigits_spec h.abs hpos
    have hd : 0 < (shortestDigits |q|).1 := lt_of_lt_of_le (by positivity) hlow
    have hx : 0 < digitsValue n (shortestDigits |q|) :=
      mul_pos (by exact_mod_cast hd) (zpow_pos (by norm_num) _)
    obtain ⟨hplus, hminus⟩ := ofDecimal_of_rounds h.abs hx hreads
    obtain ⟨m, htext, hvalue⟩ := layout_spells hd (shortestDigits |q|).2 (decide (q < 0))
    rw [length_toDigits hn hlow hhigh] at hvalue
    refine ⟨m, ?_, ?_⟩
    · rw [htext, repr, if_neg hne, String.toList_append]
      by_cases hq : q < 0 <;> simp [hq]
    · rw [hvalue]
      by_cases hq : q < 0
      · simp only [hq, decide_true, if_true]
        rw [neg_one_mul, hminus, abs_of_neg hq, neg_neg]
      · simp only [hq, decide_false, Bool.false_eq_true, if_false]
        rw [one_mul, hplus, abs_of_nonneg (not_lt.mp hq)]

end PyFloat

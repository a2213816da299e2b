import OrderPipeline.Foundation.Binary64

/-!
# The shortest digits of a binary64 number

`shortestDigits` looks for the least number of digits that read back.  For a
binary64 number it always finds some, seventeen at the latest, and the digits it
returns have the length it looked for (`shortestDigits_spec`): at the ends of the
range of a length the neighbour one up or one down is never taken.
-/

namespace PyFloat

/-- The number that `n` digits with the exponent of the first one stand for. -/
def digitsValue (n : ℕ) (c : ℕ × ℤ) : ℚ := c.1 * 10 ^ (c.2 - n + 1)

/-- What the first `n` digits of `q` are: `n` digits, within half a unit of the last
one, and a power of ten if the rounding has reached the next exponent. -/
structure FirstDigits (n : ℕ) (q : ℚ) (p : ℕ × ℤ) : Prop where
  low : 10 ^ (n - 1) ≤ p.1
  high : p.1 < 10 ^ n
  close : |digitsValue n p - q| ≤ 10 ^ (Int.log 10 q - n + 1) / 2
  exponent : p.2 = Int.log 10 q ∨ p = (10 ^ (n - 1), Int.log 10 q + 1)

/-- The leading digit stands at the decimal exponent. -/
theorem log_bounds {q : ℚ} (hq : 0 < q) :
    (10 : ℚ) ^ Int.log 10 q ≤ q ∧ q < 10 ^ (Int.log 10 q + 1) := by
  have hlow := Int.zpow_log_le_self (b := 10) (by norm_num) hq
  have hhigh := Int.lt_zpow_succ_log_self (b := 10) (by norm_num) q
  exact ⟨by exact_mod_cast hlow, by exact_mod_cast hhigh⟩

/-- Powers of ten of `k` digits in units of the `n`-th digit. -/
theorem pow_mul_unit {k n : ℕ} {e z : ℤ} (h : e + 1 + k - n = z) :
    (10 : ℚ) ^ k * 10 ^ (e - n + 1) = 10 ^ z := by
  rw [← zpow_natCast, ← zpow_add₀ (by norm_num)]
  congr 1
  omega

/-- In units of its `n`-th digit a number has `n` digits before the point. -/
theorem scaled_bounds {n : ℕ} (hn : 1 ≤ n) {q : ℚ} (hq : 0 < q) :
    ((10 ^ (n - 1) : ℤ) : ℚ) ≤ q / 10 ^ (Int.log 10 q - n + 1) ∧
      q / 10 ^ (Int.log 10 q - n + 1) < ((10 ^ n : ℤ) : ℚ) := by
  obtain ⟨hlow, hhigh⟩ := log_bounds hq
  have hunit : (0 : ℚ) < 10 ^ (Int.log 10 q - n + 1) := zpow_pos (by norm_num) _
  constructor
  · rw [le_div_iff₀ hunit]
    push_cast
    rw [pow_mul_unit (z := Int.log 10 q) (by omega)]
    exact hlow
  · rw [div_lt_iff₀ hunit]
    push_cast
    rw [pow_mul_unit (z := Int.log 10 q + 1) (by omega)]
    exact hhigh

/-- An error of half an integer is one of half a unit. -/
theorem close_of_scaled {q d unit : ℚ} (hunit : 0 < unit) (h : |q / unit - d| ≤ 1 / 2) :
    |d * unit - q| ≤ unit / 2 := by
  have hscale : d * unit - q = -((q / unit - d) * unit) := by
    rw [sub_mul, div_mul_cancel₀ _ hunit.ne']
    ring
  rw [hscale, abs_neg, abs_mul, abs_of_pos hunit]
  calc |q / unit - d| * unit
      ≤ 1 / 2 * unit := mul_le_mul_of_nonneg_right h hunit.le
    _ = unit / 2 := by ring

/-- The first digits, correctly rounded.  A rounding up to the next power of ten is one
digit more, and the exponent takes it. -/
theorem decimalDigits_spec {n : ℕ} (hn : 1 ≤ n) {q : ℚ} (hq : 0 < q) :
    FirstDigits n q (decimalDigits n q) := by
  obtain ⟨hscaledLow, hscaledHigh⟩ := scaled_bounds hn hq
  have hdef : decimalDigits n q =
      let d := (roundHalfEven (q / 10 ^ (Int.log 10 q - n + 1))).toNat
      if d = 10 ^ n then (10 ^ (n - 1), Int.log 10 q + 1) else (d, Int.log 10 q) := rfl
  generalize hlog : Int.log 10 q = e at *
  -- the scaled number has `n` digits before the point, and so has its rounding
  have hrLow := le_roundHalfEven hscaledLow
  have hrHigh := roundHalfEven_le hscaledHigh.le
  have herror := roundHalfEven_error (q / 10 ^ (e - n + 1))
  generalize roundHalfEven (q / 10 ^ (e - n + 1)) = r at *
  obtain ⟨d, rfl⟩ : ∃ d : ℕ, r = d :=
    ⟨r.toNat, (Int.toNat_of_nonneg (le_trans (by positivity) hrLow)).symm⟩
  have hclose : |(d : ℚ) * 10 ^ (e - n + 1) - q| ≤ 10 ^ (e - n + 1) / 2 :=
    close_of_scaled (zpow_pos (by norm_num) _) herror
  rw [Int.toNat_natCast] at hdef
  rw [hdef]
  by_cases hd : d = 10 ^ n
  · simp only [hd, if_true]
    refine ⟨le_rfl, Nat.pow_lt_pow_right (by decide) (by omega), ?_, Or.inr ?_⟩
    · have hcarry : digitsValue n (10 ^ (n - 1), e + 1) = d * 10 ^ (e - n + 1) := by
        unfold digitsValue
        rw [hd]
        push_cast
        rw [pow_mul_unit (z := e + 1) (by omega), pow_mul_unit (z := e + 1) (by omega)]
      rw [hcarry, hlog]
      exact hclose
    · rw [hlog]
  · simp only [hd, if_false]
    refine ⟨by exact_mod_cast hrLow, lt_of_le_of_ne (by exact_mod_cast hrHigh) hd, ?_,
      Or.inl hlog.symm⟩
    rw [hlog]
    exact hclose

/-! ## The search -/

/-- The first of three candidates of length `n` that reads back. -/
def readBack (q : ℚ) (n : ℕ) : Option (ℕ × ℤ) :=
  let p := decimalDigits n q
  [(p.1, p.2), (p.1 + 1, p.2), (p.1 - 1, p.2)].find? fun c =>
    nearestBinary64 (c.1 * 10 ^ (c.2 - n + 1)) = q

/-- The shortest digits are those of the first precision, from 1 to 17, that is read
back as the number. -/
theorem shortestDigits_eq (q : ℚ) :
    shortestDigits q =
      ((List.range' 1 17).findSome? (readBack q)).getD (decimalDigits 17 q) := rfl

/-- Digits that stand for `q` are taken first. -/
theorem readBack_of_reads {n : ℕ} {q : ℚ}
    (h : nearestBinary64 (digitsValue n (decimalDigits n q)) = q) :
    readBack q n = some (decimalDigits n q) := by
  unfold readBack
  apply List.find?_cons_of_pos
  simpa [digitsValue] using h

/-- A neighbour is taken only when the digits do not read back. -/
theorem readBack_cases {n : ℕ} {q : ℚ} {c : ℕ × ℤ} (h : readBack q n = some c) :
    nearestBinary64 (digitsValue n c) = q ∧
      (c = decimalDigits n q ∨
        nearestBinary64 (digitsValue n (decimalDigits n q)) ≠ q ∧
          (c = ((decimalDigits n q).1 + 1, (decimalDigits n q).2) ∨
            c = ((decimalDigits n q).1 - 1, (decimalDigits n q).2))) := by
  have hreads : nearestBinary64 (digitsValue n c) = q := by
    simpa [digitsValue] using List.find?_some h
  refine ⟨hreads, ?_⟩
  by_cases hfirst : nearestBinary64 (digitsValue n (decimalDigits n q)) = q
  · rw [readBack_of_reads hfirst] at h
    exact Or.inl (Option.some.inj h).symm
  · have hmem := List.mem_of_find?_eq_some h
    simp only [List.mem_cons, List.not_mem_nil, or_false] at hmem
    rcases hmem with hc | hc | hc
    · exact Or.inl hc
    · exact Or.inr ⟨hfirst, Or.inl hc⟩
    · exact Or.inr ⟨hfirst, Or.inr hc⟩

/-- Seventeen digits are enough. -/
theorem reads_seventeen {q : ℚ} (h : IsBinary64 q) (hq : 0 < q) :
    nearestBinary64 (digitsValue 17 (decimalDigits 17 q)) = q := by
  have hspec := decimalDigits_spec (n := 17) (by decide) hq
  apply nearestBinary64_of_close h hq
  refine hspec.close.trans ?_
  have hlow := (log_bounds hq).1
  have hunit : (10 : ℚ) ^ (Int.log 10 q - (17 : ℕ) + 1) = 10 ^ Int.log 10 q / 10 ^ 16 := by
    rw [← zpow_natCast (10 : ℚ) 16, ← zpow_sub₀ (by norm_num)]
    congr 1
    push_cast
    ring
  rw [hunit, div_div, mul_comm]
  exact div_le_div_of_nonneg_right hlow (by positivity)

/-- The least length that reads back, if `q` is a binary64 number.  Seventeen digits
always do, so the search ends. -/
theorem shortestDigits_found {q : ℚ} (h : IsBinary64 q) (hq : 0 < q) :
    ∃ n, 1 ≤ n ∧ readBack q n = some (shortestDigits q) ∧
      (1 < n → readBack q 1 = none) := by
  obtain ⟨c, hc⟩ : ∃ c, (List.range' 1 17).findSome? (readBack q) = some c := by
    rw [← Option.isSome_iff_exists, List.findSome?_isSome_iff]
    refine ⟨17, by decide, ?_⟩
    rw [readBack_of_reads (reads_seventeen h hq), Option.isSome_some]
  have hshortest : shortestDigits q = c := by
    rw [shortestDigits_eq, hc, Option.getD_some]
  obtain ⟨before, n, after, hsplit, hn, hbefore⟩ := List.findSome?_eq_some_iff.mp hc
  have hmem : n ∈ List.range' 1 17 := by
    rw [hsplit]
    simp
  refine ⟨n, (List.mem_range'_1.mp hmem).1, by rw [hshortest]; exact hn, ?_⟩
  intro hlt
  cases before with
  | nil =>
      have hhead : some 1 = some n := congrArg List.head? hsplit
      exact absurd (Option.some.inj hhead) (by omega)
  | cons first rest =>
      have hhead : some 1 = some first := congrArg List.head? hsplit
      obtain rfl := Option.some.inj hhead
      exact hbefore 1 List.mem_cons_self

/-! ## The length of the digits -/

/-- `q` just below a power of ten is that power in one digit. -/
theorem decimalDigits_one {q : ℚ} (hclose : |q / 10 ^ Int.log 10 q - 10| < 1 / 2) :
    decimalDigits 1 q = (1, Int.log 10 q + 1) := by
  have hround : roundHalfEven (q / 10 ^ Int.log 10 q) = 10 := by
    apply roundHalfEven_eq
    simpa using hclose
  have hexp : Int.log 10 q - (1 : ℕ) + 1 = Int.log 10 q := by
    push_cast
    ring
  unfold decimalDigits
  simp only [hexp, hround]
  rfl

/-- Negative powers compare as the positive ones, the other way round. -/
theorem mul_zpow_neg_lt {a b k l m n : ℕ} (ha : 0 < a) (hb : 0 < b)
    (h : k * b ^ n < l * a ^ m) :
    (k : ℚ) * (a : ℚ) ^ (-(m : ℤ)) < l * (b : ℚ) ^ (-(n : ℤ)) := by
  have ha' : (0 : ℚ) < (a : ℚ) ^ m := by positivity
  have hb' : (0 : ℚ) < (b : ℚ) ^ n := by positivity
  rw [zpow_neg, zpow_natCast, zpow_neg, zpow_natCast, ← div_eq_mul_inv, ← div_eq_mul_inv,
    div_lt_div_iff₀ ha' hb']
  exact_mod_cast h

/-- The powers of ten around the least subnormal number. -/
theorem subnormal_powers :
    (10 : ℚ) ^ (-324 : ℤ) < 2 ^ (-1074 : ℤ) ∧ 2 * (2 : ℚ) ^ (-1074 : ℤ) < 10 ^ (-323 : ℤ) ∧
      10 * (10 : ℚ) ^ (-323 : ℤ) < 21 * 2 ^ (-1074 : ℤ) ∧
      10 * (2 : ℚ) ^ (-1074 : ℤ) < 10 ^ (-322 : ℤ) := by
  have h₁ := mul_zpow_neg_lt (a := 10) (b := 2) (k := 1) (l := 1) (m := 324) (n := 1074)
    (by decide) (by decide) (by decide +kernel)
  have h₂ := mul_zpow_neg_lt (a := 2) (b := 10) (k := 2) (l := 1) (m := 1074) (n := 323)
    (by decide) (by decide) (by decide +kernel)
  have h₃ := mul_zpow_neg_lt (a := 10) (b := 2) (k := 10) (l := 21) (m := 323) (n := 1074)
    (by decide) (by decide) (by decide +kernel)
  have h₄ := mul_zpow_neg_lt (a := 2) (b := 10) (k := 10) (l := 1) (m := 1074) (n := 322)
    (by decide) (by decide) (by decide +kernel)
  simp only [Nat.cast_ofNat, Nat.cast_one, one_mul] at h₁ h₂ h₃ h₄
  exact ⟨h₁, h₂, h₃, h₄⟩

/-- A power of ten that rounds to a smaller number is within a twentieth of it, so a
neighbour of one digit can be told from it. -/
theorem near_of_rounds {q : ℚ} {e : ℤ} (h : IsBinary64 q) (hq : 0 < q)
    (hreads : nearestBinary64 (10 ^ e) = q) (hbelow : q < 10 ^ e) :
    10 ^ e - q < 10 ^ e / 20 := by
  have hx : (0 : ℚ) < 10 ^ e := hq.trans hbelow
  have herror := (abs_le.mp (nearestBinary64_error (10 ^ e))).2
  rw [hreads] at herror
  rcases le_or_gt (2 ^ (-1022 : ℤ)) ((10 : ℚ) ^ e) with hnormal | hsmall
  · have hulp := two_pow_mul_ulp_le hnormal
    linarith
  · have hlog : Int.log 2 ((10 : ℚ) ^ e) < -1022 := by
      rw [← Int.lt_zpow_iff_log_lt (by norm_num) hx]
      exact_mod_cast hsmall
    have hulp : ulp (10 ^ e) = 2 ^ (-1074 : ℤ) := by
      unfold ulp
      rw [abs_of_pos hx, max_eq_right hlog.le]
      norm_num
    obtain ⟨hbeyond, hlow, hhigh, hnext⟩ := subnormal_powers
    have hexp : -324 < e := by
      rw [← zpow_lt_zpow_iff_right₀ (a := (10 : ℚ)) (by norm_num)]
      exact hbeyond.trans_le ((h.least_le hq).trans hbelow.le)
    rw [hulp] at herror
    rcases (show -323 ≤ e by omega).lt_or_eq with hlarge | rfl
    · have hmono : (10 : ℚ) ^ (-322 : ℤ) ≤ 10 ^ e :=
        zpow_le_zpow_right₀ (by norm_num) (by omega)
      generalize (2 : ℚ) ^ (-1074 : ℤ) = least at *
      generalize (10 : ℚ) ^ (-322 : ℤ) = bound at *
      linarith
    · -- `1e-323` is a little more than twice the least number, and rounds to it
      have hpos : (0 : ℚ) < 2 ^ (-1074 : ℤ) := zpow_pos (by norm_num) _
      have hgrid := nearestBinary64_eq hx.ne'
      have hround :=
        (abs_le.mp (roundHalfEven_error (10 ^ (-323 : ℤ) / ulp (10 ^ (-323 : ℤ))))).2
      rw [hreads, hulp] at hgrid
      rw [hulp] at hround
      generalize (2 : ℚ) ^ (-1074 : ℤ) = least at *
      generalize (10 : ℚ) ^ (-323 : ℤ) = x at *
      generalize roundHalfEven (x / least) = r at *
      have hscaled : 2 < x / least := by rwa [lt_div_iff₀ hpos]
      have hr : (2 : ℚ) ≤ r := by
        have hlt : (1 : ℚ) < r := by linarith
        have hint : 1 < r := by exact_mod_cast hlt
        exact_mod_cast hint
      have hq2 : 2 * least ≤ q := by
        rw [hgrid]
        exact mul_le_mul_of_nonneg_right hr hpos.le
      linarith

/-- If the next power of ten reads back, it is `q` in one digit. -/
theorem decimalDigits_one_of_reads {q : ℚ} (h : IsBinary64 q) (hq : 0 < q)
    (hreads : nearestBinary64 (10 ^ (Int.log 10 q + 1)) = q) :
    decimalDigits 1 q = (1, Int.log 10 q + 1) := by
  have hten : (0 : ℚ) < 10 ^ Int.log 10 q := zpow_pos (by norm_num) _
  obtain ⟨hlow, hhigh⟩ := log_bounds hq
  have hnear := near_of_rounds h hq hreads hhigh
  rw [zpow_add_one₀ (by norm_num)] at hnear hhigh
  apply decimalDigits_one
  rw [abs_lt]
  constructor
  · rw [lt_sub_iff_add_lt, lt_div_iff₀ hten]
    linarith
  · rw [sub_lt_iff_lt_add, div_lt_iff₀ hten]
    linarith

/-- The neighbour above has no more digits: the power of ten that it would be has
been found before, as a single digit. -/
theorem succ_lt_of_reads {n : ℕ} (hn : 1 ≤ n) {q : ℚ} (h : IsBinary64 q) (hq : 0 < q)
    (hfirst : 1 < n → readBack q 1 = none)
    (hreads : nearestBinary64
      (digitsValue n ((decimalDigits n q).1 + 1, (decimalDigits n q).2)) = q) :
    (decimalDigits n q).1 + 1 < 10 ^ n := by
  have hspec := decimalDigits_spec hn hq
  by_contra hlong
  have hcarry : (decimalDigits n q).1 + 1 = 10 ^ n := by
    have := hspec.high
    omega
  have hexponent : (decimalDigits n q).2 = Int.log 10 q := by
    rcases hspec.exponent with hexp | hp
    · exact hexp
    · rw [hp] at hcarry
      obtain ⟨k, rfl⟩ : ∃ k, n = k + 1 := ⟨n - 1, by omega⟩
      rw [Nat.add_sub_cancel, pow_succ] at hcarry
      have hpos : 0 < 10 ^ k := by positivity
      omega
  have hvalue : digitsValue n ((decimalDigits n q).1 + 1, (decimalDigits n q).2) =
      10 ^ (Int.log 10 q + 1) := by
    unfold digitsValue
    simp only [hcarry, hexponent]
    push_cast
    exact pow_mul_unit (by ring)
  rw [hvalue] at hreads
  have hone := decimalDigits_one_of_reads h hq hreads
  rcases Nat.lt_or_ge 1 n with hlt | hle
  · have hsome : readBack q 1 = some (decimalDigits 1 q) := by
      apply readBack_of_reads
      rw [hone]
      convert hreads using 2
      simp [digitsValue]
    rw [hfirst hlt] at hsome
    cases hsome
  · obtain rfl : n = 1 := by omega
    rw [hone] at hexponent
    have hlog : Int.log 10 q + 1 = Int.log 10 q := hexponent
    omega

/-- The neighbour below has no fewer digits: the power of ten above it would have
read back. -/
theorem le_pred_of_reads {n : ℕ} (hn : 1 ≤ n) {q : ℚ} (h : IsBinary64 q) (hq : 0 < q)
    (hne : nearestBinary64 (digitsValue n (decimalDigits n q)) ≠ q)
    (hreads : nearestBinary64
      (digitsValue n ((decimalDigits n q).1 - 1, (decimalDigits n q).2)) = q) :
    10 ^ (n - 1) ≤ (decimalDigits n q).1 - 1 := by
  have hspec := decimalDigits_spec hn hq
  by_contra hshort
  have hpow : (decimalDigits n q).1 = 10 ^ (n - 1) := by
    have := hspec.low
    omega
  have hstep : digitsValue n ((decimalDigits n q).1 - 1, (decimalDigits n q).2) =
      digitsValue n (decimalDigits n q) - 10 ^ ((decimalDigits n q).2 - n + 1) := by
    have hpos : 1 ≤ (decimalDigits n q).1 := by
      rw [hpow]
      exact Nat.one_le_pow _ _ (by decide)
    unfold digitsValue
    push_cast [hpos]
    ring
  have hx : 0 < digitsValue n ((decimalDigits n q).1 - 1, (decimalDigits n q).2) := by
    rcases Nat.eq_zero_or_pos ((decimalDigits n q).1 - 1) with hzero | hpos
    · rw [digitsValue, hzero, Nat.cast_zero, zero_mul, nearestBinary64_zero] at hreads
      exact absurd hreads hq.ne
    · exact mul_pos (by exact_mod_cast hpos) (zpow_pos (by norm_num) _)
  rcases hspec.exponent with hexp | hp
  · -- the power of ten lies between the neighbour and `q`
    have hvalue : digitsValue n (decimalDigits n q) = 10 ^ Int.log 10 q := by
      unfold digitsValue
      rw [hpow, hexp]
      push_cast
      exact pow_mul_unit (by omega)
    apply hne
    apply nearestBinary64_between h hx hreads
    · rw [hstep]
      exact sub_le_self _ (zpow_pos (by norm_num) _).le
    · rw [hvalue]
      exact (log_bounds hq).1
  · -- the power of ten is above `q`, but far nearer than the neighbour
    have hclose := hspec.close
    have hunit : (0 : ℚ) < 10 ^ (Int.log 10 q - n + 1) := zpow_pos (by norm_num) _
    have hten : (10 : ℚ) ^ ((decimalDigits n q).2 - n + 1) =
        10 * 10 ^ (Int.log 10 q - n + 1) := by
      rw [hp, ← zpow_one_add₀ (by norm_num)]
      congr 1
      ring
    have habove : q ≤ digitsValue n (decimalDigits n q) := by
      have hvalue : digitsValue n (decimalDigits n q) = 10 ^ (Int.log 10 q + 1) := by
        rw [hp, digitsValue]
        push_cast
        exact pow_mul_unit (by omega)
      rw [hvalue]
      exact (log_bounds hq).2.le
    rw [hstep, hten] at hreads hx
    obtain ⟨hclose, hclose'⟩ := abs_le.mp hclose
    apply hne
    apply nearestBinary64_mirror h hx hreads <;> linarith

/-- **The shortest digits read back.** There are as many of them as the search has found
to be enough, and the first is not zero. -/
theorem shortestDigits_spec {q : ℚ} (h : IsBinary64 q) (hq : 0 < q) :
    ∃ n, 1 ≤ n ∧ 10 ^ (n - 1) ≤ (shortestDigits q).1 ∧ (shortestDigits q).1 < 10 ^ n ∧
      nearestBinary64 (digitsValue n (shortestDigits q)) = q := by
  obtain ⟨n, hn, hfound, hfirst⟩ := shortestDigits_found h hq
  obtain ⟨hreads, hcase⟩ := readBack_cases hfound
  have hspec := decimalDigits_spec hn hq
  refine ⟨n, hn, ?_, ?_, hreads⟩
  · rcases hcase with hc | ⟨hne, hc | hc⟩
    · rw [hc]
      exact hspec.low
    · rw [hc]
      exact hspec.low.trans (Nat.le_succ _)
    · rw [hc] at hreads ⊢
      exact le_pred_of_reads hn h hq hne hreads
  · rcases hcase with hc | ⟨hne, hc | hc⟩
    · rw [hc]
      exact hspec.high
    · rw [hc] at hreads ⊢
      exact succ_lt_of_reads hn h hq hfirst hreads
    · rw [hc]
      exact (Nat.sub_le _ _).trans_lt hspec.high

end PyFloat

import Mathlib.Algebra.Order.Field.Rat
import Mathlib.Tactic.Common
import OrderPipeline.Foundation.PyText

/-!
# The JSON grammar

The grammar of RFC 8259 with the value that a text denotes: `Derives` has one
constructor for each production, and `Text` adds the white space around the top
value.  A number denotes the rational number it spells; a string denotes the
UTF-16 code units of its characters and escapes, where a pair of surrogates is
one code point.  `NaN` and `Infinity` are no numbers.
-/

namespace JsonText

/-- What a JSON text denotes; the members of an object keep their order. -/
inductive Value
  | null
  | bool (b : Bool)
  | num (q : ℚ)
  | str (s : PyStr)
  | arr (items : List Value)
  | obj (members : List (PyStr × Value))

/-! ## White space -/

def isWs (c : Char) : Bool := c = ' ' || c = '\t' || c = '\n' || c = '\r'

/-- `ws`. -/
def Ws (cs : List Char) : Prop := ∀ c ∈ cs, isWs c = true

/-! ## Numbers -/

/-- `1*DIGIT`. -/
def Digits (cs : List Char) : Prop := cs ≠ [] ∧ ∀ c ∈ cs, c.isDigit = true

/-- The number that digits spell. -/
def natOf (digits : List Char) : ℕ := Nat.ofDigitChars 10 digits 0

/-- `exp`: `e` or `E`, an optional sign and digits. -/
structure Exponent where
  letter : Char
  sign : Option Char
  digits : List Char
  letter_ok : letter = 'e' ∨ letter = 'E'
  sign_ok : ∀ c ∈ sign, c = '+' ∨ c = '-'
  digits_ok : Digits digits

/-- `number`: an optional minus sign, an integer part without leading zeros, the
digits after a point if there is one, and an optional exponent. -/
structure Numeral where
  negative : Bool
  int : List Char
  frac : List Char
  exponent : Option Exponent
  int_ok : Digits int
  int_zero : int.head? = some '0' → int = ['0']
  frac_ok : ∀ c ∈ frac, c.isDigit = true

def Exponent.text (e : Exponent) : List Char := e.letter :: e.sign.toList ++ e.digits

def Exponent.value (e : Exponent) : ℤ :=
  if e.sign = some '-' then -(natOf e.digits : ℤ) else natOf e.digits

/-- The rational number of a sign, the digits before and after the point and an
exponent. -/
def decimal (negative : Bool) (int frac : List Char) (exponent : ℤ) : ℚ :=
  (if negative then -1 else 1) * natOf (int ++ frac) * 10 ^ (exponent - frac.length)

def fracText (frac : List Char) : List Char := if frac = [] then [] else '.' :: frac

def exponentText : Option Exponent → List Char
  | none => []
  | some e => e.text

def exponentValue : Option Exponent → ℤ
  | none => 0
  | some e => e.value

def Numeral.text (n : Numeral) : List Char :=
  (if n.negative then ['-'] else []) ++ n.int ++ fracText n.frac ++ exponentText n.exponent

def Numeral.value (n : Numeral) : ℚ :=
  decimal n.negative n.int n.frac (exponentValue n.exponent)

/-- What the text of a number is made of: digits, and the five marks of sign, point and
exponent. -/
theorem Numeral.mem_text (m : Numeral) {c : Char} (hc : c ∈ m.text) :
    c.isDigit = true ∨ c ∈ ['-', '+', '.', 'e', 'E'] := by
  simp only [Numeral.text, List.mem_append] at hc
  rcases hc with ((hsign | hint) | hfrac) | hexp
  · split at hsign
    · exact Or.inr (by simp_all)
    · cases hsign
  · exact Or.inl (m.int_ok.2 c hint)
  · unfold fracText at hfrac
    split at hfrac
    · cases hfrac
    · rcases List.mem_cons.mp hfrac with rfl | hdigit
      · exact Or.inr (by simp)
      · exact Or.inl (m.frac_ok c hdigit)
  · cases hexponent : m.exponent with
    | none =>
        rw [hexponent] at hexp
        cases hexp
    | some e =>
        rw [hexponent] at hexp
        simp only [exponentText, Exponent.text, List.cons_append, List.mem_cons,
          List.mem_append, Option.mem_toList] at hexp
        rcases hexp with rfl | hsign | hdigit
        · rcases e.letter_ok with hletter | hletter <;> exact Or.inr (by simp [hletter])
        · rcases e.sign_ok c hsign with rfl | rfl <;> exact Or.inr (by simp)
        · exact Or.inl (e.digits_ok.2 c hdigit)

/-! ## Strings -/

/-- The UTF-16 code units of a code point. -/
def utf16 (c : CodePoint) : List ℕ :=
  if c.val < 0x10000 then [c.val]
  else [0xd800 + (c.val - 0x10000) / 0x400, 0xdc00 + (c.val - 0x10000) % 0x400]

/-- The text of UTF-16 code units: a high surrogate followed by a low one is one
code point, any other unit stands for itself. -/
def ofUtf16 : List ℕ → PyStr
  | [] => []
  | [u] => [PyStr.codePoint u]
  | h :: l :: rest =>
      if (0xd800 ≤ h ∧ h < 0xdc00) ∧ 0xdc00 ≤ l ∧ l < 0xe000 then
        PyStr.codePoint (0x10000 + (h - 0xd800) * 0x400 + (l - 0xdc00)) :: ofUtf16 rest
      else PyStr.codePoint h :: ofUtf16 (l :: rest)

/-- A code point of the basic plane is one code unit. -/
theorem utf16_of_lt {c : CodePoint} (h : c.val < 0x10000) : utf16 c = [c.val] := if_pos h

/-- A unit that is no high surrogate stands for itself, whatever comes after it. -/
theorem ofUtf16_single_of_lt {u : ℕ} (h : u < 0xd800 ∨ 0xdc00 ≤ u) (rest : List ℕ) :
    ofUtf16 (u :: rest) = PyStr.codePoint u :: ofUtf16 rest := by
  cases rest with
  | nil => rfl
  | cons l rest => rw [ofUtf16, if_neg (by omega)]

/-- The code units of a code point are read back, unless it is a surrogate itself. -/
theorem ofUtf16_utf16_append {c : CodePoint} (h : PyStr.isSurrogate c = false)
    (rest : List ℕ) : ofUtf16 (utf16 c ++ rest) = c :: ofUtf16 rest := by
  have hlt := c.isLt
  simp only [PyStr.isSurrogate, Bool.and_eq_false_iff, decide_eq_false_iff_not] at h
  by_cases hbasic : c.val < 0x10000
  · rw [utf16_of_lt hbasic, List.singleton_append, ofUtf16_single_of_lt (by omega),
      PyStr.codePoint_eq rfl]
  · have hvalue : 0x10000 + (0xd800 + (c.val - 0x10000) / 0x400 - 0xd800) * 0x400 +
        (0xdc00 + (c.val - 0x10000) % 0x400 - 0xdc00) = c.val := by omega
    rw [utf16, if_neg hbasic, List.cons_append, List.singleton_append, ofUtf16,
      if_pos (by omega), PyStr.codePoint_eq hvalue]

/-- A string without surrogates is read back from its code units: every high surrogate
among these is followed by its own low one. -/
theorem ofUtf16_flatMap_utf16 {s : PyStr} (h : ∀ c ∈ s, PyStr.isSurrogate c = false) :
    ofUtf16 (s.flatMap utf16) = s := by
  induction s with
  | nil => rfl
  | cons c s ih =>
      rw [List.forall_mem_cons] at h
      rw [List.flatMap_cons, ofUtf16_utf16_append h.1, ih h.2]

/-- A code unit, taken as a code point, is written as itself. -/
theorem utf16_codePoint {u : ℕ} (h : u < 0x10000) : utf16 (PyStr.codePoint u) = [u] := by
  have hval : (PyStr.codePoint u).val = u := Nat.mod_eq_of_lt (by omega)
  rw [utf16_of_lt (by omega), hval]

/-- Reading code units and writing them gives them back, lone surrogates included.  The
cases are those of the recursion of `ofUtf16`: a pair is one code point, and splits into
the same pair. -/
theorem utf16_ofUtf16 {us : List ℕ} (h : ∀ u ∈ us, u < 0x10000) :
    (ofUtf16 us).flatMap utf16 = us := by
  induction us using ofUtf16.induct with
  | case1 => rfl
  | case2 u =>
      rw [ofUtf16, List.flatMap_cons, utf16_codePoint (h u List.mem_cons_self)]
      rfl
  | case3 high low rest hpair ih =>
      have hval : (PyStr.codePoint (0x10000 + (high - 0xd800) * 0x400 + (low - 0xdc00))).val =
          0x10000 + (high - 0xd800) * 0x400 + (low - 0xdc00) := Nat.mod_eq_of_lt (by omega)
      have hunits : utf16 (PyStr.codePoint (0x10000 + (high - 0xd800) * 0x400 +
          (low - 0xdc00))) = [high, low] := by
        have hhigh : 0xd800 + (0x10000 + (high - 0xd800) * 0x400 + (low - 0xdc00) - 0x10000) /
            0x400 = high := by omega
        have hlow : 0xdc00 + (0x10000 + (high - 0xd800) * 0x400 + (low - 0xdc00) - 0x10000) %
            0x400 = low := by omega
        rw [utf16, if_neg (by omega), hval, hhigh, hlow]
      rw [ofUtf16, if_pos hpair, List.flatMap_cons, hunits,
        ih fun u hu => h u (List.mem_cons_of_mem _ (List.mem_cons_of_mem _ hu))]
      rfl
  | case4 high low rest hpair ih =>
      rw [ofUtf16, if_neg hpair, List.flatMap_cons, utf16_codePoint (h high List.mem_cons_self),
        ih fun u hu => h u (List.mem_cons_of_mem _ hu)]
      rfl

/-- Code units have 16 bits. -/
theorem utf16_lt (c : CodePoint) : ∀ u ∈ utf16 c, u < 0x10000 := by
  have hlt := c.isLt
  intro u hu
  unfold utf16 at hu
  split at hu
  · rw [List.mem_singleton] at hu
    omega
  · simp only [List.mem_cons, List.not_mem_nil, or_false] at hu
    omega

/-- A string whose code units are read as itself: no high surrogate stands before a
low one. -/
def Paired (s : PyStr) : Prop := ofUtf16 (s.flatMap utf16) = s

/-- What was read from code units is read again as itself: a pair has been joined, and
what is left alone stands in no pair. -/
theorem paired_ofUtf16 {us : List ℕ} (h : ∀ u ∈ us, u < 0x10000) : Paired (ofUtf16 us) := by
  unfold Paired
  rw [utf16_ofUtf16 h]

/-- `HEXDIG`, either case. -/
def hexValue? (c : Char) : Option ℕ :=
  if 0x30 ≤ c.toNat ∧ c.toNat ≤ 0x39 then some (c.toNat - 0x30)
  else if 0x61 ≤ c.toNat ∧ c.toNat ≤ 0x66 then some (c.toNat - 0x57)
  else if 0x41 ≤ c.toNat ∧ c.toNat ≤ 0x46 then some (c.toNat - 0x37)
  else none

/-- The code unit of `\uXXXX`. -/
def hexUnit? (a b c d : Char) : Option ℕ := do
  let a ← hexValue? a
  let b ← hexValue? b
  let c ← hexValue? c
  let d ← hexValue? d
  some (((a * 16 + b) * 16 + c) * 16 + d)

/-- The code unit of an escape with one character. -/
def escapeUnit? (c : Char) : Option ℕ :=
  if c = '"' ∨ c = '\\' ∨ c = '/' then some c.toNat
  else if c = 'b' then some 0x08
  else if c = 'f' then some 0x0c
  else if c = 'n' then some 0x0a
  else if c = 'r' then some 0x0d
  else if c = 't' then some 0x09
  else none

/-- A hexadecimal digit stands for a number below 16. -/
theorem hexValue?_lt {c : Char} {n : ℕ} (h : hexValue? c = some n) : n < 16 := by
  unfold hexValue? at h
  grind

theorem hexUnit?_lt {a b c d : Char} {u : ℕ} (h : hexUnit? a b c d = some u) : u < 0x10000 := by
  unfold hexUnit? at h
  obtain ⟨x, hx, h⟩ := Option.bind_eq_some_iff.mp h
  obtain ⟨y, hy, h⟩ := Option.bind_eq_some_iff.mp h
  obtain ⟨z, hz, h⟩ := Option.bind_eq_some_iff.mp h
  obtain ⟨w, hw, h⟩ := Option.bind_eq_some_iff.mp h
  obtain rfl := Option.some.inj h
  have := hexValue?_lt hx
  have := hexValue?_lt hy
  have := hexValue?_lt hz
  have := hexValue?_lt hw
  omega

/-- The short escapes stand for code units. -/
theorem escapeUnit?_lt {c : Char} {u : ℕ} (h : escapeUnit? c = some u) : u < 0x10000 := by
  unfold escapeUnit? at h
  split at h
  · next hsame =>
    obtain rfl := Option.some.inj h
    rcases hsame with rfl | rfl | rfl <;> decide
  · grind

/-- `char`, with its code units. -/
inductive CharLit : List Char → List ℕ → Prop
  | unescaped (c : Char) : 0x20 ≤ c.toNat → c ≠ '"' → c ≠ '\\' →
      CharLit [c] (utf16 (PyStr.ofChar c))
  | escape (c : Char) {u : ℕ} : escapeUnit? c = some u → CharLit ['\\', c] [u]
  | hex (a b c d : Char) {u : ℕ} : hexUnit? a b c d = some u →
      CharLit ['\\', 'u', a, b, c, d] [u]

/-- `*char`. -/
inductive Chars : List Char → List ℕ → Prop
  | nil : Chars [] []
  | cons {cs rest : List Char} {us units : List ℕ} :
      CharLit cs us → Chars rest units → Chars (cs ++ rest) (us ++ units)

theorem Chars.single {cs : List Char} {us : List ℕ} (h : CharLit cs us) : Chars cs us := by
  have hcons := Chars.cons h Chars.nil
  rwa [List.append_nil, List.append_nil] at hcons

theorem Chars.append {cs cs' : List Char} {us us' : List ℕ} (h : Chars cs us)
    (h' : Chars cs' us') : Chars (cs ++ cs') (us ++ us') := by
  induction h with
  | nil => exact h'
  | cons hchar _ ih =>
      rw [List.append_assoc, List.append_assoc]
      exact Chars.cons hchar ih

/-- `string`. -/
def StringLit (cs : List Char) (s : PyStr) : Prop :=
  ∃ body units, cs = '"' :: body ++ ['"'] ∧ Chars body units ∧ s = ofUtf16 units

/-! ## Values -/

/-- The syntactic categories, with what their texts denote. -/
inductive Form
  | value (v : Value)
  | elements (vs : List Value)
  | members (ms : List (PyStr × Value))

/-- The productions: values, the elements between two brackets and the members
between two braces. -/
inductive Derives : List Char → Form → Prop
  | nullName : Derives "null".toList (.value .null)
  | trueName : Derives "true".toList (.value (.bool true))
  | falseName : Derives "false".toList (.value (.bool false))
  | number (n : Numeral) : Derives n.text (.value (.num n.value))
  | string {cs : List Char} {s : PyStr} :
      StringLit cs s → Derives cs (.value (.str s))
  | emptyArray {w : List Char} :
      Ws w → Derives ('[' :: w ++ [']']) (.value (.arr []))
  | array {cs : List Char} {vs : List Value} :
      Derives cs (.elements vs) → Derives ('[' :: cs ++ [']']) (.value (.arr vs))
  | emptyObject {w : List Char} :
      Ws w → Derives ('\x7b' :: w ++ ['\x7d']) (.value (.obj []))
  | object {cs : List Char} {ms : List (PyStr × Value)} :
      Derives cs (.members ms) → Derives ('\x7b' :: cs ++ ['\x7d']) (.value (.obj ms))
  | lastElement {w cs w' : List Char} {v : Value} :
      Ws w → Derives cs (.value v) → Ws w' → Derives (w ++ cs ++ w') (.elements [v])
  | element {w cs w' rest : List Char} {v : Value} {vs : List Value} :
      Ws w → Derives cs (.value v) → Ws w' → Derives rest (.elements vs) →
        Derives (w ++ cs ++ w' ++ ',' :: rest) (.elements (v :: vs))
  | lastMember {w key w₁ w₂ cs w₃ : List Char} {k : PyStr} {v : Value} :
      Ws w → StringLit key k → Ws w₁ → Ws w₂ → Derives cs (.value v) → Ws w₃ →
        Derives (w ++ key ++ w₁ ++ ':' :: w₂ ++ cs ++ w₃) (.members [(k, v)])
  | member {w key w₁ w₂ cs w₃ rest : List Char} {k : PyStr} {v : Value}
      {ms : List (PyStr × Value)} :
      Ws w → StringLit key k → Ws w₁ → Ws w₂ → Derives cs (.value v) → Ws w₃ →
        Derives rest (.members ms) →
        Derives (w ++ key ++ w₁ ++ ':' :: w₂ ++ cs ++ w₃ ++ ',' :: rest)
          (.members ((k, v) :: ms))

/-- `JSON-text`. -/
def Text (cs : List Char) (v : Value) : Prop :=
  ∃ w body w', Ws w ∧ Derives body (.value v) ∧ Ws w' ∧ cs = w ++ body ++ w'

end JsonText

import OrderPipeline.Foundation.JsonGrammar

/-!
# Reading JSON

A strict reader for the grammar: it returns the value that a text denotes and
rejects everything else a lenient reader lets through, `NaN` and `Infinity` among
it.  `read_of_text` says that it reads every text of the grammar as what the
grammar says it denotes; hence a text denotes one value (`Text.unique`), and what
the reader rejects is no text.

Each reader takes the text from a position on and returns the rest.  Recursion
through arrays and objects is on fuel; twice the length of the text is enough.
-/

namespace JsonText

def skipWs (cs : List Char) : List Char := cs.dropWhile isWs

/-- Digits, and what follows them; at least one. -/
def readDigits (cs : List Char) : Option (List Char × List Char) :=
  if cs.takeWhile Char.isDigit = [] then none
  else some (cs.takeWhile Char.isDigit, cs.dropWhile Char.isDigit)

def readMinus : List Char → Bool × List Char
  | '-' :: rest => (true, rest)
  | cs => (false, cs)

def readFrac : List Char → Option (List Char × List Char)
  | '.' :: rest => readDigits rest
  | cs => some ([], cs)

def readSign : List Char → Option Char × List Char
  | '+' :: rest => (some '+', rest)
  | '-' :: rest => (some '-', rest)
  | cs => (none, cs)

def readExponent : List Char → Option (ℤ × List Char)
  | [] => some (0, [])
  | c :: rest =>
      if c = 'e' ∨ c = 'E' then do
        let (sign, rest) := readSign rest
        let (digits, rest) ← readDigits rest
        some (if sign = some '-' then -(natOf digits : ℤ) else natOf digits, rest)
      else some (0, c :: rest)

/-- A number of the grammar, with no leading zeros. -/
def readNumber (cs : List Char) : Option (ℚ × List Char) := do
  let (negative, cs) := readMinus cs
  let (int, cs) ← readDigits cs
  if int.head? = some '0' ∧ int ≠ ['0'] then none
  let (frac, cs) ← readFrac cs
  let (exponent, cs) ← readExponent cs
  some (decimal negative int frac exponent, cs)

/-- An escape, after the backslash. -/
def readEscape : List Char → Option (List ℕ × List Char)
  | 'u' :: h₁ :: h₂ :: h₃ :: h₄ :: rest => do
      let u ← hexUnit? h₁ h₂ h₃ h₄
      some ([u], rest)
  | e :: rest => do
      let u ← escapeUnit? e
      some ([u], rest)
  | [] => none

/-- One character of a string or one escape. -/
def readCharLit : List Char → Option (List ℕ × List Char)
  | [] => none
  | c :: rest =>
      if c = '\\' then readEscape rest
      else if 0x20 ≤ c.toNat ∧ c ≠ '"' then some (utf16 (PyStr.ofChar c), rest)
      else none

/-- The characters up to the closing quotation mark. -/
def readChars : ℕ → List Char → Option (List ℕ × List Char)
  | 0, _ => none
  | fuel + 1, cs =>
      if cs.head? = some '"' then some ([], cs.tail)
      else do
        let (us, cs) ← readCharLit cs
        let (units, cs) ← readChars fuel cs
        some (us ++ units, cs)

def readString : List Char → Option (PyStr × List Char)
  | '"' :: rest => do
      let (units, rest) ← readChars rest.length rest
      some (ofUtf16 units, rest)
  | _ => none

/-- The characters of a fixed name. -/
def readName (name : List Char) (v : Value) (cs : List Char) :
    Option (Value × List Char) :=
  if name.isPrefixOf cs then some (v, cs.drop name.length) else none

mutual

/-- One value, and what is left of the text. -/
def readValue : ℕ → List Char → Option (Value × List Char)
  | 0, _ => none
  | fuel + 1, cs =>
      match cs with
      | '"' :: _ => do
          let (s, cs) ← readString cs
          some (.str s, cs)
      | '[' :: cs =>
          if (skipWs cs).head? = some ']' then some (.arr [], (skipWs cs).tail)
          else do
            let (vs, cs) ← readElements fuel cs
            some (.arr vs, cs)
      | '\x7b' :: cs =>
          if (skipWs cs).head? = some '\x7d' then some (.obj [], (skipWs cs).tail)
          else do
            let (ms, cs) ← readMembers fuel cs
            some (.obj ms, cs)
      | 'n' :: _ => readName "null".toList .null cs
      | 't' :: _ => readName "true".toList (.bool true) cs
      | 'f' :: _ => readName "false".toList (.bool false) cs
      | cs => do
          let (q, cs) ← readNumber cs
          some (.num q, cs)

/-- The elements of an array, and the bracket that closes it. -/
def readElements : ℕ → List Char → Option (List Value × List Char)
  | 0, _ => none
  | fuel + 1, cs => do
      let (v, cs) ← readValue fuel (skipWs cs)
      match skipWs cs with
      | ',' :: cs =>
          let (vs, cs) ← readElements fuel cs
          some (v :: vs, cs)
      | ']' :: cs => some ([v], cs)
      | _ => none

/-- The members of an object, and the brace that closes it. -/
def readMembers : ℕ → List Char → Option (List (PyStr × Value) × List Char)
  | 0, _ => none
  | fuel + 1, cs => do
      let (k, cs) ← readString (skipWs cs)
      match skipWs cs with
      | ':' :: cs =>
          let (v, cs) ← readValue fuel (skipWs cs)
          match skipWs cs with
          | ',' :: cs =>
              let (ms, cs) ← readMembers fuel cs
              some ((k, v) :: ms, cs)
          | '\x7d' :: cs => some ([(k, v)], cs)
          | _ => none
      | _ => none

end

/-- The value of a whole text. -/
def read (cs : List Char) : Option Value := do
  let (v, rest) ← readValue (2 * cs.length) (skipWs cs)
  if skipWs rest = [] then some v else none

/-! ## White space and digits -/

/-- White space in front is skipped as a whole. -/
theorem skipWs_append {w : List Char} (h : Ws w) (cs : List Char) :
    skipWs (w ++ cs) = skipWs cs :=
  List.dropWhile_append_of_pos h

/-- Nothing is skipped where the text does not begin with white space. -/
theorem skipWs_eq_self {cs : List Char} (h : ∀ c ∈ cs.head?, isWs c = false) :
    skipWs cs = cs := by
  cases cs with
  | nil => rfl
  | cons c rest => simp [skipWs, h c rfl]

/-- A digit is none of the other characters of the grammar. -/
theorem ne_of_isDigit {d c : Char} (hd : d.isDigit = true) (hc : c.isDigit = false) :
    d ≠ c := by
  rintro rfl
  rw [hd] at hc
  cases hc

/-- Digits begin with a digit. -/
theorem Digits.head {ds : List Char} (h : Digits ds) :
    ∃ d tail, ds = d :: tail ∧ d.isDigit = true := by
  obtain ⟨d, tail, rfl⟩ := List.exists_cons_of_ne_nil h.1
  exact ⟨d, tail, rfl, h.2 d List.mem_cons_self⟩

/-- The text goes on with something that is no digit. -/
def NoDigit (rest : List Char) : Prop := ∀ c ∈ rest.head?, c.isDigit = false

/-- Digits are read up to the first character that is none. -/
theorem readDigits_append {ds rest : List Char} (h : Digits ds) (hrest : NoDigit rest) :
    readDigits (ds ++ rest) = some (ds, rest) := by
  have hstop : rest.takeWhile Char.isDigit = [] ∧ rest.dropWhile Char.isDigit = rest := by
    cases rest with
    | nil => exact ⟨rfl, rfl⟩
    | cons c rest => simp [hrest c rfl]
  unfold readDigits
  rw [List.takeWhile_append_of_pos h.2, List.dropWhile_append_of_pos h.2, hstop.1, hstop.2,
    List.append_nil, if_neg h.1]

/-! ## Numbers -/

/-- What may follow a number: nothing that would continue it. -/
def Ends (rest : List Char) : Prop :=
  ∀ c ∈ rest.head?, c.isDigit = false ∧ c ≠ '.' ∧ c ≠ 'e' ∧ c ≠ 'E'

/-- What ends a number is no digit. -/
theorem Ends.noDigit {rest : List Char} (h : Ends rest) : NoDigit rest := by
  intro c hc
  exact (h c hc).1

/-- Where no exponent follows, it is zero and nothing is read. -/
theorem readExponent_none {rest : List Char} (h : Ends rest) :
    readExponent rest = some (0, rest) := by
  cases rest with
  | nil => rfl
  | cons c rest =>
      obtain ⟨-, -, he, hE⟩ := h c rfl
      simp [readExponent, he, hE]

/-- The sign of an exponent may be missing; the digits after it are left. -/
theorem readSign_append {sign : Option Char} (hsign : ∀ c ∈ sign, c = '+' ∨ c = '-')
    {ds : List Char} (hds : Digits ds) (rest : List Char) :
    readSign (sign.toList ++ (ds ++ rest)) = (sign, ds ++ rest) := by
  cases sign with
  | some c =>
      obtain rfl | rfl := hsign c rfl <;> rfl
  | none =>
      obtain ⟨d, tail, rfl, hd⟩ := hds.head
      show readSign (d :: (tail ++ rest)) = _
      unfold readSign
      split
      · next heq => exact absurd (List.cons.inj heq).1 (ne_of_isDigit hd rfl)
      · next heq => exact absurd (List.cons.inj heq).1 (ne_of_isDigit hd rfl)
      · rfl

/-- An exponent of the grammar is read as its value. -/
theorem readExponent_text (e : Exponent) {rest : List Char} (h : Ends rest) :
    readExponent (e.text ++ rest) = some (e.value, rest) := by
  have hletter := e.letter_ok
  unfold Exponent.text
  rw [List.cons_append, List.cons_append, List.append_assoc, readExponent, if_pos hletter,
    readSign_append e.sign_ok e.digits_ok]
  simp only [readDigits_append e.digits_ok h.noDigit]
  rfl

/-- The same where the exponent may be missing. -/
theorem readExponent_exponentText (e : Option Exponent) {rest : List Char} (h : Ends rest) :
    readExponent (exponentText e ++ rest) = some (exponentValue e, rest) := by
  cases e with
  | none => exact readExponent_none h
  | some e => exact readExponent_text e h

/-- What follows the digits of a number is neither a digit nor a point. -/
theorem head_exponentText {e : Option Exponent} {rest : List Char} (h : Ends rest) :
    ∀ c ∈ (exponentText e ++ rest).head?, c.isDigit = false ∧ c ≠ '.' := by
  cases e with
  | none =>
      intro c hc
      exact ⟨(h c hc).1, (h c hc).2.1⟩
  | some e =>
      intro c hc
      obtain rfl : e.letter = c := Option.some.inj hc
      obtain hletter | hletter := e.letter_ok <;> rw [hletter] <;> decide

/-- A fraction of the grammar is read as its digits, and a missing one as none. -/
theorem readFrac_fracText {frac rest : List Char} (hfrac : ∀ c ∈ frac, c.isDigit = true)
    (hrest : ∀ c ∈ rest.head?, c.isDigit = false ∧ c ≠ '.') :
    readFrac (fracText frac ++ rest) = some (frac, rest) := by
  unfold fracText
  split
  · next hnil =>
    rw [hnil, List.nil_append]
    unfold readFrac
    split
    · next heq => exact absurd rfl (hrest '.' rfl).2
    · rfl
  · next hne =>
    have hnoDigit : NoDigit rest := fun c hc => (hrest c hc).1
    exact readDigits_append ⟨hne, hfrac⟩ hnoDigit

/-- What follows the integer part, a fraction or the rest, begins with no digit. -/
theorem noDigit_fracText {frac rest : List Char} (hrest : NoDigit rest) :
    NoDigit (fracText frac ++ rest) := by
  unfold fracText
  split
  · exact hrest
  · intro c hc
    obtain rfl : '.' = c := Option.some.inj hc
    decide

/-- A sign is read before digits. -/
theorem readMinus_append (negative : Bool) {ds : List Char} (hds : Digits ds)
    (rest : List Char) :
    readMinus ((if negative then ['-'] else []) ++ (ds ++ rest)) = (negative, ds ++ rest) := by
  cases negative with
  | true => rfl
  | false =>
      obtain ⟨d, tail, rfl, hd⟩ := hds.head
      show readMinus (d :: (tail ++ rest)) = _
      unfold readMinus
      split
      · next heq => exact absurd (List.cons.inj heq).1 (ne_of_isDigit hd rfl)
      · rfl

/-- A number is read as the number it spells, its fraction and its exponent included,
wherever it ends. -/
theorem readNumber_text (n : Numeral) {rest : List Char} (h : Ends rest) :
    readNumber (n.text ++ rest) = some (n.value, rest) := by
  have hexp := head_exponentText (e := n.exponent) h
  have hnoDigit : NoDigit (exponentText n.exponent ++ rest) := fun c hc => (hexp c hc).1
  have htext : n.text ++ rest = (if n.negative then ['-'] else []) ++
      (n.int ++ (fracText n.frac ++ (exponentText n.exponent ++ rest))) := by
    simp only [Numeral.text, List.append_assoc]
  have hzero : ¬(n.int.head? = some '0' ∧ n.int ≠ ['0']) := fun hbad =>
    hbad.2 (n.int_zero hbad.1)
  rw [htext, readNumber, readMinus_append n.negative n.int_ok]
  simp only [readDigits_append n.int_ok (noDigit_fracText hnoDigit), Option.bind_eq_bind,
    Option.bind_some, if_neg hzero, readFrac_fracText n.frac_ok hexp,
    readExponent_exponentText n.exponent h]
  rfl

/-! ## Strings -/

/-- One character of a string, as itself or by an escape, is read as its code units. -/
theorem readCharLit_append {cs : List Char} {us : List ℕ} (h : CharLit cs us)
    (rest : List Char) : readCharLit (cs ++ rest) = some (us, rest) := by
  cases h with
  | unescaped c hprintable hquote hbackslash =>
      show readCharLit (c :: rest) = _
      rw [readCharLit, if_neg hbackslash, if_pos ⟨hprintable, hquote⟩]
  | escape c hunit =>
      show readCharLit ('\\' :: c :: rest) = _
      rw [readCharLit, if_pos rfl]
      unfold readEscape
      split
      · next heq =>
        rw [List.cons.injEq] at heq
        rw [heq.1] at hunit
        exact absurd hunit (by simp [escapeUnit?])
      · next heq =>
        rw [List.cons.injEq] at heq
        rw [← heq.1, ← heq.2, hunit]
        rfl
      · next heq => cases heq
  | hex a b c d hunit =>
      show readCharLit ('\\' :: 'u' :: a :: b :: c :: d :: rest) = _
      rw [readCharLit, if_pos rfl, readEscape, hunit]
      rfl

/-- No character of a string is its closing quotation mark. -/
theorem CharLit.head {cs : List Char} {us : List ℕ} (h : CharLit cs us) :
    ∃ c tail, cs = c :: tail ∧ c ≠ '"' := by
  cases h with
  | unescaped c _ hquote _ => exact ⟨c, [], rfl, hquote⟩
  | escape c _ => exact ⟨_, _, rfl, by decide⟩
  | hex a b c d _ => exact ⟨_, _, rfl, by decide⟩

/-- The body of a string is read up to its closing quote, by induction on the
characters; fuel for the length is enough. -/
theorem readChars_append {body : List Char} {units : List ℕ} (h : Chars body units) :
    ∀ (fuel : ℕ) (rest : List Char), body.length < fuel →
      readChars fuel (body ++ '"' :: rest) = some (units, rest) := by
  induction h with
  | nil =>
      intro fuel rest hfuel
      cases fuel with
      | zero => cases hfuel
      | succ fuel => rfl
  | cons hchar hchars ih =>
      intro fuel rest hfuel
      obtain ⟨c, tail, rfl, hquote⟩ := hchar.head
      cases fuel with
      | zero => cases hfuel
      | succ fuel =>
          rw [List.length_append, List.length_cons] at hfuel
          rw [readChars, if_neg (by intro heq; exact hquote (Option.some.inj heq)),
            List.append_assoc, readCharLit_append hchar]
          simp only [Option.bind_eq_bind, Option.bind_some, ih fuel rest (by omega)]

/-- A string literal of the grammar is read as its string. -/
theorem readString_append {cs : List Char} {s : PyStr} (h : StringLit cs s)
    (rest : List Char) : readString (cs ++ rest) = some (s, rest) := by
  obtain ⟨body, units, rfl, hchars, rfl⟩ := h
  have htext : '"' :: body ++ ['"'] ++ rest = '"' :: (body ++ '"' :: rest) := by simp
  rw [htext, readString, readChars_append hchars _ rest (by simp)]
  rfl

/-- A string literal begins with a quote, which tells it from every other value. -/
theorem StringLit.head {cs : List Char} {s : PyStr} (h : StringLit cs s) :
    ∃ tail, cs = '"' :: tail := by
  obtain ⟨body, units, rfl, -, -⟩ := h
  exact ⟨_, rfl⟩

theorem StringLit.ne_nil {cs : List Char} {s : PyStr} (h : StringLit cs s) : cs ≠ [] := by
  obtain ⟨tail, rfl⟩ := h.head
  exact List.cons_ne_nil _ _

/-! ## Values -/

/-- The first character of a number. -/
theorem Numeral.head (n : Numeral) : ∀ c ∈ n.text.head?, c = '-' ∨ c.isDigit = true := by
  obtain ⟨d, ds, hint, hd⟩ := n.int_ok.head
  intro c hc
  cases hneg : n.negative with
  | true =>
      simp only [Numeral.text, hneg] at hc
      exact Or.inl (Option.some.inj hc).symm
  | false =>
      simp only [Numeral.text, hneg, hint] at hc
      obtain rfl : d = c := Option.some.inj hc
      exact Or.inr hd

/-- A number has at least one digit. -/
theorem Numeral.text_ne_nil (n : Numeral) : n.text ≠ [] := by
  intro hnil
  obtain ⟨hne, -⟩ := n.int_ok
  simp only [Numeral.text, List.append_eq_nil_iff] at hnil
  exact hne hnil.1.1.2

/-- The first character of a value. -/
theorem Derives.head {cs : List Char} {v : Value} (h : Derives cs (.value v)) :
    ∃ c tail, cs = c :: tail ∧ isWs c = false ∧ c ≠ ']' := by
  cases h with
  | nullName => exact ⟨_, _, rfl, by decide, by decide⟩
  | trueName => exact ⟨_, _, rfl, by decide, by decide⟩
  | falseName => exact ⟨_, _, rfl, by decide, by decide⟩
  | number n =>
      obtain ⟨c, tail, htext⟩ := List.exists_cons_of_ne_nil n.text_ne_nil
      refine ⟨c, tail, htext, ?_⟩
      rcases n.head c (by rw [htext]; rfl) with rfl | hdigit
      · decide
      · have hne : ∀ d : Char, d.isDigit = false → c ≠ d := fun d => ne_of_isDigit hdigit
        simp only [isWs, Bool.or_eq_false_iff, decide_eq_false_iff_not]
        exact ⟨⟨⟨⟨hne _ rfl, hne _ rfl⟩, hne _ rfl⟩, hne _ rfl⟩, hne _ rfl⟩
  | string hs =>
      obtain ⟨tail, rfl⟩ := hs.head
      exact ⟨_, _, rfl, by decide, by decide⟩
  | emptyArray _ => exact ⟨_, _, rfl, by decide, by decide⟩
  | array _ => exact ⟨_, _, rfl, by decide, by decide⟩
  | emptyObject _ => exact ⟨_, _, rfl, by decide, by decide⟩
  | object _ => exact ⟨_, _, rfl, by decide, by decide⟩

/-- White space continues no number. -/
theorem Ends.append {w rest : List Char} (hw : Ws w) (hrest : Ends rest) :
    Ends (w ++ rest) := by
  cases w with
  | nil => exact hrest
  | cons a w =>
      intro c hc
      obtain rfl : a = c := Option.some.inj hc
      have ha := hw a List.mem_cons_self
      simp only [isWs, Bool.or_eq_true, decide_eq_true_eq] at ha
      rcases ha with ((rfl | rfl) | rfl) | rfl <;> decide

/-- What follows a value inside an array or an object does not continue it. -/
theorem ends_of_ws {w rest : List Char} {c : Char} (hw : Ws w)
    (hc : c = ',' ∨ c = ']' ∨ c = '\x7d') : Ends (w ++ c :: rest) := by
  apply Ends.append hw
  intro d hd
  obtain rfl : c = d := Option.some.inj hd
  rcases hc with rfl | rfl | rfl <;> decide

/-- White space before a delimiter is skipped up to it. -/
theorem skipWs_delimiter {w rest : List Char} {c : Char} (hw : Ws w)
    (hc : isWs c = false) : skipWs (w ++ c :: rest) = c :: rest := by
  rw [skipWs_append hw, skipWs_eq_self]
  intro d hd
  obtain rfl : c = d := Option.some.inj hd
  exact hc

/-- Text that begins otherwise does not begin with `d` after white space. -/
theorem head_skipWs_ne {w tail : List Char} {c d : Char} (hw : Ws w) (hc : isWs c = false)
    (hne : c ≠ d) : (skipWs (w ++ c :: tail)).head? ≠ some d := by
  rw [skipWs_delimiter hw hc]
  intro heq
  exact hne (Option.some.inj heq)

/-- White space before a value is skipped up to it. -/
theorem Derives.skipWs {w cs : List Char} {v : Value} (hw : Ws w)
    (h : Derives cs (.value v)) (rest : List Char) :
    JsonText.skipWs (w ++ (cs ++ rest)) = cs ++ rest := by
  obtain ⟨c, tail, rfl, hc, -⟩ := h.head
  exact skipWs_delimiter hw hc

/-- The white space before a string is skipped, and nothing of the string. -/
theorem StringLit.skipWs {w cs : List Char} {s : PyStr} (hw : Ws w)
    (h : StringLit cs s) (rest : List Char) :
    JsonText.skipWs (w ++ (cs ++ rest)) = cs ++ rest := by
  obtain ⟨tail, rfl⟩ := h.head
  exact skipWs_delimiter hw (by decide)

/-- A sign or a digit begins a number and no other kind of value. -/
theorem readValue_number {fuel : ℕ} {cs : List Char}
    (h : ∀ c ∈ cs.head?, c = '-' ∨ c.isDigit = true) :
    readValue (fuel + 1) cs = (readNumber cs).map fun p => (.num p.1, p.2) := by
  have hno : ∀ (c : Char) (tail : List Char), cs = c :: tail → c = '-' ∨ c.isDigit = true := by
    rintro c tail rfl
    exact h c rfl
  unfold readValue
  split
  · exact absurd (hno _ _ rfl) (by decide)
  · exact absurd (hno _ _ rfl) (by decide)
  · exact absurd (hno _ _ rfl) (by decide)
  · exact absurd (hno _ _ rfl) (by decide)
  · exact absurd (hno _ _ rfl) (by decide)
  · exact absurd (hno _ _ rfl) (by decide)
  · cases readNumber cs <;> rfl

/-- A quote begins a string. -/
theorem readValue_string {cs : List Char} {s : PyStr} (h : StringLit cs s) (fuel : ℕ)
    (rest : List Char) : readValue (fuel + 1) (cs ++ rest) = some (.str s, rest) := by
  have hread := readString_append h rest
  obtain ⟨tail, rfl⟩ := h.head
  rw [List.cons_append] at hread ⊢
  rw [readValue, hread]
  rfl

/-- What the readers do on a derived text, given fuel for its length. -/
def Reads (cs : List Char) : Form → Prop
  | .value v => ∀ fuel rest, 2 * cs.length ≤ fuel → Ends rest →
      readValue fuel (cs ++ rest) = some (v, rest)
  | .elements vs => ∀ fuel rest, 2 * cs.length + 1 ≤ fuel →
      readElements fuel (cs ++ ']' :: rest) = some (vs, rest)
  | .members ms => ∀ fuel rest, 2 * cs.length + 1 ≤ fuel →
      readMembers fuel (cs ++ '\x7d' :: rest) = some (ms, rest)

/-- An array with elements is not empty. -/
theorem Derives.elements_head {cs : List Char} {vs : List Value}
    (h : Derives cs (.elements vs)) (rest : List Char) :
    (JsonText.skipWs (cs ++ rest)).head? ≠ some ']' := by
  cases h with
  | lastElement hw hv _ | element hw hv _ _ =>
      obtain ⟨c, tail, rfl, hc, hne⟩ := hv.head
      simp only [List.append_assoc, List.cons_append]
      exact head_skipWs_ne hw hc hne

/-- An object with members is not empty. -/
theorem Derives.members_head {cs : List Char} {ms : List (PyStr × Value)}
    (h : Derives cs (.members ms)) (rest : List Char) :
    (JsonText.skipWs (cs ++ rest)).head? ≠ some '\x7d' := by
  cases h with
  | lastMember hw hk _ _ _ _ | member hw hk _ _ _ _ _ =>
      obtain ⟨tail, rfl⟩ := hk.head
      simp only [List.append_assoc, List.cons_append]
      exact head_skipWs_ne hw (by decide) (by decide)

/-! ## The readers on one production -/

/-- The last element of an array, with the bracket that closes it. -/
theorem readElements_last {fuel : ℕ} {w cs w' rest : List Char} {v : Value} (hw : Ws w)
    (hv : Derives cs (.value v)) (hw' : Ws w')
    (hread : readValue fuel (cs ++ (w' ++ ']' :: rest)) = some (v, w' ++ ']' :: rest)) :
    readElements (fuel + 1) (w ++ (cs ++ (w' ++ ']' :: rest))) = some ([v], rest) := by
  have hclose : JsonText.skipWs (w' ++ ']' :: rest) = ']' :: rest :=
    skipWs_delimiter hw' (by decide)
  rw [readElements, hv.skipWs hw, hread]
  simp only [Option.bind_eq_bind, Option.bind_some, hclose]

/-- An element with a comma after it: the elements behind the comma are read next. -/
theorem readElements_more {fuel : ℕ} {w cs w' rest : List Char} {v : Value} (hw : Ws w)
    (hv : Derives cs (.value v)) (hw' : Ws w')
    (hread : readValue fuel (cs ++ (w' ++ ',' :: rest)) = some (v, w' ++ ',' :: rest)) :
    readElements (fuel + 1) (w ++ (cs ++ (w' ++ ',' :: rest))) =
      (readElements fuel rest).map fun p => (v :: p.1, p.2) := by
  have hcomma : JsonText.skipWs (w' ++ ',' :: rest) = ',' :: rest :=
    skipWs_delimiter hw' (by decide)
  rw [readElements, hv.skipWs hw, hread]
  simp only [Option.bind_eq_bind, Option.bind_some, hcomma]
  cases readElements fuel rest <;> rfl

/-- A member up to its value, whatever delimiter comes after it. -/
theorem readMembers_value {fuel : ℕ} {w key w₁ w₂ cs rest : List Char} {k : PyStr}
    {v : Value} (hw : Ws w) (hk : StringLit key k) (hw₁ : Ws w₁) (hw₂ : Ws w₂)
    (hv : Derives cs (.value v)) (hread : readValue fuel (cs ++ rest) = some (v, rest)) :
    readMembers (fuel + 1) (w ++ (key ++ (w₁ ++ ':' :: (w₂ ++ (cs ++ rest))))) =
      match skipWs rest with
      | ',' :: rest => (readMembers fuel rest).map fun p => ((k, v) :: p.1, p.2)
      | '\x7d' :: rest => some ([(k, v)], rest)
      | _ => none := by
  have hcolon : JsonText.skipWs (w₁ ++ ':' :: (w₂ ++ (cs ++ rest))) =
      ':' :: (w₂ ++ (cs ++ rest)) :=
    skipWs_delimiter hw₁ (by decide)
  rw [readMembers, hk.skipWs hw, readString_append hk]
  simp only [Option.bind_eq_bind, Option.bind_some, hcolon, hv.skipWs hw₂, hread]
  split
  · next rest _ => cases readMembers fuel rest <;> rfl
  · rfl
  · rfl

/-- Enough fuel for something is fuel for one call and what is left. -/
theorem exists_fuel {n fuel : ℕ} (hn : 0 < n) (h : n ≤ fuel) : ∃ m, fuel = m + 1 :=
  ⟨fuel - 1, by omega⟩

/-- **The readers follow the grammar**: on a derived text they return what it
denotes and leave the rest. -/
theorem Derives.reads {cs : List Char} {f : Form} (h : Derives cs f) : Reads cs f := by
  induction h with
  | nullName | trueName | falseName =>
      intro fuel rest hfuel _
      obtain ⟨fuel, rfl⟩ := exists_fuel (by decide) hfuel
      rfl
  | number n =>
      intro fuel rest hfuel hends
      have hpos := List.length_pos_of_ne_nil n.text_ne_nil
      obtain ⟨fuel, rfl⟩ := exists_fuel (by omega) hfuel
      rw [readValue_number, readNumber_text n hends]
      · rfl
      · rw [List.head?_append_of_ne_nil _ n.text_ne_nil]
        exact n.head
  | string hs =>
      intro fuel rest hfuel _
      have hpos := List.length_pos_of_ne_nil hs.ne_nil
      obtain ⟨fuel, rfl⟩ := exists_fuel (by omega) hfuel
      exact readValue_string hs fuel rest
  | @emptyArray w hw =>
      intro fuel rest hfuel _
      obtain ⟨fuel, rfl⟩ := exists_fuel (by simp) hfuel
      have htext : '[' :: w ++ [']'] ++ rest = '[' :: (w ++ ']' :: rest) := by simp
      rw [htext, readValue, skipWs_delimiter hw (by decide)]
      exact if_pos rfl
  | @array cs vs hes ih =>
      intro fuel rest hfuel _
      obtain ⟨fuel, rfl⟩ := exists_fuel (by simp) hfuel
      simp only [List.length_append, List.length_cons] at hfuel
      have htext : '[' :: cs ++ [']'] ++ rest = '[' :: (cs ++ ']' :: rest) := by simp
      rw [htext, readValue, if_neg (hes.elements_head _), ih fuel rest (by omega)]
      rfl
  | @emptyObject w hw =>
      intro fuel rest hfuel _
      obtain ⟨fuel, rfl⟩ := exists_fuel (by simp) hfuel
      have htext : '\x7b' :: w ++ ['\x7d'] ++ rest = '\x7b' :: (w ++ '\x7d' :: rest) := by
        simp
      rw [htext, readValue, skipWs_delimiter hw (by decide)]
      exact if_pos rfl
  | @object cs ms hms ih =>
      intro fuel rest hfuel _
      obtain ⟨fuel, rfl⟩ := exists_fuel (by simp) hfuel
      simp only [List.length_append, List.length_cons] at hfuel
      have htext : '\x7b' :: cs ++ ['\x7d'] ++ rest = '\x7b' :: (cs ++ '\x7d' :: rest) := by
        simp
      rw [htext, readValue, if_neg (hms.members_head _), ih fuel rest (by omega)]
      rfl
  | lastElement hw hv hw' ih =>
      intro fuel rest hfuel
      obtain ⟨fuel, rfl⟩ := exists_fuel (by omega) hfuel
      simp only [List.length_append] at hfuel
      have hends : ∀ rest, Ends (_ ++ ']' :: rest) := fun rest => ends_of_ws hw' (by simp)
      simp only [List.append_assoc]
      exact readElements_last hw hv hw' (ih fuel _ (by omega) (hends _))
  | element hw hv hw' hes ih ihs =>
      intro fuel rest hfuel
      obtain ⟨fuel, rfl⟩ := exists_fuel (by omega) hfuel
      simp only [List.length_append, List.length_cons] at hfuel
      have hends : ∀ rest, Ends (_ ++ ',' :: rest) := fun rest => ends_of_ws hw' (by simp)
      simp only [List.append_assoc, List.cons_append]
      rw [readElements_more hw hv hw' (ih fuel _ (by omega) (hends _)), ihs fuel rest (by omega)]
      rfl
  | lastMember hw hk hw₁ hw₂ hv hw₃ ih =>
      intro fuel rest hfuel
      obtain ⟨fuel, rfl⟩ := exists_fuel (by omega) hfuel
      simp only [List.length_append, List.length_cons] at hfuel
      have hends : ∀ rest, Ends (_ ++ '\x7d' :: rest) := fun rest => ends_of_ws hw₃ (by simp)
      simp only [List.append_assoc, List.cons_append]
      rw [readMembers_value hw hk hw₁ hw₂ hv (ih fuel _ (by omega) (hends _)),
        skipWs_delimiter hw₃ (by decide)]
      rfl
  | member hw hk hw₁ hw₂ hv hw₃ hms ih ihs =>
      intro fuel rest hfuel
      obtain ⟨fuel, rfl⟩ := exists_fuel (by omega) hfuel
      simp only [List.length_append, List.length_cons] at hfuel
      have hends : ∀ rest, Ends (_ ++ ',' :: rest) := fun rest => ends_of_ws hw₃ (by simp)
      simp only [List.append_assoc, List.cons_append]
      rw [readMembers_value hw hk hw₁ hw₂ hv (ih fuel _ (by omega) (hends _)),
        skipWs_delimiter hw₃ (by decide)]
      simp only [ihs fuel rest (by omega)]
      rfl

/-- **Every text of the grammar is read** as the value it denotes.  The fuel that `read`
starts with is enough, for it grows with the text. -/
theorem read_of_text {cs : List Char} {v : Value} (h : Text cs v) : read cs = some v := by
  obtain ⟨w, body, w', hw, hbody, hw', rfl⟩ := h
  have hfuel : 2 * body.length ≤ 2 * (w ++ (body ++ w')).length := by
    simp only [List.length_append]
    omega
  have hskip : skipWs w' = [] := by
    rw [← List.append_nil w', skipWs_append hw']
    rfl
  have hnil : Ends [] := by
    intro c hc
    cases hc
  have hends : Ends w' := List.append_nil w' ▸ hnil.append hw'
  unfold read
  rw [List.append_assoc, hbody.skipWs hw, hbody.reads _ _ hfuel hends]
  simp only [Option.bind_eq_bind, Option.bind_some, hskip, if_true]

/-- A text denotes one value. -/
theorem Text.unique {cs : List Char} {v v' : Value} (h : Text cs v) (h' : Text cs v') :
    v = v' :=
  Option.some.inj ((read_of_text h).symm.trans (read_of_text h'))

/-! ## What is no text -/

/-- A member without a value stops the reader. -/
theorem readMembers_none_of_value {fuel : ℕ} {w key w₁ rest : List Char} {k : PyStr}
    (hw : Ws w) (hk : StringLit key k) (hw₁ : Ws w₁)
    (h : readValue fuel (skipWs rest) = none) :
    readMembers (fuel + 1) (w ++ (key ++ (w₁ ++ ':' :: rest))) = none := by
  have hcolon : JsonText.skipWs (w₁ ++ ':' :: rest) = ':' :: rest :=
    skipWs_delimiter hw₁ (by decide)
  rw [readMembers, hk.skipWs hw, readString_append hk]
  simp only [Option.bind_eq_bind, Option.bind_some, hcolon, h, Option.bind_none]

/-- After a member with a string, what stops it on the rest stops it. -/
theorem readMembers_none_of_rest {w key w₁ w₂ cs w₃ rest : List Char} {k s : PyStr}
    (hw : Ws w) (hk : StringLit key k) (hw₁ : Ws w₁) (hw₂ : Ws w₂) (hs : StringLit cs s)
    (hw₃ : Ws w₃) (h : ∀ fuel, readMembers fuel rest = none) (fuel : ℕ) :
    readMembers fuel (w ++ (key ++ (w₁ ++ ':' :: (w₂ ++ (cs ++ (w₃ ++ ',' :: rest)))))) =
      none := by
  cases fuel with
  | zero => rfl
  | succ fuel =>
      cases fuel with
      | zero => exact readMembers_none_of_value hw hk hw₁ rfl
      | succ fuel =>
          have hvalue := Derives.string hs
          rw [readMembers_value hw hk hw₁ hw₂ hvalue (readValue_string hs fuel _),
            skipWs_delimiter hw₃ (by decide)]
          simp only [h, Option.map_none]

/-- An object whose members cannot be read is no text. -/
theorem not_text_of_members {cs : List Char} (hstart : (skipWs cs).head? ≠ some '\x7d')
    (h : ∀ fuel, readMembers fuel cs = none) (v : Value) : ¬Text ('\x7b' :: cs) v := by
  intro htext
  have hread := read_of_text htext
  have hskip : skipWs ('\x7b' :: cs) = '\x7b' :: cs := rfl
  have hnone : readValue (2 * cs.length + 1 + 1) ('\x7b' :: cs) = none := by
    rw [readValue, if_neg hstart, h]
    rfl
  unfold read at hread
  rw [hskip, List.length_cons, Nat.mul_succ, hnone] at hread
  cases hread

/-! ## What the readers leave -/

/-- Skipping white space makes a text no longer. With the lemmas below this bounds the
fuel by the length of the text. -/
theorem skipWs_length_le (cs : List Char) : (skipWs cs).length ≤ cs.length :=
  (List.dropWhile_suffix _).length_le

/-- Digits that are read are used up. -/
theorem readDigits_length {cs ds rest : List Char} (h : readDigits cs = some (ds, rest)) :
    rest.length < cs.length := by
  unfold readDigits at h
  split at h
  · cases h
  · next hne =>
    obtain ⟨rfl, rfl⟩ := Prod.mk.inj (Option.some.inj h)
    have hpos := List.length_pos_of_ne_nil hne
    have hlength := congrArg List.length (List.takeWhile_append_dropWhile (p := Char.isDigit)
      (l := cs))
    rw [List.length_append] at hlength
    omega

theorem readMinus_length (cs : List Char) : (readMinus cs).2.length ≤ cs.length := by
  unfold readMinus
  split <;> simp

theorem readSign_length (cs : List Char) : (readSign cs).2.length ≤ cs.length := by
  unfold readSign
  split <;> simp

/-- An escape is used up. -/
theorem readEscape_length {cs rest : List Char} {us : List ℕ}
    (h : readEscape cs = some (us, rest)) : rest.length < cs.length := by
  unfold readEscape at h
  split at h
  · obtain ⟨u, -, h⟩ := Option.bind_eq_some_iff.mp h
    obtain ⟨-, rfl⟩ := Prod.mk.inj (Option.some.inj h)
    simp only [List.length_cons]
    omega
  · obtain ⟨u, -, h⟩ := Option.bind_eq_some_iff.mp h
    obtain ⟨-, rfl⟩ := Prod.mk.inj (Option.some.inj h)
    simp
  · cases h

/-- A character of a string is used up. -/
theorem readCharLit_length {cs rest : List Char} {us : List ℕ}
    (h : readCharLit cs = some (us, rest)) : rest.length < cs.length := by
  unfold readCharLit at h
  split at h
  · cases h
  · split at h
    · have hlt := readEscape_length h
      simp only [List.length_cons]
      omega
    · split at h
      · obtain ⟨-, rfl⟩ := Prod.mk.inj (Option.some.inj h)
        simp
      · cases h

/-- The body of a string may be empty, but nothing is put back. -/
theorem readChars_length {fuel : ℕ} {cs rest : List Char} {units : List ℕ}
    (h : readChars fuel cs = some (units, rest)) : rest.length ≤ cs.length := by
  induction fuel generalizing cs units with
  | zero => cases h
  | succ fuel ih =>
      rw [readChars] at h
      split at h
      · obtain ⟨-, rfl⟩ := Prod.mk.inj (Option.some.inj h)
        simp
      · obtain ⟨⟨us, tail⟩, hchar, h⟩ := Option.bind_eq_some_iff.mp h
        obtain ⟨⟨more, left⟩, hmore, h⟩ := Option.bind_eq_some_iff.mp h
        obtain ⟨-, rfl⟩ := Prod.mk.inj (Option.some.inj h)
        have hlt := readCharLit_length hchar
        have hle := ih hmore
        omega

/-- A string uses up at least its quotes. -/
theorem readString_length {cs rest : List Char} {s : PyStr}
    (h : readString cs = some (s, rest)) : rest.length < cs.length := by
  unfold readString at h
  split at h
  · obtain ⟨⟨units, tail⟩, hchars, h⟩ := Option.bind_eq_some_iff.mp h
    obtain ⟨-, rfl⟩ := Prod.mk.inj (Option.some.inj h)
    have hle := readChars_length hchars
    simp only [List.length_cons]
    omega
  · cases h

/-! ## The code units of a string -/

/-- The code units read from a string literal have 16 bits. -/
theorem readCharLit_lt {cs rest : List Char} {us : List ℕ}
    (h : readCharLit cs = some (us, rest)) : ∀ u ∈ us, u < 0x10000 := by
  unfold readCharLit at h
  split at h
  · cases h
  · next c tail =>
    split at h
    · unfold readEscape at h
      split at h
      · obtain ⟨u, hu, h⟩ := Option.bind_eq_some_iff.mp h
        obtain ⟨rfl, -⟩ := Prod.mk.inj (Option.some.inj h)
        simpa using hexUnit?_lt hu
      · obtain ⟨u, hu, h⟩ := Option.bind_eq_some_iff.mp h
        obtain ⟨rfl, -⟩ := Prod.mk.inj (Option.some.inj h)
        simpa using escapeUnit?_lt hu
      · cases h
    · split at h
      · obtain ⟨rfl, -⟩ := Prod.mk.inj (Option.some.inj h)
        exact utf16_lt _
      · cases h

theorem readChars_lt {fuel : ℕ} {cs rest : List Char} {units : List ℕ}
    (h : readChars fuel cs = some (units, rest)) : ∀ u ∈ units, u < 0x10000 := by
  induction fuel generalizing cs rest units with
  | zero => cases h
  | succ fuel ih =>
      rw [readChars] at h
      split at h
      · obtain ⟨rfl, -⟩ := Prod.mk.inj (Option.some.inj h)
        simp
      · obtain ⟨⟨us, tail⟩, hchar, h⟩ := Option.bind_eq_some_iff.mp h
        obtain ⟨⟨more, left⟩, hmore, h⟩ := Option.bind_eq_some_iff.mp h
        obtain ⟨rfl, -⟩ := Prod.mk.inj (Option.some.inj h)
        intro u hu
        rcases List.mem_append.mp hu with hu | hu
        · exact readCharLit_lt hchar u hu
        · exact ih hmore u hu

/-- A string that was read has its surrogates paired, so it can be written and read
again. -/
theorem readString_paired {cs rest : List Char} {s : PyStr}
    (h : readString cs = some (s, rest)) : Paired s := by
  unfold readString at h
  split at h
  · obtain ⟨⟨units, tail⟩, hchars, h⟩ := Option.bind_eq_some_iff.mp h
    obtain ⟨rfl, -⟩ := Prod.mk.inj (Option.some.inj h)
    exact paired_ofUtf16 (readChars_lt hchars)
  · cases h

end JsonText

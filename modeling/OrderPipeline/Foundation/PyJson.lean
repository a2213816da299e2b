import OrderPipeline.Foundation.Binary64
import OrderPipeline.Foundation.JsonReader
import OrderPipeline.Foundation.PyDict

/-!
# `json.loads`

Python's decoder with its defaults.  It reads more than the JSON grammar: the names
`NaN`, `Infinity` and `-Infinity` are floats, a lone surrogate may be escaped, and a
repeated key overwrites.  A number with neither a point nor an exponent is an int,
with at most as many digits as the interpreter converts; every other one is the
nearest float.

Any exception is `none`.  The readers recurse on fuel, one more than twice the length
of the text, which is never used up (`scanOnce_enough`).  This is the decoder without a
limit on the nesting depth; `loadsWithin`, in `JsonNesting`, puts one on it.

`Scans text v` says that a text is read as `v` wherever it stands; there is one lemma
for each form of text, with any white space that a layout may put in.
-/

namespace PyJson

open JsonText

/-- What `json.loads` returns: dicts have string keys, in the order in which they
first came in. -/
inductive Value
  | none
  | bool (b : Bool)
  | int (n : ℤ)
  | float (x : PyFloat)
  | str (s : PyStr)
  | list (items : List Value)
  | dict (entries : List (PyStr × Value))

/-! ## Numbers and names -/

/-- The digits that `int(text)` accepts by default. -/
def maxStrDigits : ℕ := 4300

/-- `0|[1-9]\d*`. -/
def matchInt : List Char → Option (List Char × List Char)
  | '0' :: rest => some (['0'], rest)
  | cs => readDigits cs

/-- `(\.\d+)?`, without the point. -/
def matchFrac : List Char → List Char × List Char
  | '.' :: rest =>
      match readDigits rest with
      | some (frac, rest) => (frac, rest)
      | none => ([], '.' :: rest)
  | cs => ([], cs)

/-- `([eE][-+]?\d+)?`, as its value. -/
def matchExponent : List Char → Option ℤ × List Char
  | [] => (none, [])
  | c :: rest =>
      if c = 'e' ∨ c = 'E' then
        match readDigits (readSign rest).2 with
        | some (digits, tail) =>
            (some (if (readSign rest).1 = some '-' then -(natOf digits : ℤ)
              else natOf digits), tail)
        | none => (none, c :: rest)
      else (none, c :: rest)

/-- `_match_number`, and the conversion. -/
def matchNumber (cs : List Char) : Option (Value × List Char) := do
  let (negative, cs) := readMinus cs
  let (int, cs) ← matchInt cs
  let (frac, cs) := matchFrac cs
  let (exponent, cs) := matchExponent cs
  if frac = [] ∧ exponent = none then
    if maxStrDigits < int.length then none
    else some (.int (if negative then -(natOf int : ℤ) else natOf int), cs)
  else
    some (.float (PyFloat.ofDecimal (decimal negative int frac (exponent.getD 0))), cs)

/-- The names that stand for a value. -/
def names : List (List Char × Value) :=
  [("null".toList, .none), ("true".toList, .bool true), ("false".toList, .bool false),
    ("NaN".toList, .float .nan), ("Infinity".toList, .float .posInf),
    ("-Infinity".toList, .float .negInf)]

/-- The first name that the text begins with. -/
def matchName (cs : List Char) : Option (Value × List Char) :=
  names.findSome? fun entry =>
    if entry.1.isPrefixOf cs then some (entry.2, cs.drop entry.1.length) else none

/-! ## Values -/

mutual

/-- `scan_once`. -/
def scanOnce : ℕ → List Char → Option (Value × List Char)
  | 0, _ => none
  | fuel + 1, cs =>
      match cs with
      | '"' :: _ => do
          let (s, cs) ← readString cs
          some (.str s, cs)
      | '\x7b' :: cs =>
          if (skipWs cs).head? = some '\x7d' then some (.dict [], (skipWs cs).tail)
          else do
            let (entries, cs) ← parseObject fuel (skipWs cs)
            some (.dict (PyDict.ofPairs entries), cs)
      | '[' :: cs =>
          if (skipWs cs).head? = some ']' then some (.list [], (skipWs cs).tail)
          else do
            let (items, cs) ← parseArray fuel (skipWs cs)
            some (.list items, cs)
      | cs =>
          match matchName cs with
          | some found => some found
          | none => matchNumber cs

/-- The items of a list, and the bracket that closes it. -/
def parseArray : ℕ → List Char → Option (List Value × List Char)
  | 0, _ => none
  | fuel + 1, cs => do
      let (v, cs) ← scanOnce fuel cs
      match skipWs cs with
      | ']' :: cs => some ([v], cs)
      | ',' :: cs =>
          let (items, cs) ← parseArray fuel (skipWs cs)
          some (v :: items, cs)
      | _ => none

/-- The pairs of a dict, and the brace that closes it. -/
def parseObject : ℕ → List Char → Option (List (PyStr × Value) × List Char)
  | 0, _ => none
  | fuel + 1, cs => do
      let (key, cs) ← readString cs
      match skipWs cs with
      | ':' :: cs =>
          let (v, cs) ← scanOnce fuel (skipWs cs)
          match skipWs cs with
          | '\x7d' :: cs => some ([(key, v)], cs)
          | ',' :: cs =>
              let (entries, cs) ← parseObject fuel (skipWs cs)
              some ((key, v) :: entries, cs)
          | _ => none
      | _ => none

end

/-- `json.loads(text)`. -/
def loads (cs : List Char) : Option Value := do
  let (v, rest) ← scanOnce (2 * cs.length + 1) (skipWs cs)
  if skipWs rest = [] then some v else none

/-! ## Reading numbers -/

/-- The integer part of a numeral is matched as a whole, and a leading zero only by
itself. -/
theorem matchInt_append {int rest : List Char} (hint : Digits int)
    (hzero : int.head? = some '0' → int = ['0']) (hrest : NoDigit rest) :
    matchInt (int ++ rest) = some (int, rest) := by
  obtain ⟨d, tail, rfl, hd⟩ := hint.head
  by_cases h : d = '0'
  · subst h
    rw [hzero rfl]
    rfl
  · rw [List.cons_append]
    unfold matchInt
    split
    · next heq => exact absurd (List.cons.inj heq).1 h
    · exact readDigits_append hint hrest

/-- A fraction is matched with all its digits; without a digit behind it the point is
left. -/
theorem matchFrac_append {frac rest : List Char} (hfrac : ∀ c ∈ frac, c.isDigit = true)
    (hrest : ∀ c ∈ rest.head?, c.isDigit = false ∧ c ≠ '.') :
    matchFrac (fracText frac ++ rest) = (frac, rest) := by
  unfold fracText
  split
  · next hnil =>
    rw [hnil, List.nil_append]
    unfold matchFrac
    split
    · next heq => exact absurd rfl (hrest '.' rfl).2
    · rfl
  · next hne =>
    have hnoDigit : NoDigit rest := fun c hc => (hrest c hc).1
    rw [List.cons_append, matchFrac, readDigits_append ⟨hne, hfrac⟩ hnoDigit]

/-- An exponent is matched with all its digits, and where there is none nothing is. -/
theorem matchExponent_append (e : Option Exponent) {rest : List Char} (h : Ends rest) :
    matchExponent (exponentText e ++ rest) = (e.map Exponent.value, rest) := by
  cases e with
  | none =>
      cases rest with
      | nil => rfl
      | cons c rest =>
          obtain ⟨-, -, he, hE⟩ := h c rfl
          simp [exponentText, matchExponent, he, hE]
  | some e =>
      have hletter := e.letter_ok
      show matchExponent (e.text ++ rest) = _
      unfold Exponent.text
      rw [List.cons_append, List.cons_append, List.append_assoc, matchExponent, if_pos hletter,
        readSign_append e.sign_ok e.digits_ok]
      simp only [readDigits_append e.digits_ok h.noDigit]
      rfl

/-- What the text of a number is converted to. -/
def ofNumeral (m : Numeral) : Option Value :=
  if m.frac = [] ∧ m.exponent = none then
    if maxStrDigits < m.int.length then none
    else some (.int (if m.negative then -(natOf m.int : ℤ) else natOf m.int))
  else some (.float (PyFloat.ofDecimal m.value))

/-- A numeral of the grammar is matched whole: an integer without fraction and exponent
as an `int`, anything else as a `float`. -/
theorem matchNumber_append (m : Numeral) {rest : List Char} (h : Ends rest) :
    matchNumber (m.text ++ rest) = (ofNumeral m).map fun v => (v, rest) := by
  have hexp := head_exponentText (e := m.exponent) h
  have hnoDigit : NoDigit (exponentText m.exponent ++ rest) := fun c hc => (hexp c hc).1
  have htext : m.text ++ rest = (if m.negative then ['-'] else []) ++
      (m.int ++ (fracText m.frac ++ (exponentText m.exponent ++ rest))) := by
    simp only [Numeral.text, List.append_assoc]
  have hvalue : decimal m.negative m.int m.frac ((m.exponent.map Exponent.value).getD 0) =
      m.value := by
    unfold Numeral.value exponentValue
    cases m.exponent <;> rfl
  rw [htext, matchNumber, readMinus_append m.negative m.int_ok]
  simp only [matchInt_append m.int_ok m.int_zero (noDigit_fracText hnoDigit),
    Option.bind_eq_bind, Option.bind_some, matchFrac_append m.frac_ok hexp,
    matchExponent_append m.exponent h, hvalue, Option.map_eq_none_iff]
  unfold ofNumeral
  split
  · split <;> rfl
  · rfl

/-- A name begins with a letter, or with a minus sign and a letter. -/
theorem matchName_of_digit {d : Char} (hd : d.isDigit = true) (rest : List Char) :
    matchName (d :: rest) = none ∧ matchName ('-' :: d :: rest) = none := by
  have hne : ∀ c : Char, c.isDigit = false → c ≠ d := fun c hc => (ne_of_isDigit hd hc).symm
  have hnames : names = [(['n', 'u', 'l', 'l'], .none), (['t', 'r', 'u', 'e'], .bool true),
      (['f', 'a', 'l', 's', 'e'], .bool false), (['N', 'a', 'N'], .float .nan),
      (['I', 'n', 'f', 'i', 'n', 'i', 't', 'y'], .float .posInf),
      (['-', 'I', 'n', 'f', 'i', 'n', 'i', 't', 'y'], .float .negInf)] := rfl
  constructor <;>
    simp [matchName, hnames, hne 'n' rfl, hne 't' rfl, hne 'f' rfl, hne 'N' rfl, hne 'I' rfl,
      hne '-' rfl]

/-- No numeral begins like one of the names; `-Infinity` needs a letter after its sign. -/
theorem matchName_numeral (m : Numeral) (rest : List Char) :
    matchName (m.text ++ rest) = none := by
  obtain ⟨d, tail, hint, hd⟩ := m.int_ok.head
  cases hneg : m.negative with
  | false =>
      simp only [Numeral.text, hneg, hint]
      exact (matchName_of_digit hd _).1
  | true =>
      simp only [Numeral.text, hneg, hint]
      exact (matchName_of_digit hd _).2

/-! ## Texts that are read wherever they stand -/

/-- `text` is read as `v` before whatever does not continue a number, given fuel for
its length; it begins neither with white space nor with a closing bracket. -/
structure Scans (text : List Char) (v : Value) : Prop where
  start : ∃ c tail, text = c :: tail ∧ isWs c = false ∧ c ≠ ']'
  reads : ∀ fuel rest, 2 * text.length ≤ fuel → Ends rest →
    scanOnce fuel (text ++ rest) = some (v, rest)

/-- The white space before a text that is read is skipped, and nothing of the text. -/
theorem Scans.skipWs {w text : List Char} {v : Value} (h : Scans text v) (hw : Ws w)
    (rest : List Char) : JsonText.skipWs (w ++ (text ++ rest)) = text ++ rest := by
  obtain ⟨c, tail, rfl, hc, -⟩ := h.start
  exact skipWs_delimiter hw hc

/-- A text that begins like neither a string nor a list nor a dict. -/
theorem scanOnce_plain {fuel : ℕ} {c : Char} {rest : List Char} (hquote : c ≠ '"')
    (hbrace : c ≠ '\x7b') (hbracket : c ≠ '[') :
    scanOnce (fuel + 1) (c :: rest) =
      match matchName (c :: rest) with
      | some found => some found
      | none => matchNumber (c :: rest) := by
  unfold scanOnce
  split
  · next heq => exact absurd (List.cons.inj heq).1 hquote
  · next heq => exact absurd (List.cons.inj heq).1 hbrace
  · next heq => exact absurd (List.cons.inj heq).1 hbracket
  · rfl

/-- A number is read as its value, if that value can be built. -/
theorem scans_numeral {m : Numeral} {v : Value} (h : ofNumeral m = some v) :
    Scans m.text v := by
  obtain ⟨c, tail, htext⟩ := List.exists_cons_of_ne_nil m.text_ne_nil
  have hstart := m.head c (by rw [htext]; rfl)
  have hne : ∀ d : Char, d.isDigit = false → d ≠ '-' → c ≠ d := by
    rintro d hd hminus rfl
    rcases hstart with rfl | hdigit
    · exact hminus rfl
    · rw [hd] at hdigit
      cases hdigit
  refine ⟨⟨c, tail, htext, ?_, hne _ rfl (by decide)⟩, ?_⟩
  · simp [isWs, hne]
  · intro fuel rest hfuel hends
    obtain ⟨fuel, rfl⟩ := exists_fuel (by simp [htext]) hfuel
    have hname := matchName_numeral m rest
    have hnumber := matchNumber_append m hends
    rw [htext, List.cons_append] at hname hnumber ⊢
    rw [scanOnce_plain (hne _ rfl (by decide)) (hne _ rfl (by decide)) (hne _ rfl (by decide)),
      hname]
    simp only [hnumber, h, Option.map_some]

/-- The names are read as the values they stand for. -/
theorem scans_name {name : List Char} {v : Value} (h : (name, v) ∈ names) : Scans name v := by
  simp only [names, List.mem_cons, Prod.mk.injEq, List.not_mem_nil, or_false] at h
  rcases h with ⟨rfl, rfl⟩ | ⟨rfl, rfl⟩ | ⟨rfl, rfl⟩ | ⟨rfl, rfl⟩ | ⟨rfl, rfl⟩ | ⟨rfl, rfl⟩
  all_goals
    refine ⟨⟨_, _, rfl, by decide, by decide⟩, ?_⟩
    intro fuel rest hfuel _
    obtain ⟨fuel, rfl⟩ := exists_fuel (by decide) hfuel
    rfl

/-- A string literal is read as its string. -/
theorem scans_string {text : List Char} {s : PyStr} (h : StringLit text s) :
    Scans text (.str s) := by
  obtain ⟨tail, htext⟩ := h.head
  refine ⟨⟨_, tail, htext, by decide, by decide⟩, ?_⟩
  intro fuel rest hfuel _
  obtain ⟨fuel, rfl⟩ := exists_fuel (by simp [htext]) hfuel
  have hread := readString_append h rest
  rw [htext, List.cons_append] at hread ⊢
  rw [scanOnce, hread]
  rfl

/-! ## Lists and dicts -/

/-- The last element of an array, with the bracket that closes it. -/
theorem parseArray_last {fuel : ℕ} {text w rest : List Char} {v : Value} (h : Scans text v)
    (hfuel : 2 * text.length ≤ fuel) (hw : Ws w) :
    parseArray (fuel + 1) (text ++ (w ++ ']' :: rest)) = some ([v], rest) := by
  have hclose : JsonText.skipWs (w ++ ']' :: rest) = ']' :: rest :=
    skipWs_delimiter hw (by decide)
  rw [parseArray, h.reads fuel _ hfuel (ends_of_ws hw (by simp))]
  simp only [Option.bind_eq_bind, Option.bind_some, hclose]

/-- An element with a comma after it; blanks after the comma are skipped. -/
theorem parseArray_more {fuel : ℕ} {text rest : List Char} {v : Value} (h : Scans text v)
    (hfuel : 2 * text.length ≤ fuel) :
    parseArray (fuel + 1) (text ++ ',' :: rest) =
      (parseArray fuel (JsonText.skipWs rest)).map fun p => (v :: p.1, p.2) := by
  have hends : Ends (',' :: rest) := ends_of_ws (w := []) (by simp [Ws]) (by simp)
  have hcomma : JsonText.skipWs (',' :: rest) = ',' :: rest := by
    apply skipWs_eq_self
    simp [isWs]
  rw [parseArray, h.reads fuel _ hfuel hends]
  simp only [Option.bind_eq_bind, Option.bind_some, hcomma]
  cases parseArray fuel (JsonText.skipWs rest) <;> rfl

/-- Joined texts begin with the first of them. -/
theorem intercalate_cons_eq (sep text : List Char) (texts : List (List Char)) :
    ∃ tail, List.intercalate sep (text :: texts) = text ++ tail := by
  cases texts with
  | nil => exact ⟨[], by simp⟩
  | cons next texts =>
      exact ⟨sep ++ List.intercalate sep (next :: texts), by
        rw [List.intercalate_cons_cons, List.append_assoc]⟩

/-- Items with a comma and white space between them are read to the closing bracket.  By
induction on the items, for any fuel that is enough for the text. -/
theorem parseArray_items {w w' : List Char} (hw : Ws w) (hw' : Ws w')
    {texts : List (List Char)} {vs : List Value} (h : List.Forall₂ Scans texts vs)
    (hne : texts ≠ []) (fuel : ℕ) (rest : List Char)
    (hfuel : 2 * (List.intercalate (',' :: w) texts).length + 1 ≤ fuel) :
    parseArray fuel (List.intercalate (',' :: w) texts ++ (w' ++ ']' :: rest)) =
      some (vs, rest) := by
  induction h generalizing fuel with
  | nil => exact absurd rfl hne
  | @cons text v texts vs htext htexts ih =>
      obtain ⟨fuel, rfl⟩ := exists_fuel (by omega) hfuel
      cases texts with
      | nil =>
          cases htexts
          rw [List.intercalate_singleton] at hfuel ⊢
          exact parseArray_last htext (by omega) hw'
      | cons next texts =>
          obtain ⟨v', hnext⟩ : ∃ v', Scans next v' := by
            cases htexts with
            | cons hnext _ => exact ⟨_, hnext⟩
          obtain ⟨tail, htail⟩ := intercalate_cons_eq (',' :: w) next texts
          rw [List.intercalate_cons_cons] at hfuel ⊢
          simp only [List.length_append, List.length_cons] at hfuel
          have hrest := ih (List.cons_ne_nil _ _) fuel (by omega)
          have hskip : JsonText.skipWs (w ++ (List.intercalate (',' :: w) (next :: texts) ++
              (w' ++ ']' :: rest))) =
              List.intercalate (',' :: w) (next :: texts) ++ (w' ++ ']' :: rest) := by
            rw [htail, List.append_assoc]
            exact hnext.skipWs hw _
          simp only [List.append_assoc, List.cons_append]
          rw [parseArray_more htext (by omega), hskip, hrest]
          rfl

/-- A list with items, laid out with white space, is read as the list of their values. -/
theorem scans_list {w₀ w w' : List Char} (hw₀ : Ws w₀) (hw : Ws w) (hw' : Ws w')
    {texts : List (List Char)} {vs : List Value} (h : List.Forall₂ Scans texts vs)
    (hne : texts ≠ []) :
    Scans ('[' :: w₀ ++ List.intercalate (',' :: w) texts ++ w' ++ [']']) (.list vs) := by
  refine ⟨⟨_, _, rfl, by decide, by decide⟩, ?_⟩
  intro fuel rest hfuel _
  obtain ⟨fuel, rfl⟩ := exists_fuel (by simp) hfuel
  simp only [List.length_append, List.length_cons] at hfuel
  have hitems := parseArray_items hw hw' h hne fuel rest (by omega)
  obtain ⟨text, texts, rfl⟩ := List.exists_cons_of_ne_nil hne
  obtain ⟨v, hfirst⟩ : ∃ v, Scans text v := by
    cases h with
    | cons hfirst _ => exact ⟨_, hfirst⟩
  obtain ⟨tail, htail⟩ := intercalate_cons_eq (',' :: w) text texts
  obtain ⟨c, cs, rfl, hc, hbracket⟩ := hfirst.start
  rw [htail] at hitems ⊢
  have hskip := hfirst.skipWs hw₀ (tail ++ (w' ++ ']' :: rest))
  have hshape : '[' :: w₀ ++ (c :: cs ++ tail) ++ w' ++ [']'] ++ rest =
      '[' :: (w₀ ++ (c :: cs ++ (tail ++ (w' ++ ']' :: rest)))) := by simp
  rw [List.append_assoc] at hitems
  rw [hshape, scanOnce, hskip, hitems]
  rw [if_neg (by intro heq; exact hbracket (Option.some.inj heq))]
  rfl

/-- The text of an entry: a key, a colon, a blank and a value. -/
def ScansEntry (text : List Char) (entry : PyStr × Value) : Prop :=
  ∃ key value, text = key ++ ':' :: ' ' :: value ∧ StringLit key entry.1 ∧
    Scans value entry.2

/-- An entry, up to what comes after it: a brace ends the object, and a comma asks for
another entry. -/
theorem parseObject_entry {fuel : ℕ} {text rest : List Char} {entry : PyStr × Value}
    (h : ScansEntry text entry) (hfuel : 2 * text.length ≤ fuel) (hrest : Ends rest) :
    parseObject (fuel + 1) (text ++ rest) =
      match JsonText.skipWs rest with
      | '\x7d' :: rest => some ([entry], rest)
      | ',' :: rest =>
          (parseObject fuel (JsonText.skipWs rest)).map fun p => (entry :: p.1, p.2)
      | _ => none := by
  obtain ⟨key, value, rfl, hkey, hvalue⟩ := h
  have hcolon : JsonText.skipWs (':' :: ' ' :: (value ++ rest)) =
      ':' :: ' ' :: (value ++ rest) := by
    apply skipWs_eq_self
    simp [isWs]
  have hblank : Ws [' '] := by simp [Ws, isWs]
  have hskip : JsonText.skipWs (' ' :: (value ++ rest)) = value ++ rest :=
    hvalue.skipWs hblank rest
  simp only [List.length_append, List.length_cons] at hfuel
  simp only [List.append_assoc, List.cons_append]
  rw [parseObject, readString_append hkey]
  simp only [Option.bind_eq_bind, Option.bind_some, hcolon, hskip,
    hvalue.reads fuel rest (by omega) hrest]
  generalize JsonText.skipWs rest = tail
  split
  · rfl
  · next rest =>
    show _ = (parseObject fuel (JsonText.skipWs rest)).map fun p => (entry :: p.1, p.2)
    cases parseObject fuel (JsonText.skipWs rest) <;> rfl
  · simp_all

/-- The first entry after white space. -/
theorem ScansEntry.skipWs {w text : List Char} {entry : PyStr × Value}
    (h : ScansEntry text entry) (hw : Ws w) (rest : List Char) :
    JsonText.skipWs (w ++ (text ++ rest)) = text ++ rest := by
  obtain ⟨key, value, rfl, hkey, -⟩ := h
  obtain ⟨tail, rfl⟩ := hkey.head
  exact skipWs_delimiter hw (by decide)

/-- Entries with a comma and white space between them are read to the closing brace.
The induction is that for the items of an array. -/
theorem parseObject_entries {w w' : List Char} (hw : Ws w) (hw' : Ws w')
    {texts : List (List Char)} {entries : List (PyStr × Value)}
    (h : List.Forall₂ ScansEntry texts entries) (hne : texts ≠ []) (fuel : ℕ)
    (rest : List Char)
    (hfuel : 2 * (List.intercalate (',' :: w) texts).length + 1 ≤ fuel) :
    parseObject fuel (List.intercalate (',' :: w) texts ++ (w' ++ '\x7d' :: rest)) =
      some (entries, rest) := by
  induction h generalizing fuel with
  | nil => exact absurd rfl hne
  | @cons text entry texts entries htext htexts ih =>
      obtain ⟨fuel, rfl⟩ := exists_fuel (by omega) hfuel
      cases texts with
      | nil =>
          cases htexts
          have hclose : JsonText.skipWs (w' ++ '\x7d' :: rest) = '\x7d' :: rest :=
            skipWs_delimiter hw' (by decide)
          rw [List.intercalate_singleton] at hfuel ⊢
          rw [parseObject_entry htext (by omega) (ends_of_ws hw' (by simp)), hclose]
          rfl
      | cons next texts =>
          obtain ⟨entry', hnext⟩ : ∃ entry', ScansEntry next entry' := by
            cases htexts with
            | cons hnext _ => exact ⟨_, hnext⟩
          obtain ⟨tail, htail⟩ := intercalate_cons_eq (',' :: w) next texts
          rw [List.intercalate_cons_cons] at hfuel ⊢
          simp only [List.length_append, List.length_cons] at hfuel
          have hrest := ih (List.cons_ne_nil _ _) fuel (by omega)
          have hends : ∀ cs, Ends (',' :: cs) := fun cs => ends_of_ws (w := []) (by simp [Ws])
            (by simp)
          have hcomma : ∀ cs, JsonText.skipWs (',' :: cs) = ',' :: cs := by
            intro cs
            apply skipWs_eq_self
            simp [isWs]
          have hskip : JsonText.skipWs (w ++ (List.intercalate (',' :: w) (next :: texts) ++
              (w' ++ '\x7d' :: rest))) =
              List.intercalate (',' :: w) (next :: texts) ++ (w' ++ '\x7d' :: rest) := by
            rw [htail, List.append_assoc]
            exact hnext.skipWs hw _
          simp only [List.append_assoc, List.cons_append]
          rw [parseObject_entry htext (by omega) (hends _), hcomma]
          simp only [hskip, hrest, Option.map_some]

/-- A dict with entries, laid out with white space; a repeated key overwrites. -/
theorem scans_dict {w₀ w w' : List Char} (hw₀ : Ws w₀) (hw : Ws w) (hw' : Ws w')
    {texts : List (List Char)} {entries : List (PyStr × Value)}
    (h : List.Forall₂ ScansEntry texts entries) (hne : texts ≠ []) :
    Scans ('\x7b' :: w₀ ++ List.intercalate (',' :: w) texts ++ w' ++ ['\x7d'])
      (.dict (PyDict.ofPairs entries)) := by
  refine ⟨⟨_, _, rfl, by decide, by decide⟩, ?_⟩
  intro fuel rest hfuel _
  obtain ⟨fuel, rfl⟩ := exists_fuel (by simp) hfuel
  simp only [List.length_append, List.length_cons] at hfuel
  have hentries := parseObject_entries hw hw' h hne fuel rest (by omega)
  obtain ⟨text, texts, rfl⟩ := List.exists_cons_of_ne_nil hne
  obtain ⟨entry, hfirst⟩ : ∃ entry, ScansEntry text entry := by
    cases h with
    | cons hfirst _ => exact ⟨_, hfirst⟩
  obtain ⟨tail, htail⟩ := intercalate_cons_eq (',' :: w) text texts
  rw [htail] at hentries ⊢
  have hskip := hfirst.skipWs hw₀ (tail ++ (w' ++ '\x7d' :: rest))
  have hstart : (text ++ (tail ++ (w' ++ '\x7d' :: rest))).head? ≠ some '\x7d' := by
    obtain ⟨key, value, rfl, hkey, -⟩ := hfirst
    obtain ⟨keyTail, rfl⟩ := hkey.head
    intro heq
    exact absurd (Option.some.inj heq) (by decide)
  have hshape : '\x7b' :: w₀ ++ (text ++ tail) ++ w' ++ ['\x7d'] ++ rest =
      '\x7b' :: (w₀ ++ (text ++ (tail ++ (w' ++ '\x7d' :: rest)))) := by simp
  rw [List.append_assoc] at hentries
  rw [hshape, scanOnce, hskip, if_neg hstart, hentries]
  rfl

/-- The brackets of an empty array. -/
theorem scans_emptyList : Scans ['[', ']'] (.list []) := by
  refine ⟨⟨_, _, rfl, by decide, by decide⟩, ?_⟩
  intro fuel rest hfuel _
  obtain ⟨fuel, rfl⟩ := exists_fuel (by decide) hfuel
  rfl

/-- The braces of an empty object. -/
theorem scans_emptyDict : Scans ['\x7b', '\x7d'] (.dict []) := by
  refine ⟨⟨_, _, rfl, by decide, by decide⟩, ?_⟩
  intro fuel rest hfuel _
  obtain ⟨fuel, rfl⟩ := exists_fuel (by decide) hfuel
  rfl

/-- **A text that is read wherever it stands is loaded**, with white space around it.
The length of the text is the fuel. -/
theorem loads_of_scans {w text w' : List Char} {v : Value} (h : Scans text v) (hw : Ws w)
    (hw' : Ws w') : loads (w ++ text ++ w') = some v := by
  have hskip : JsonText.skipWs w' = [] := by
    rw [← List.append_nil w', skipWs_append hw']
    rfl
  have hnil : Ends [] := by
    intro c hc
    cases hc
  have hends : Ends w' := List.append_nil w' ▸ hnil.append hw'
  have hfuel : 2 * text.length ≤ 2 * (w ++ (text ++ w')).length + 1 := by
    simp only [List.length_append]
    omega
  unfold loads
  rw [List.append_assoc, h.skipWs hw, h.reads _ _ hfuel hends]
  simp only [Option.bind_eq_bind, Option.bind_some, hskip, if_true]

end PyJson

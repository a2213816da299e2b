import OrderPipeline.Foundation.PyJsonValues
import OrderPipeline.PayloadText

/-!
# Writing and loading JSON

`json.loads` against the two forms in which this program writes JSON:

* the compact text of `json.dumps(value, default=str)` is read as what JSON keeps of the
  value (`scans_dumps`): leaves that are not serialisable are strings, keys are strings,
  and of equal keys the last one counts;
* the text of `json.dumps(value, indent=2)` of a loaded value is read as that value, at
  every nesting level (`scans_dumpsIndent`).

What is loaded and written again is loaded as the same value (`decoded_toPy`).
-/

namespace OrderPipeline

open JsonText PyStr

namespace Json

/-- A new line at a nesting level, two blanks for each. -/
def newline (level : ℕ) : List Char := '\n' :: List.replicate (2 * level) ' '

/-- Items between two brackets, each on a line of its own; nothing between them if
there are no items. -/
def enclose (opening closing : Char) (level : ℕ) (texts : List (List Char)) : List Char :=
  if texts = [] then [opening, closing]
  else
    opening :: newline (level + 1) ++ List.intercalate (',' :: newline (level + 1)) texts ++
      newline level ++ [closing]

mutual

/-- `json.dumps(value, indent=2)` inside `level` brackets, for what `json.loads`
returns. -/
def dumpsIndent (level : ℕ) : PyJson.Value → List Char
  | .none => "null".toList
  | .bool b => dumpsBool b
  | .int n => (toString n).toList
  | .float x => dumpsFloat x
  | .str s => dumpsStr s
  | .list items => enclose '[' ']' level (indentItems (level + 1) items)
  | .dict entries => enclose '\x7b' '\x7d' level (indentEntries (level + 1) entries)

/-- The items of a list, each at the level given. -/
def indentItems (level : ℕ) : List PyJson.Value → List (List Char)
  | [] => []
  | v :: rest => dumpsIndent level v :: indentItems level rest

/-- The entries of a dict: the key, and the value at the level given. -/
def indentEntries (level : ℕ) : List (PyStr × PyJson.Value) → List (List Char)
  | [] => []
  | (key, v) :: rest => (dumpsStr key ++ ':' :: ' ' :: dumpsIndent level v) ::
      indentEntries level rest

end

/-! ## Leaves -/

/-- What `dumps` writes for a string is read as its code units pair up. -/
theorem stringLit_units (s : PyStr) : StringLit (dumpsStr s) (ofUtf16 (s.flatMap utf16)) :=
  ⟨s.flatMap escape, s.flatMap utf16, rfl, flatMap_escape_chars s, rfl⟩

/-- A string whose surrogates are paired is dumped as a literal of itself. -/
theorem stringLit_paired {s : PyStr} (h : Paired s) : StringLit (dumpsStr s) s := by
  have hunits := stringLit_units s
  rwa [h] at hunits

/-- The text of an integer as a number of the grammar. -/
def intNumeral (n : ℤ) : Numeral where
  negative := n < 0
  int := Nat.toDigits 10 n.natAbs
  frac := []
  exponent := none
  int_ok := PyFloat.digits_toDigits _
  int_zero := by
    intro hzero
    rcases Nat.eq_zero_or_pos n.natAbs with heq | hpos
    · rw [heq]
      rfl
    · exact absurd hzero (PyFloat.head_toDigits hpos)
  frac_ok := nofun

/-- The numeral of an integer is written as Python writes the integer. -/
theorem intNumeral_text (n : ℤ) : (intNumeral n).text = (toString n).toList := by
  have hrepr : toString n = n.repr := rfl
  rw [hrepr, Int.repr_eq_if]
  split
  · next hn =>
    have habs : n.natAbs = n.toNat := by omega
    simp [Numeral.text, intNumeral, fracText, exponentText, Nat.toList_repr, not_lt.mpr hn, habs]
  · next hn =>
    have habs : n.natAbs = (-n).toNat := by omega
    simp [Numeral.text, intNumeral, fracText, exponentText, Nat.toList_repr, not_le.mp hn, habs,
      String.toList_append]

/-- An integer that Python converts back is read as it. -/
theorem scans_int {n : ℤ} (h : n.natAbs < 10 ^ PyJson.maxStrDigits) :
    PyJson.Scans (toString n).toList (.int n) := by
  rw [← intNumeral_text]
  apply PyJson.scans_numeral
  have hlength : (intNumeral n).int.length ≤ PyJson.maxStrDigits :=
    (Nat.length_toDigits_le_iff (by decide) (by decide)).mpr h
  unfold PyJson.ofNumeral
  rw [if_pos ⟨rfl, rfl⟩, if_neg (not_lt.mpr hlength)]
  simp only [intNumeral, PyFloat.natOf_toDigits, decide_eq_true_eq]
  split <;> congr 2 <;> omega

/-- The text of a finite float has a point or an exponent. -/
theorem mark_mem_layout (digits : ℕ) (exponent : ℤ) :
    '.' ∈ (PyFloat.layout digits exponent).toList ∨
      'e' ∈ (PyFloat.layout digits exponent).toList := by
  unfold PyFloat.layout
  simp only
  split
  · left
    rw [String.toList_ofList]
    split
    · simp
    · split <;> simp
  · right
    rw [String.toList_ofList]
    simp

/-- The `repr` of a float has a point or an exponent; this is what tells it from an
`int` when it is read again. -/
theorem mark_mem_repr (q : ℚ) :
    '.' ∈ (PyFloat.repr (.finite q)).toList ∨ 'e' ∈ (PyFloat.repr (.finite q)).toList := by
  by_cases hq : q = 0
  · rw [hq]
    decide
  · rw [PyFloat.repr, if_neg hq, String.toList_append]
    simp only [List.mem_append]
    have hmark := mark_mem_layout (PyFloat.shortestDigits |q|).1 (PyFloat.shortestDigits |q|).2
    tauto

/-- Without a point and an exponent a number has digits only, after its sign. -/
theorem mem_text_of_int {m : Numeral} (hfrac : m.frac = []) (hexponent : m.exponent = none)
    {c : Char} (hc : c ∈ m.text) : c = '-' ∨ c.isDigit = true := by
  unfold Numeral.text at hc
  rw [hfrac, hexponent] at hc
  simp only [fracText, exponentText, if_true, List.append_nil, List.mem_append] at hc
  rcases hc with hc | hc
  · split at hc
    · exact Or.inl (List.mem_singleton.mp hc)
    · cases hc
  · exact Or.inr (m.int_ok.2 c hc)

/-- A float is read as it, NaN and the infinities included: these are names to the
reader, though no JSON. -/
theorem scans_float {x : PyFloat} (h : ∀ q, x = .finite q → PyFloat.IsBinary64 q) :
    PyJson.Scans (dumpsFloat x) (.float x) := by
  cases x with
  | posInf =>
      show PyJson.Scans "Infinity".toList _
      exact PyJson.scans_name (by simp [PyJson.names])
  | negInf =>
      show PyJson.Scans "-Infinity".toList _
      exact PyJson.scans_name (by simp [PyJson.names])
  | nan =>
      show PyJson.Scans "NaN".toList _
      exact PyJson.scans_name (by simp [PyJson.names])
  | finite q =>
      obtain ⟨m, htext, hvalue⟩ := PyFloat.repr_numeral (h q rfl)
      have hfloat : ¬(m.frac = [] ∧ m.exponent = none) := by
        intro hint
        have hplain := fun c => mem_text_of_int (c := c) hint.1 hint.2
        rw [htext] at hplain
        rcases mark_mem_repr q with hmark | hmark
        · exact absurd (hplain _ hmark) (by decide)
        · exact absurd (hplain _ hmark) (by decide)
      show PyJson.Scans (PyFloat.repr (.finite q)).toList _
      rw [← htext]
      apply PyJson.scans_numeral
      unfold PyJson.ofNumeral
      rw [if_neg hfloat, hvalue]

/-! ## Layouts -/

/-- The line breaks of the layout are white space to a reader. -/
theorem ws_newline (level : ℕ) : Ws (newline level) := by
  intro c hc
  rcases List.mem_cons.mp hc with rfl | hblank
  · rfl
  · rw [List.eq_of_mem_replicate hblank]
    rfl

/-- The elements of an array, laid out, are read one by one, given that each of them is
(the induction hypothesis). -/
theorem scans_indentItems {level : ℕ} {items : List PyJson.Value}
    (h : ∀ v ∈ items, PyJson.Scans (dumpsIndent level v) v) :
    List.Forall₂ PyJson.Scans (indentItems level items) items := by
  induction items with
  | nil => exact List.Forall₂.nil
  | cons v items ih =>
      rw [List.forall_mem_cons] at h
      rw [indentItems]
      exact List.Forall₂.cons h.1 (ih h.2)

/-- The same for the entries of an object, whose keys must be readable too. -/
theorem scans_indentEntries {level : ℕ} {entries : List (PyStr × PyJson.Value)}
    (hkey : ∀ entry ∈ entries, Paired entry.1)
    (h : ∀ entry ∈ entries, PyJson.Scans (dumpsIndent level entry.2) entry.2) :
    List.Forall₂ PyJson.ScansEntry (indentEntries level entries) entries := by
  induction entries with
  | nil => exact List.Forall₂.nil
  | cons entry entries ih =>
      rw [List.forall_mem_cons] at hkey h
      rw [indentEntries]
      exact List.Forall₂.cons ⟨_, _, rfl, stringLit_paired hkey.1, h.1⟩ (ih hkey.2 h.2)

/-- **What `dumps` writes with an indent is read as the value**, at every level.  By
induction on the value; the members are read one level further in. -/
theorem scans_dumpsIndent {v : PyJson.Value} (h : PyJson.Loaded v) (level : ℕ) :
    PyJson.Scans (dumpsIndent level v) v := by
  induction h generalizing level with
  | none => exact PyJson.scans_name (by simp [PyJson.names, dumpsIndent])
  | bool b =>
      cases b <;> exact PyJson.scans_name (by simp [PyJson.names, dumpsIndent, dumpsBool])
  | int hn => exact scans_int hn
  | float hx => exact scans_float hx
  | str hs => exact PyJson.scans_string (stringLit_paired hs)
  | @list items _ ih =>
      have hitems := scans_indentItems fun v hv => ih v hv (level + 1)
      rw [dumpsIndent, enclose]
      split
      · next hnil =>
        rw [hnil] at hitems
        cases hitems
        exact PyJson.scans_emptyList
      · next hne =>
        exact PyJson.scans_list (ws_newline _) (ws_newline _) (ws_newline _) hitems hne
  | @dict entries hnodup hkeys _ ih =>
      have hentries := scans_indentEntries hkeys fun entry he => ih entry he (level + 1)
      rw [dumpsIndent, enclose]
      split
      · next hnil =>
        rw [hnil] at hentries
        cases hentries
        exact PyJson.scans_emptyDict
      · next hne =>
        have hdict := PyJson.scans_dict (ws_newline (level + 1)) (ws_newline (level + 1))
          (ws_newline level) hentries hne
        rwa [PyDict.ofPairs_of_nodup hnodup] at hdict

/-- Loading what was loaded and written again gives it back, wherever the layout begins. -/
theorem loads_dumpsIndent {v : PyJson.Value} (h : PyJson.Loaded v) (level : ℕ) {w : List Char}
    (hw : Ws w) : PyJson.loads (w ++ dumpsIndent level v) = some v := by
  have hloads := PyJson.loads_of_scans (scans_dumpsIndent h level) hw ws_nil
  rwa [List.append_nil] at hloads

/-! ## What the compact text is read as -/

/-- The string that JSON keeps of a string: code units that pair up are joined. -/
def reread (s : PyStr) : PyStr := ofUtf16 (s.flatMap utf16)

/-- The string that stands for a key once it has been written and read. -/
def keyText : PyKey → PyStr
  | .str s => reread s
  | .int n => (toString n).toList.map ofChar
  | .float x => (dumpsFloat x).map ofChar
  | .bool b => (dumpsBool b).map ofChar
  | .none => "null".toList.map ofChar
  | .other _ => []

mutual

/-- What is left of a value that has been written and read: `default=str` leaves
strings, keys become strings, and of keys that become equal the last one counts. -/
def decoded : PyValue → PyJson.Value
  | .none => .none
  | .bool b => .bool b
  | .int n => .int n
  | .float x => .float x
  | .str s => .str (reread s)
  | .object text => .str (reread text)
  | .list items => .list (decodedItems items)
  | .dict entries => .dict (PyDict.ofPairs (decodedEntries entries))

def decodedItems : List PyValue → List PyJson.Value
  | [] => []
  | v :: rest => decoded v :: decodedItems rest

def decodedEntries : List (PyKey × PyValue) → List (PyStr × PyJson.Value)
  | [] => []
  | (k, v) :: rest => (keyText k, decoded v) :: decodedEntries rest

end

/-- The keys that `json.dumps` accepts, with numbers that Python has and converts. -/
def KeyDumpable : PyKey → Prop
  | .int n => n.natAbs < 10 ^ PyJson.maxStrDigits
  | .float x => ∀ q, x = .finite q → PyFloat.IsBinary64 q
  | .other _ => False
  | _ => True

/-- The values that `json.dumps` accepts, with numbers that Python has and converts. -/
inductive Dumpable : PyValue → Prop
  | none : Dumpable .none
  | bool (b : Bool) : Dumpable (.bool b)
  | int {n : ℤ} : n.natAbs < 10 ^ PyJson.maxStrDigits → Dumpable (.int n)
  | float {x : PyFloat} : (∀ q, x = .finite q → PyFloat.IsBinary64 q) → Dumpable (.float x)
  | str (s : PyStr) : Dumpable (.str s)
  | object (text : PyStr) : Dumpable (.object text)
  | list {items : List PyValue} : (∀ v ∈ items, Dumpable v) → Dumpable (.list items)
  | dict {entries : List (PyKey × PyValue)} : (∀ entry ∈ entries, KeyDumpable entry.1) →
      (∀ entry ∈ entries, Dumpable entry.2) → Dumpable (.dict entries)

/-- A character that stands for itself inside a string. -/
def Plain (c : Char) : Prop := 0x20 ≤ c.toNat ∧ c.toNat ≤ 0x7e ∧ c ≠ '"' ∧ c ≠ '\\'

/-- Characters that stand for themselves, between quotes, are a literal of themselves. -/
theorem stringLit_plain {cs : List Char} (h : ∀ c ∈ cs, Plain c) :
    StringLit ('"' :: cs ++ ['"']) (cs.map ofChar) := by
  have hchars : Chars cs ((cs.map ofChar).flatMap utf16) := by
    induction cs with
    | nil => exact Chars.nil
    | cons c cs ih =>
        rw [List.forall_mem_cons] at h
        obtain ⟨⟨hlow, -, hquote, hbackslash⟩, hrest⟩ := h
        exact Chars.cons (CharLit.unescaped c hlow hquote hbackslash) (ih hrest)
  have hsurrogate : ∀ c ∈ cs.map ofChar, isSurrogate c = false := by
    intro c hc
    obtain ⟨ch, -, rfl⟩ := List.mem_map.mp hc
    rw [← toChar?_isSome_iff, toChar?_ofChar]
    rfl
  exact ⟨cs, _, rfl, hchars, (ofUtf16_flatMap_utf16 hsurrogate).symm⟩

theorem plain_of_isDigit {c : Char} (h : c.isDigit = true) : Plain c := by
  have hne : ∀ d : Char, d.isDigit = false → c ≠ d := fun d => ne_of_isDigit h
  simp only [Char.isDigit, Bool.and_eq_true, decide_eq_true_eq] at h
  have hlow : 48 ≤ c.toNat := h.1
  have hhigh : c.toNat ≤ 57 := h.2
  exact ⟨by omega, by omega, hne _ rfl, hne _ rfl⟩

/-- Every character of a numeral stands for itself, which makes a number fit to be a key. -/
theorem plain_of_mem_text {m : Numeral} {c : Char} (hc : c ∈ m.text) : Plain c := by
  have hmarks : ∀ c ∈ ['-', '+', '.', 'e', 'E'], Plain c := by
    simp [Plain]
  rcases m.mem_text hc with hdigit | hmark
  · exact plain_of_isDigit hdigit
  · exact hmarks c hmark

/-- The text of an integer, as a key. -/
theorem plain_toString (n : ℤ) : ∀ c ∈ (toString n).toList, Plain c := by
  rw [← intNumeral_text]
  exact fun c => plain_of_mem_text

/-- The text of a float, as a key; NaN and the infinities are letters and a sign. -/
theorem plain_dumpsFloat {x : PyFloat} (h : ∀ q, x = .finite q → PyFloat.IsBinary64 q) :
    ∀ c ∈ dumpsFloat x, Plain c := by
  cases x with
  | posInf => show ∀ c ∈ "Infinity".toList, Plain c; simp [Plain]
  | negInf => show ∀ c ∈ "-Infinity".toList, Plain c; simp [Plain]
  | nan => show ∀ c ∈ "NaN".toList, Plain c; simp [Plain]
  | finite q =>
      obtain ⟨m, htext, -⟩ := PyFloat.repr_numeral (h q rfl)
      show ∀ c ∈ (PyFloat.repr (.finite q)).toList, Plain c
      rw [← htext]
      exact fun c => plain_of_mem_text

/-- A key is written as the string that stands for it. -/
theorem dumpsKey_stringLit {k : PyKey} (h : KeyDumpable k) :
    ∃ text, dumpsKey k = .ok text ∧ StringLit text (keyText k) := by
  cases k with
  | str s => exact ⟨_, rfl, stringLit_units s⟩
  | int n => exact ⟨_, rfl, stringLit_plain (plain_toString n)⟩
  | float x => exact ⟨_, rfl, stringLit_plain (plain_dumpsFloat h)⟩
  | bool b =>
      refine ⟨_, rfl, stringLit_plain ?_⟩
      cases b <;> simp [dumpsBool, Plain]
  | none => exact ⟨_, rfl, stringLit_plain (by simp [Plain])⟩
  | other typeName => exact h.elim

/-- Items that are written are read, one by one. -/
theorem dumpsItems_scans {items : List PyValue}
    (h : ∀ v ∈ items, ∃ text, dumps v = .ok text ∧ PyJson.Scans text (decoded v)) :
    ∃ texts, dumpsItems items = .ok texts ∧
      List.Forall₂ PyJson.Scans texts (decodedItems items) := by
  induction items with
  | nil => exact ⟨[], rfl, List.Forall₂.nil⟩
  | cons v items ih =>
      rw [List.forall_mem_cons] at h
      obtain ⟨⟨text, hv, hscans⟩, hrest⟩ := h
      obtain ⟨texts, hitems, hall⟩ := ih hrest
      refine ⟨text :: texts, ?_, List.Forall₂.cons hscans hall⟩
      rw [dumpsItems, hv, hitems]
      rfl

/-- The entries of a dict are dumped to texts that are read one by one as the decoded
entries, given that each value is (the induction hypothesis). -/
theorem dumpsEntries_scans {entries : List (PyKey × PyValue)}
    (hkey : ∀ entry ∈ entries, KeyDumpable entry.1)
    (h : ∀ entry ∈ entries, ∃ text, dumps entry.2 = .ok text ∧
      PyJson.Scans text (decoded entry.2)) :
    ∃ texts, dumpsEntries entries = .ok texts ∧
      List.Forall₂ PyJson.ScansEntry texts (decodedEntries entries) := by
  induction entries with
  | nil => exact ⟨[], rfl, List.Forall₂.nil⟩
  | cons entry entries ih =>
      rw [List.forall_mem_cons] at hkey h
      obtain ⟨key, hk, hlit⟩ := dumpsKey_stringLit hkey.1
      obtain ⟨⟨text, hv, hscans⟩, hrest⟩ := h
      obtain ⟨texts, hentries, hall⟩ := ih hkey.2 hrest
      refine ⟨(key ++ ':' :: ' ' :: text) :: texts, ?_,
        List.Forall₂.cons ⟨key, text, rfl, hlit, hscans⟩ hall⟩
      rw [dumpsEntries, hk, hv, hentries]
      rfl

/-- **What `dumps` writes is read as what JSON keeps of the value.** By induction on the
value: keys become strings, and an object becomes the text `default=str` gives it. -/
theorem scans_dumps {v : PyValue} (h : Dumpable v) :
    ∃ text, dumps v = .ok text ∧ PyJson.Scans text (decoded v) := by
  induction h with
  | none => exact ⟨_, rfl, PyJson.scans_name (by simp [PyJson.names, decoded])⟩
  | bool b =>
      refine ⟨_, rfl, PyJson.scans_name ?_⟩
      cases b <;> simp [PyJson.names, dumpsBool, decoded]
  | int hn => exact ⟨_, rfl, scans_int hn⟩
  | float hx => exact ⟨_, rfl, scans_float hx⟩
  | str s => exact ⟨_, rfl, PyJson.scans_string (stringLit_units s)⟩
  | object text => exact ⟨_, rfl, PyJson.scans_string (stringLit_units text)⟩
  | @list items _ ih =>
      obtain ⟨texts, htexts, hall⟩ := dumpsItems_scans ih
      refine ⟨'[' :: commaSeparated texts ++ [']'], by rw [dumps, htexts]; rfl, ?_⟩
      rw [decoded]
      by_cases hnil : texts = []
      · rw [hnil] at hall ⊢
        rw [List.forall₂_nil_left_iff.mp hall]
        exact PyJson.scans_emptyList
      · have hlist := PyJson.scans_list ws_nil ws_blank ws_nil hall hnil
        simpa [commaSeparated] using hlist
  | @dict entries hkeys _ ih =>
      obtain ⟨texts, htexts, hall⟩ := dumpsEntries_scans hkeys ih
      refine ⟨'\x7b' :: commaSeparated texts ++ ['\x7d'], by rw [dumps, htexts]; rfl, ?_⟩
      rw [decoded]
      by_cases hnil : texts = []
      · rw [hnil] at hall ⊢
        rw [List.forall₂_nil_left_iff.mp hall]
        exact PyJson.scans_emptyDict
      · have hdict := PyJson.scans_dict ws_nil ws_blank ws_nil hall hnil
        simpa [commaSeparated] using hdict

/-! ## Loaded values as Python values -/

mutual

/-- A loaded value as a Python value. -/
def toPy : PyJson.Value → PyValue
  | .none => .none
  | .bool b => .bool b
  | .int n => .int n
  | .float x => .float x
  | .str s => .str s
  | .list items => .list (itemsToPy items)
  | .dict entries => .dict (entriesToPy entries)

def itemsToPy : List PyJson.Value → List PyValue
  | [] => []
  | v :: rest => toPy v :: itemsToPy rest

def entriesToPy : List (PyStr × PyJson.Value) → List (PyKey × PyValue)
  | [] => []
  | (key, v) :: rest => (.str key, toPy v) :: entriesToPy rest

end

/-- A list that was read, taken as a Python list, is read back as itself. -/
theorem decoded_itemsToPy {items : List PyJson.Value}
    (h : ∀ v ∈ items, decoded (toPy v) = v) : decodedItems (itemsToPy items) = items := by
  induction items with
  | nil => rfl
  | cons v items ih =>
      rw [List.forall_mem_cons] at h
      rw [itemsToPy, decodedItems, h.1, ih h.2]

/-- A dict that was read is read back as itself: its keys are strings already, with
their surrogates paired. -/
theorem decoded_entriesToPy {entries : List (PyStr × PyJson.Value)}
    (hkey : ∀ entry ∈ entries, Paired entry.1)
    (h : ∀ entry ∈ entries, decoded (toPy entry.2) = entry.2) :
    decodedEntries (entriesToPy entries) = entries := by
  induction entries with
  | nil => rfl
  | cons entry entries ih =>
      rw [List.forall_mem_cons] at hkey h
      have hreread : keyText (.str entry.1) = entry.1 := hkey.1
      rw [entriesToPy, decodedEntries, hreread, h.1, ih hkey.2 h.2]

/-- JSON keeps a loaded value as it is. -/
theorem decoded_toPy {v : PyJson.Value} (h : PyJson.Loaded v) : decoded (toPy v) = v := by
  induction h with
  | none => rfl
  | bool b => rfl
  | int _ => rfl
  | float _ => rfl
  | str hs => exact congrArg PyJson.Value.str hs
  | list _ ih => rw [toPy, decoded, decoded_itemsToPy ih]
  | dict hnodup hkeys _ ih =>
      rw [toPy, decoded, decoded_entriesToPy hkeys ih, PyDict.ofPairs_of_nodup hnodup]

/-- The elements of a list that was read can be written again. -/
theorem dumpable_itemsToPy {items : List PyJson.Value} (h : ∀ v ∈ items, Dumpable (toPy v)) :
    ∀ v ∈ itemsToPy items, Dumpable v := by
  induction items with
  | nil => exact List.forall_mem_nil _
  | cons v rest ih =>
      rw [List.forall_mem_cons] at h
      rw [itemsToPy, List.forall_mem_cons]
      exact ⟨h.1, ih h.2⟩

/-- The entries of a dict that was read can be written again, and all its keys are
strings. -/
theorem dumpable_entriesToPy {entries : List (PyStr × PyJson.Value)}
    (h : ∀ entry ∈ entries, Dumpable (toPy entry.2)) :
    ∀ entry ∈ entriesToPy entries, KeyDumpable entry.1 ∧ Dumpable entry.2 := by
  induction entries with
  | nil => exact List.forall_mem_nil _
  | cons entry rest ih =>
      rw [List.forall_mem_cons] at h
      rw [entriesToPy, List.forall_mem_cons]
      exact ⟨⟨trivial, h.1⟩, ih h.2⟩

/-- Whatever `json.loads` returns can be written again. -/
theorem dumpable_toPy {v : PyJson.Value} (h : PyJson.Loaded v) : Dumpable (toPy v) := by
  induction h with
  | none => exact .none
  | bool b => exact .bool b
  | int hn => exact .int hn
  | float hx => exact .float hx
  | str _ => exact .str _
  | list _ ih => exact .list (dumpable_itemsToPy ih)
  | dict _ _ _ ih =>
      have hentries := dumpable_entriesToPy ih
      exact .dict (fun entry hentry => (hentries entry hentry).1)
        fun entry hentry => (hentries entry hentry).2

/-- A loaded value is written and loaded again as it is. -/
theorem loads_dumps_toPy {v : PyJson.Value} (h : PyJson.Loaded v) :
    ∃ text, dumps (toPy v) = .ok text ∧ PyJson.loads text = some v := by
  obtain ⟨text, htext, hscans⟩ := scans_dumps (dumpable_toPy h)
  have hloads := PyJson.loads_of_scans hscans ws_nil ws_nil
  rw [List.nil_append, List.append_nil, decoded_toPy h] at hloads
  exact ⟨text, htext, hloads⟩

end Json

open Json

/-! ## Payloads -/

/-- The payload of a value is the text of the value in UTF-8. -/
theorem buildPayload_of_dumps {v : PyValue} {text : List Char} (h : dumps v = .ok text) :
    buildPayload (some v) = .ok (text.flatMap String.utf8EncodeChar) := by
  show (dumps v).bind _ = _
  rw [h]
  rfl

/-- The payload of a value decodes, and is loaded as what JSON keeps of the value. -/
theorem loads_payload {v : PyValue} (h : Dumpable v) :
    ∃ payload text, buildPayload (some v) = .ok payload ∧ decode payload = some text ∧
      PyJson.loads text = some (decoded v) := by
  obtain ⟨text, htext, hscans⟩ := scans_dumps h
  have hloads := PyJson.loads_of_scans hscans ws_nil ws_nil
  rw [List.nil_append, List.append_nil] at hloads
  exact ⟨text.flatMap String.utf8EncodeChar, text, buildPayload_of_dumps htext,
    decode_eq_some_iff.mpr rfl, hloads⟩

/-- The dict of an order, as it is loaded from its payload. -/
def orderDict (o : AvroOrder) : PyJson.Value :=
  .dict [(ofString "orderId", .str (ofString o.orderId)),
    (ofString "product", .str (ofString o.product)), (ofString "price", .float o.price)]

/-- A string of characters has no surrogates, so JSON keeps it as it is. -/
theorem reread_ofString (s : String) : reread (ofString s) = ofString s :=
  ofUtf16_flatMap_utf16 (isSurrogate_ofString s)

/-- The dict of an order, entry by entry. -/
theorem dictToOrder_toPy (o : AvroOrder) : (dictToOrder o).toPy =
    .dict [(.str (ofString "orderId"), .str (ofString o.orderId)),
      (.str (ofString "product"), .str (ofString o.product)),
      (.str (ofString "price"), .float o.price)] := rfl

/-- An order is dumpable, whatever its texts are. -/
theorem dumpable_order {o : AvroOrder}
    (hprice : ∀ q, o.price = .finite q → PyFloat.IsBinary64 q) :
    Dumpable (dictToOrder o).toPy := by
  rw [dictToOrder_toPy]
  apply Dumpable.dict
  · simp [KeyDumpable]
  · simp only [List.forall_mem_cons]
    exact ⟨.str _, .str _, .float hprice, List.forall_mem_nil _⟩

/-- The payload of an order is loaded as its dict, special prices included. -/
theorem loads_orderPayload {o : AvroOrder} {payload : Bytes}
    (hprice : ∀ q, o.price = .finite q → PyFloat.IsBinary64 q)
    (h : buildPayload (some (dictToOrder o).toPy) = .ok payload) :
    (decode payload).bind PyJson.loads = some (orderDict o) := by
  obtain ⟨payload', text, hpayload, hdecode, hloads⟩ := loads_payload (dumpable_order hprice)
  obtain rfl : payload' = payload := Except.ok.inj (hpayload.symm.trans h)
  have hnodup : [ofString "orderId", ofString "product", ofString "price"].Nodup := by decide
  have hdecoded : decoded (dictToOrder o).toPy = orderDict o := by
    rw [dictToOrder_toPy]
    simp only [decoded, decodedEntries, keyText, reread_ofString]
    rw [PyDict.ofPairs_of_nodup (by exact hnodup)]
    rfl
  rw [hdecode, Option.bind_some, hloads, hdecoded]

end OrderPipeline

import OrderPipeline.Foundation.PyLines
import OrderPipeline.JsonRoundTrip
import OrderPipeline.ReadDlq

/-!
# The payload in a report

The lower part of `format_message`: a payload that is JSON is laid out anew with an
indent, and anything else is shown as its `repr`.

Each line of the layout is printed two blanks further in.  That is the layout of the
value one level further in (`shift_dumpsIndent`), for no line ends inside a string; so
what is printed is still JSON for the same value (`loads_payloadBlock`).

No limit on the nesting depth is put on the reader here; `NestingLimits` has the text that
is printed within such limits, and what becomes of a payload beyond them.
-/

namespace OrderPipeline

open JsonText PyStr Json

/-! ## The payload section -/

/-- `payload` in `format_message`, as far as nothing is nested too deep: the JSON value
laid out anew, or else `repr` of the value of the message; a value of None cannot be
decoded either. -/
def payloadText (value : Option Bytes) : List Char :=
  match (value.bind decode).bind PyJson.loads with
  | some v => dumpsIndent 0 v
  | none =>
      match value with
      | some bytes => reprBytes bytes
      | none => "None".toList

/-- The lines of the payload in `format_message`. -/
def payloadLines (value : Option Bytes) : List PyStr :=
  splitlines ((payloadText value).map ofChar)

/-! ## Characters -/

/-- A printable ASCII character. -/
def Shown (c : Char) : Prop := 0x20 ≤ c.toNat ∧ c.toNat ≤ 0x7e

/-- What stands for itself in a JSON string is printable. -/
theorem Json.Plain.shown {c : Char} (h : Plain c) : Shown c := ⟨h.1, h.2.1⟩

/-- The sixteen hexadecimal digits are printable. -/
theorem shown_hexDigit : ∀ n < 16, Shown (hexDigit n) := by
  unfold Shown
  decide

/-- The escape of a code unit by its number is six printable characters. -/
theorem shown_hexEscape (n : ℕ) : ∀ c ∈ hexEscape n, Shown c := by
  have hdigit : ∀ m, Shown (hexDigit (m % 16)) := fun m =>
    shown_hexDigit _ (Nat.mod_lt _ (by decide))
  simp only [hexEscape, List.forall_mem_cons]
  exact ⟨by simp [Shown], by simp [Shown], hdigit _, hdigit _, hdigit _, hdigit _,
    List.forall_mem_nil _⟩

/-- A character whose number is in the printable range is printable. -/
theorem shown_ofNat {n : ℕ} (h : 0x20 ≤ n ∧ n ≤ 0x7e) : Shown (Char.ofNat n) := by
  have hvalid : n.isValidChar := by
    simp only [Nat.isValidChar]
    omega
  have hnat : (Char.ofNat n).toNat = n := by
    rw [Char.ofNat, dif_pos hvalid]
    rfl
  simpa [Shown, hnat] using h

/-- However a code point is written in a JSON string (as itself, by a short escape, by
one or two numbered ones), only printable characters stand in the text. -/
theorem shown_escape (c : CodePoint) : ∀ e ∈ escape c, Shown e := by
  unfold escape
  split
  · simp [Shown]
  split
  · simp [Shown]
  split
  · simp [Shown]
  split
  · simp [Shown]
  split
  · simp [Shown]
  split
  · simp [Shown]
  split
  · simp [Shown]
  split
  · next h => simpa using shown_ofNat h
  split
  · exact shown_hexEscape _
  · intro e he
    rcases List.mem_append.mp he with he | he
    · exact shown_hexEscape _ e he
    · exact shown_hexEscape _ e he

/-- A string is dumped in printable characters only; in particular no line break of the
string survives as one. -/
theorem shown_dumpsStr (s : PyStr) : ∀ c ∈ dumpsStr s, Shown c := by
  have hquote : Shown '"' := by simp [Shown]
  intro c hc
  simp only [dumpsStr, List.cons_append, List.mem_cons, List.mem_append, List.mem_flatMap,
    List.not_mem_nil, or_false] at hc
  rcases hc with rfl | ⟨d, -, hd⟩ | rfl
  · exact hquote
  · exact shown_escape d c hd
  · exact hquote

/-- The digits `repr` uses for a byte are printable. -/
theorem shown_digitChar : ∀ n < 16, Shown (Nat.digitChar n) := by
  unfold Shown
  decide

/-- One byte in a `repr`: as itself, with a backslash, or by its number, but printable
in each case. -/
theorem shown_reprByte {quote : Char} (hquote : Shown quote) (b : UInt8) :
    ∀ c ∈ reprByte quote b, Shown c := by
  have hlt := b.toNat_lt
  have hbackslash : Shown '\\' := by simp [Shown]
  unfold reprByte
  split
  · next h =>
    have hshown : Shown (Char.ofNat b.toNat) := by
      apply shown_ofNat
      unfold Shown at hquote
      omega
    simpa using ⟨hbackslash, hshown⟩
  split
  · simp [Shown]
  split
  · simp [Shown]
  split
  · simp [Shown]
  split
  · simp only [List.forall_mem_cons]
    exact ⟨hbackslash, by simp [Shown], shown_digitChar _ (by omega), shown_digitChar _ (by omega),
      List.forall_mem_nil _⟩
  · next h => simpa using shown_ofNat (by omega)

/-- The `repr` of a bytes value is one printable line, which is why it stays as it is in
the report. -/
theorem shown_reprBytes (bytes : Bytes) : ∀ c ∈ reprBytes bytes, Shown c := by
  unfold reprBytes
  intro c hc
  have hquote : Shown (if 0x27 ∈ bytes ∧ 0x22 ∉ bytes then '"' else '\'') := by
    split <;> simp [Shown]
  simp only [List.cons_append, List.mem_cons, List.mem_append, List.mem_flatMap,
    List.not_mem_nil, or_false] at hc
  rcases hc with rfl | rfl | ⟨b, -, hb⟩ | rfl
  · simp [Shown]
  · exact hquote
  · exact shown_reprByte hquote b c hb
  · exact hquote

/-! ## Nesting -/

/-- A text one level further in. -/
def shift (text : List Char) : List Char :=
  text.flatMap fun c => if c = '\n' then ['\n', ' ', ' '] else [c]

/-- To shift a text is to shift its parts: every character is treated for itself. -/
theorem shift_append (a b : List Char) : shift (a ++ b) = shift a ++ shift b :=
  List.flatMap_append

/-- A text with no line break in it is not changed by a shift. -/
theorem shift_of_shown {text : List Char} (h : ∀ c ∈ text, Shown c) : shift text = text := by
  induction text with
  | nil => rfl
  | cons c text ih =>
      rw [List.forall_mem_cons] at h
      have hne : c ≠ '\n' := by
        rintro rfl
        exact absurd h.1.1 (by decide)
      rw [shift, List.flatMap_cons, if_neg hne]
      exact congrArg (c :: ·) (ih h.2)

/-- The shift puts its two blanks behind a line break, and that is the line break of the
next level. -/
theorem shift_newline (level : ℕ) : shift (newline level) = newline (level + 1) := by
  have hblanks : shift (List.replicate (2 * level) ' ') = List.replicate (2 * level) ' ' := by
    apply shift_of_shown
    intro c hc
    rw [List.eq_of_mem_replicate hc]
    simp [Shown]
  rw [newline, newline, ← List.singleton_append, shift_append, hblanks,
    show 2 * (level + 1) = 2 + 2 * level by ring, List.replicate_add]
  rfl

/-- The shift goes through a list of texts and the separator between them. -/
theorem shift_intercalate (sep : List Char) (texts : List (List Char)) :
    shift (List.intercalate sep texts) = List.intercalate (shift sep) (texts.map shift) := by
  induction texts with
  | nil => rfl
  | cons text texts ih =>
      cases texts with
      | nil => simp
      | cons next texts =>
          rw [List.intercalate_cons_cons, shift_append, shift_append, ih]
          simp only [List.map_cons, List.intercalate_cons_cons]

/-- An object or array laid out at one level and shifted is the shifted members laid out
one level further in. -/
theorem shift_enclose {opening closing : Char} (hopening : Shown opening)
    (hclosing : Shown closing) (level : ℕ) (texts : List (List Char)) :
    shift (enclose opening closing level texts) =
      enclose opening closing (level + 1) (texts.map shift) := by
  have hsingle : ∀ c : Char, Shown c → shift [c] = [c] := by
    intro c hc
    exact shift_of_shown (by simpa using hc)
  have hcomma : shift [','] = [','] := rfl
  unfold enclose
  by_cases hnil : texts = []
  · rw [if_pos hnil, if_pos (by simp [hnil])]
    exact shift_of_shown (by simp [hopening, hclosing])
  · rw [if_neg hnil, if_neg (by simpa using hnil)]
    rw [← List.singleton_append (l := newline (level + 1)), shift_append, shift_append,
      shift_append, shift_append, hsingle _ hopening, hsingle _ hclosing, shift_newline,
      shift_newline, shift_intercalate, ← List.singleton_append (l := newline (level + 1)),
      shift_append, hcomma, shift_newline]
    rfl

/-- The elements of an array, each of them shifted, are its elements one level further
in, as soon as this holds of every element (the induction hypothesis). -/
theorem shift_indentItems {level : ℕ} {items : List PyJson.Value}
    (h : ∀ v ∈ items, shift (dumpsIndent level v) = dumpsIndent (level + 1) v) :
    (indentItems level items).map shift = indentItems (level + 1) items := by
  induction items with
  | nil => rfl
  | cons v items ih =>
      rw [List.forall_mem_cons] at h
      rw [indentItems, indentItems, List.map_cons, h.1, ih h.2]

/-- The same for the entries of an object: the key and its colon hold no line break, so
only the value is shifted. -/
theorem shift_indentEntries {level : ℕ} {entries : List (PyStr × PyJson.Value)}
    (h : ∀ entry ∈ entries, shift (dumpsIndent level entry.2) = dumpsIndent (level + 1) entry.2) :
    (indentEntries level entries).map shift = indentEntries (level + 1) entries := by
  induction entries with
  | nil => rfl
  | cons entry entries ih =>
      rw [List.forall_mem_cons] at h
      have hentry : ∀ text, shift (dumpsStr entry.1 ++ ':' :: ' ' :: text) =
          dumpsStr entry.1 ++ ':' :: ' ' :: shift text := by
        intro text
        rw [shift_append, shift_of_shown (shown_dumpsStr _)]
        rfl
      rw [indentEntries, indentEntries, List.map_cons, hentry, h.1, ih h.2]

/-- The leaves, which are on one line. -/
theorem shown_leaf {v : PyJson.Value} (h : PyJson.Loaded v) (level : ℕ)
    (hlist : ∀ items, v ≠ .list items) (hdict : ∀ entries, v ≠ .dict entries) :
    ∀ c ∈ dumpsIndent level v, Shown c := by
  cases h with
  | none => simp [dumpsIndent, Shown]
  | bool b => cases b <;> simp [dumpsIndent, dumpsBool, Shown]
  | int _ =>
      intro c hc
      exact (plain_toString _ c hc).shown
  | float hx =>
      intro c hc
      exact (plain_dumpsFloat hx c hc).shown
  | str _ => exact shown_dumpsStr _
  | list _ => exact absurd rfl (hlist _)
  | dict _ _ _ => exact absurd rfl (hdict _)

/-- **One level further in, the same text with each line moved.** By induction on the
value; a line break in a string is escaped, so no line is split by its content. -/
theorem shift_dumpsIndent {v : PyJson.Value} (h : PyJson.Loaded v) (level : ℕ) :
    shift (dumpsIndent level v) = dumpsIndent (level + 1) v := by
  induction h generalizing level with
  | @list items _ ih =>
      rw [dumpsIndent, dumpsIndent, shift_enclose (by simp [Shown]) (by simp [Shown]),
        shift_indentItems fun v hv => ih v hv (level + 1)]
  | @dict entries hnodup hkeys _ ih =>
      rw [dumpsIndent, dumpsIndent, shift_enclose (by simp [Shown]) (by simp [Shown]),
        shift_indentEntries fun entry he => ih entry he (level + 1)]
  | none => exact shift_of_shown (shown_leaf .none level (by simp) (by simp))
  | bool b => exact shift_of_shown (shown_leaf (.bool b) level (by simp) (by simp))
  | int hn => exact shift_of_shown (shown_leaf (.int hn) level (by simp) (by simp))
  | float hx => exact shift_of_shown (shown_leaf (.float hx) level (by simp) (by simp))
  | str hs => exact shift_of_shown (shown_leaf (.str hs) level (by simp) (by simp))

/-! ## Lines -/

/-- A character is the line feed exactly if its code point is. -/
theorem ofChar_eq_lineFeed {c : Char} : ofChar c = lineFeed ↔ c = '\n' := by
  constructor
  · intro h
    have hchar := congrArg toChar? h
    rw [lineFeed, toChar?_ofChar, toChar?_ofChar] at hchar
    exact Option.some.inj hchar
  · rintro rfl
    rfl

/-- `str.splitlines` does not break a line at a printable character. -/
theorem isLineBreak_of_shown {c : Char} (h : Shown c) : isLineBreak (ofChar c) = false := by
  obtain ⟨hlow, hhigh⟩ := h
  have hval : (ofChar c).val = c.toNat := rfl
  simp only [isLineBreak, hval, Bool.or_eq_false_iff, Bool.and_eq_false_iff,
    decide_eq_false_iff_not]
  omega

/-- Printable text with new lines inside. -/
def Laid (text : List Char) : Prop :=
  (∀ c ∈ text, c = '\n' ∨ Shown c) ∧ ∀ c ∈ text.getLast?, c ≠ '\n'

/-- A text that is laid out breaks its lines at line feeds only, as `str.splitlines`
needs it for `join` to be its inverse. -/
theorem Laid.lined {text : List Char} (h : Laid text) : Lined (text.map ofChar) := by
  obtain ⟨hall, hlast⟩ := h
  constructor
  · intro c hc hbreak
    obtain ⟨ch, hmem, rfl⟩ := List.mem_map.mp hc
    rcases hall ch hmem with rfl | hshown
    · rfl
    · rw [isLineBreak_of_shown hshown] at hbreak
      cases hbreak
  · intro c hc
    rw [List.getLast?_map] at hc
    obtain ⟨ch, hch, rfl⟩ := Option.mem_map.mp hc
    exact mt ofChar_eq_lineFeed.mp (hlast ch hch)

/-- One printable line is laid out. -/
theorem laid_of_shown {text : List Char} (h : ∀ c ∈ text, Shown c) : Laid text := by
  refine ⟨fun c hc => Or.inr (h c hc), ?_⟩
  rintro c hc rfl
  exact absurd (h _ (List.mem_of_getLast? hc)).1 (by decide)

/-- The two blanks `format_message` prints before each line of the payload are what
`shift` does to the text. -/
theorem indented_map (text : List Char) :
    indented [ofChar ' ', ofChar ' '] (text.map ofChar) = (shift text).map ofChar := by
  induction text with
  | nil => rfl
  | cons c text ih =>
      have hcons : ∀ (d : CodePoint) (s : PyStr), indented [ofChar ' ', ofChar ' '] (d :: s) =
          (if d = lineFeed then lineFeed :: [ofChar ' ', ofChar ' '] else [d]) ++
            indented [ofChar ' ', ofChar ' '] s := fun _ _ => rfl
      rw [List.map_cons, hcons, ih, ← List.singleton_append (l := text), shift_append,
        List.map_append]
      congr 1
      by_cases hc : c = '\n'
      · subst hc
        rfl
      · rw [if_neg (mt ofChar_eq_lineFeed.mp hc), shift, List.flatMap_singleton, if_neg hc]
        rfl

/-- A character of a joined text is from the separator or from one of the parts. -/
theorem mem_intercalate {sep : List Char} {texts : List (List Char)} {c : Char}
    (h : c ∈ List.intercalate sep texts) : c ∈ sep ∨ ∃ text ∈ texts, c ∈ text := by
  induction texts with
  | nil => cases h
  | cons text texts ih =>
      cases texts with
      | nil => exact Or.inr ⟨text, List.mem_cons_self, by simpa using h⟩
      | cons next texts =>
          rw [List.intercalate_cons_cons, List.mem_append, List.mem_append] at h
          rcases h with (htext | hsep) | hrest
          · exact Or.inr ⟨text, List.mem_cons_self, htext⟩
          · exact Or.inl hsep
          · rcases ih hrest with hsep | ⟨t, ht, hc⟩
            · exact Or.inl hsep
            · exact Or.inr ⟨t, List.mem_cons_of_mem _ ht, hc⟩

/-- The line break of a level: the line feed and blanks. -/
theorem mem_newline {level : ℕ} {c : Char} (h : c ∈ newline level) : c = '\n' ∨ Shown c := by
  rcases List.mem_cons.mp h with rfl | hblank
  · exact Or.inl rfl
  · rw [List.eq_of_mem_replicate hblank]
    exact Or.inr (by simp [Shown])

/-- Brackets around members that are laid out: the whole ends with a bracket, so it does
not end with a line break. -/
theorem laid_enclose {opening closing : Char} (hopening : Shown opening)
    (hclosing : Shown closing) {level : ℕ} {texts : List (List Char)}
    (h : ∀ text ∈ texts, ∀ c ∈ text, c = '\n' ∨ Shown c) :
    Laid (enclose opening closing level texts) := by
  have hcomma : Shown ',' := by simp [Shown]
  have hlast : closing ≠ '\n' := by
    rintro rfl
    exact absurd hclosing.1 (by decide)
  unfold enclose
  split
  · exact laid_of_shown (by simp [hopening, hclosing])
  · constructor
    · intro c hc
      simp only [List.cons_append, List.mem_cons, List.mem_append, List.not_mem_nil,
        or_false] at hc
      rcases hc with rfl | ((hc | hc) | hc) | rfl
      · exact Or.inr hopening
      · exact mem_newline hc
      · rcases mem_intercalate hc with hsep | ⟨text, htext, hc⟩
        · rcases List.mem_cons.mp hsep with rfl | hc
          · exact Or.inr hcomma
          · exact mem_newline hc
        · exact h text htext c hc
      · exact mem_newline hc
      · exact Or.inr hclosing
    · intro c hc
      rw [List.getLast?_concat] at hc
      rwa [← Option.some.inj hc]

/-- Every text among the elements of an array is the layout of one of its values. -/
theorem mem_indentItems {level : ℕ} {items : List PyJson.Value} {text : List Char}
    (h : text ∈ indentItems level items) : ∃ v ∈ items, text = dumpsIndent level v := by
  induction items with
  | nil => cases h
  | cons v items ih =>
      rcases List.mem_cons.mp h with rfl | hrest
      · exact ⟨v, List.mem_cons_self, rfl⟩
      · obtain ⟨w, hw, htext⟩ := ih hrest
        exact ⟨w, List.mem_cons_of_mem _ hw, htext⟩

/-- Every text among the entries of an object is a dumped key, a colon and the layout of
the value. -/
theorem mem_indentEntries {level : ℕ} {entries : List (PyStr × PyJson.Value)}
    {text : List Char} (h : text ∈ indentEntries level entries) :
    ∃ entry ∈ entries, text = dumpsStr entry.1 ++ ':' :: ' ' :: dumpsIndent level entry.2 := by
  induction entries with
  | nil => cases h
  | cons entry entries ih =>
      rcases List.mem_cons.mp h with rfl | hrest
      · exact ⟨entry, List.mem_cons_self, rfl⟩
      · obtain ⟨e, he, htext⟩ := ih hrest
        exact ⟨e, List.mem_cons_of_mem _ he, htext⟩

/-- The layout of any value that JSON can hold is laid out: no line ends inside a string
or a number. -/
theorem laid_dumpsIndent {v : PyJson.Value} (h : PyJson.Loaded v) (level : ℕ) :
    Laid (dumpsIndent level v) := by
  induction h generalizing level with
  | @list items _ ih =>
      apply laid_enclose (by simp [Shown]) (by simp [Shown])
      intro text htext
      obtain ⟨v, hv, rfl⟩ := mem_indentItems htext
      exact (ih v hv (level + 1)).1
  | @dict entries hnodup hkeys _ ih =>
      apply laid_enclose (by simp [Shown]) (by simp [Shown])
      intro text htext c hc
      obtain ⟨entry, he, rfl⟩ := mem_indentEntries htext
      rcases List.mem_append.mp hc with hkey | hc
      · exact Or.inr (shown_dumpsStr _ c hkey)
      · rcases List.mem_cons.mp hc with rfl | hc
        · exact Or.inr (by simp [Shown])
        · rcases List.mem_cons.mp hc with rfl | hc
          · exact Or.inr (by simp [Shown])
          · exact (ih entry he (level + 1)).1 c hc
  | none => exact laid_of_shown (shown_leaf .none level (by simp) (by simp))
  | bool b => exact laid_of_shown (shown_leaf (.bool b) level (by simp) (by simp))
  | int hn => exact laid_of_shown (shown_leaf (.int hn) level (by simp) (by simp))
  | float hx => exact laid_of_shown (shown_leaf (.float hx) level (by simp) (by simp))
  | str hs => exact laid_of_shown (shown_leaf (.str hs) level (by simp) (by simp))

/-! ## The report -/

/-- Everything in a report above the payload. -/
def reportHead (index : ℤ) (msg : DlqMessage) : PyStr :=
  let headers := decodeHeaders msg.headers
  List.intercalate (ofString "\n")
    (titleLines index msg ++ knownLines headers ++ unexpectedLines headers ++
      [ofString "  " ++ rule '-' 69, checkLine headers,
        ofString "  ---- original payload " ++ rule '-' 47])

/-- The payload in a report, its lines moved in. -/
def payloadBlock (value : Option Bytes) : List Char := ' ' :: ' ' :: shift (payloadText value)

/-- The value found in the bytes of a message is one `json.loads` returns. -/
theorem loaded_of_payload {value : Option Bytes} {v : PyJson.Value}
    (h : (value.bind decode).bind PyJson.loads = some v) : PyJson.Loaded v := by
  obtain ⟨text, -, hloads⟩ := Option.bind_eq_some_iff.mp h
  exact PyJson.loads_loaded hloads

/-- There is always something to print, so the section of the payload has at least one
line. -/
theorem payloadText_ne_nil (value : Option Bytes) : payloadText value ≠ [] := by
  unfold payloadText
  split
  · next v hv =>
    obtain ⟨c, tail, htext, -⟩ := (scans_dumpsIndent (loaded_of_payload hv) 0).start
    rw [htext]
    exact List.cons_ne_nil _ _
  · split
    · exact List.cons_ne_nil _ _
    · exact List.cons_ne_nil _ _

/-- Both kinds of text, the layout of a JSON value and the one-line `repr`, are laid
out. -/
theorem laid_payloadText (value : Option Bytes) : Laid (payloadText value) := by
  unfold payloadText
  split
  · next v hv => exact laid_dumpsIndent (loaded_of_payload hv) 0
  · split
    · exact laid_of_shown (shown_reprBytes _)
    · exact laid_of_shown (by simp [Shown])

/-- Two lists of lines, joined, are the two joined texts with one more separator between
them. -/
theorem intercalate_append {sep : PyStr} {a b : List PyStr} (ha : a ≠ []) (hb : b ≠ []) :
    List.intercalate sep (a ++ b) = List.intercalate sep a ++ sep ++ List.intercalate sep b := by
  induction a with
  | nil => exact absurd rfl ha
  | cons first a ih =>
      cases a with
      | nil => rw [List.singleton_append, List.intercalate_cons_of_ne_nil hb,
          List.intercalate_singleton]
      | cons second a =>
          rw [List.cons_append, List.cons_append, List.intercalate_cons_cons, ← List.cons_append,
            ih (List.cons_ne_nil _ _), List.intercalate_cons_cons]
          simp only [List.append_assoc]

/-- A report is its head and, below it, the text of the payload with its lines moved in,
whatever printable text that is. -/
theorem formatMessage_of_laid {lines : Option Bytes → List PyStr} {text : List Char} (index : ℤ)
    (msg : DlqMessage) (hlines : lines msg.value = splitlines (text.map ofChar))
    (hlaid : Laid text) (hne : text ≠ []) :
    formatMessage lines index msg =
      reportHead index msg ++ ofString "\n" ++ (' ' :: ' ' :: shift text).map ofChar := by
  have hblanks : ofString "  " = [ofChar ' ', ofChar ' '] := rfl
  have hbreak : ofString "\n" = [lineFeed] := rfl
  have hmap : text.map ofChar ≠ [] := by simpa using hne
  have hjoin := intercalate_splitlines [ofChar ' ', ofChar ' '] hlaid.lined hmap
  have hsome : splitlines (text.map ofChar) ≠ [] := splitlinesFrom_ne_nil (Or.inr hmap)
  unfold formatMessage
  simp only [hlines]
  rw [intercalate_append (by simp [titleLines]) (by simpa using hsome), hblanks, hbreak, hjoin,
    indented_map]
  rfl

/-- A report is its head and, below it, the block of the payload. -/
theorem formatMessage_eq (index : ℤ) (msg : DlqMessage) :
    formatMessage payloadLines index msg =
      reportHead index msg ++ ofString "\n" ++ (payloadBlock msg.value).map ofChar :=
  formatMessage_of_laid index msg rfl (laid_payloadText _) (payloadText_ne_nil _)

/-- A layout with its lines moved in is loaded as the same value. -/
theorem loads_shifted {v : PyJson.Value} (h : PyJson.Loaded v) :
    PyJson.loads (' ' :: ' ' :: shift (dumpsIndent 0 v)) = some v := by
  have hblanks : Ws [' ', ' '] := by simp [Ws, isWs]
  rw [shift_dumpsIndent h]
  exact loads_dumpsIndent h 1 hblanks

/-- The block of a payload that is JSON is JSON for the same value. -/
theorem loads_payloadBlock {value : Option Bytes} {v : PyJson.Value}
    (h : (value.bind decode).bind PyJson.loads = some v) :
    PyJson.loads (payloadBlock value) = some v := by
  have htext : payloadText value = dumpsIndent 0 v := by
    unfold payloadText
    rw [h]
  unfold payloadBlock
  rw [htext]
  exact loads_shifted (loaded_of_payload h)

end OrderPipeline

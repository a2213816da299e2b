import OrderPipeline.DlqReport
import OrderPipeline.Foundation.JsonNesting

/-!
# Payloads nested too deep

`json.dumps` and `json.loads` raise a RecursionError for values that are nested deeper than
the interpreter lets them go.  How deep that is differs between versions and with the stack
at the call, so the limits are parameters: of the writer of payloads, of the loader, and of
the writer that lays a payload out anew for a report.

Both ways of writing are exactly as deep as the value (`nests_dumps`, `nests_dumpsIndent`).
From that follows what happens on either side of each limit, to a payload
(`payload_round_trips`) and to the report on it (`report_shows_payload`).  The dict of an
order is one level deep, so for the orders of this program the limits play no part
(`payloadLinesWithin_order`).
-/

namespace OrderPipeline

open JsonText PyStr

namespace Json

/-! ## Writing within a limit -/

mutual

/-- How deep a value is nested, where an object of another type, given by its text, counts
for `leaf`. -/
def depth (leaf : PyStr → ℕ) : PyValue → ℕ
  | .object text => leaf text
  | .list items => PyJson.deepestOf (itemDepths leaf items) + 1
  | .dict entries => PyJson.deepestOf (entryDepths leaf entries) + 1
  | _ => 0

/-- The depths of the items of a list. -/
def itemDepths (leaf : PyStr → ℕ) : List PyValue → List ℕ
  | [] => []
  | v :: rest => depth leaf v :: itemDepths leaf rest

/-- The depths of the values of a dict. -/
def entryDepths (leaf : PyStr → ℕ) : List (PyKey × PyValue) → List ℕ
  | [] => []
  | (_, v) :: rest => depth leaf v :: entryDepths leaf rest

end

/-- What the encoder raises. -/
def recursionError : Exn :=
  Exn.ofText "RecursionError" []
    "maximum recursion depth exceeded while encoding a JSON object"

mutual

/-- `json.dumps(value, default=str)` in an interpreter that enters so many values; to make
an object of another type a string, and to write that string, takes `leaf` of them. -/
def dumpsWithin (leaf : PyStr → ℕ) : (limit : ℕ) → PyValue → Except Exn (List Char)
  | _, .none => .ok "null".toList
  | _, .bool b => .ok (dumpsBool b)
  | _, .int n => .ok (toString n).toList
  | _, .float x => .ok (dumpsFloat x)
  | _, .str s => .ok (dumpsStr s)
  | limit, .object text =>
      if limit < leaf text then .error recursionError else .ok (dumpsStr text)
  | limit, .list items =>
      if limit = 0 then .error recursionError
      else do
        let texts ← dumpsItemsWithin leaf (limit - 1) items
        .ok ('[' :: commaSeparated texts ++ [']'])
  | limit, .dict entries =>
      if limit = 0 then .error recursionError
      else do
        let texts ← dumpsEntriesWithin leaf (limit - 1) entries
        .ok ('\x7b' :: commaSeparated texts ++ ['\x7d'])

def dumpsItemsWithin (leaf : PyStr → ℕ) :
    (limit : ℕ) → List PyValue → Except Exn (List (List Char))
  | _, [] => .ok []
  | limit, v :: rest => do
      let text ← dumpsWithin leaf limit v
      let texts ← dumpsItemsWithin leaf limit rest
      .ok (text :: texts)

def dumpsEntriesWithin (leaf : PyStr → ℕ) :
    (limit : ℕ) → List (PyKey × PyValue) → Except Exn (List (List Char))
  | _, [] => .ok []
  | limit, (k, v) :: rest => do
      let key ← dumpsKey k
      let text ← dumpsWithin leaf limit v
      let texts ← dumpsEntriesWithin leaf limit rest
      .ok ((key ++ ':' :: ' ' :: text) :: texts)

end

/-- Items are written as without a limit, or the one that is too deep raises; by
induction on the items, given the same of each of them. -/
theorem dumpsItemsWithin_eq {leaf : PyStr → ℕ} {limit : ℕ} {items : List PyValue}
    (htext : ∀ v ∈ items, ∃ text, dumps v = .ok text)
    (h : ∀ v ∈ items, dumpsWithin leaf limit v =
      if depth leaf v ≤ limit then dumps v else .error recursionError) :
    dumpsItemsWithin leaf limit items =
      if PyJson.deepestOf (itemDepths leaf items) ≤ limit then dumpsItems items
      else .error recursionError := by
  induction items with
  | nil => simp [dumpsItemsWithin, dumpsItems, itemDepths, PyJson.deepestOf]
  | cons v items ih =>
      rw [List.forall_mem_cons] at htext h
      obtain ⟨⟨text, hv⟩, hrest⟩ := htext
      have hdeepest : PyJson.deepestOf (itemDepths leaf (v :: items)) =
          max (depth leaf v) (PyJson.deepestOf (itemDepths leaf items)) := rfl
      rw [dumpsItemsWithin, h.1, ih hrest h.2, hdeepest]
      have hover : ¬depth leaf v ≤ limit ∨ ¬PyJson.deepestOf (itemDepths leaf items) ≤ limit →
          ¬max (depth leaf v) (PyJson.deepestOf (itemDepths leaf items)) ≤ limit := by omega
      by_cases hdeep : depth leaf v ≤ limit
      · by_cases hmore : PyJson.deepestOf (itemDepths leaf items) ≤ limit
        · rw [if_pos hdeep, if_pos hmore, if_pos (Nat.max_le.mpr ⟨hdeep, hmore⟩), dumpsItems]
        · rw [if_pos hdeep, if_neg hmore, if_neg (hover (Or.inr hmore)), hv]
          rfl
      · rw [if_neg hdeep, if_neg (hover (Or.inl hdeep))]
        rfl

/-- The same of the entries of a dict, whose keys are written without recursion. -/
theorem dumpsEntriesWithin_eq {leaf : PyStr → ℕ} {limit : ℕ} {entries : List (PyKey × PyValue)}
    (hkey : ∀ entry ∈ entries, KeyDumpable entry.1)
    (htext : ∀ entry ∈ entries, ∃ text, dumps entry.2 = .ok text)
    (h : ∀ entry ∈ entries, dumpsWithin leaf limit entry.2 =
      if depth leaf entry.2 ≤ limit then dumps entry.2 else .error recursionError) :
    dumpsEntriesWithin leaf limit entries =
      if PyJson.deepestOf (entryDepths leaf entries) ≤ limit then dumpsEntries entries
      else .error recursionError := by
  induction entries with
  | nil => simp [dumpsEntriesWithin, dumpsEntries, entryDepths, PyJson.deepestOf]
  | cons entry entries ih =>
      obtain ⟨k, v⟩ := entry
      rw [List.forall_mem_cons] at hkey htext h
      obtain ⟨key, hk, -⟩ := dumpsKey_stringLit hkey.1
      obtain ⟨⟨text, hv⟩, hrest⟩ := htext
      have hdeepest : PyJson.deepestOf (entryDepths leaf ((k, v) :: entries)) =
          max (depth leaf v) (PyJson.deepestOf (entryDepths leaf entries)) := rfl
      rw [dumpsEntriesWithin, h.1, ih hkey.2 hrest h.2, hdeepest]
      have hover : ¬depth leaf v ≤ limit ∨ ¬PyJson.deepestOf (entryDepths leaf entries) ≤ limit →
          ¬max (depth leaf v) (PyJson.deepestOf (entryDepths leaf entries)) ≤ limit := by omega
      by_cases hdeep : depth leaf v ≤ limit
      · by_cases hmore : PyJson.deepestOf (entryDepths leaf entries) ≤ limit
        · rw [if_pos hdeep, if_pos hmore, if_pos (Nat.max_le.mpr ⟨hdeep, hmore⟩), dumpsEntries]
        · rw [if_pos hdeep, if_neg hmore, if_neg (hover (Or.inr hmore)), hk, hv]
          rfl
      · rw [if_neg hdeep, if_neg (hover (Or.inl hdeep)), hk]
        rfl

/-- **A value is written as without a limit, or it is too deep and raises.** By
induction on the value, with one call less for what is inside it. -/
theorem dumpsWithin_eq {v : PyValue} (h : Dumpable v) (leaf : PyStr → ℕ) (limit : ℕ) :
    dumpsWithin leaf limit v =
      if depth leaf v ≤ limit then dumps v else .error recursionError := by
  have htext : ∀ {v}, Dumpable v → ∃ text, dumps v = .ok text := by
    intro v hv
    obtain ⟨text, htext, -⟩ := scans_dumps hv
    exact ⟨text, htext⟩
  induction h generalizing limit with
  | none => simp [dumpsWithin, dumps, depth]
  | bool b => simp [dumpsWithin, dumps, depth]
  | int _ => simp [dumpsWithin, dumps, depth]
  | float _ => simp [dumpsWithin, dumps, depth]
  | str s => simp [dumpsWithin, dumps, depth]
  | object text =>
      rw [dumpsWithin, depth, dumps]
      by_cases hlimit : limit < leaf text
      · rw [if_pos hlimit, if_neg (not_le.mpr hlimit)]
      · rw [if_neg hlimit, if_pos (not_lt.mp hlimit)]
  | @list items hitems ih =>
      cases limit with
      | zero => simp [dumpsWithin, depth]
      | succ limit =>
          have hall := dumpsItemsWithin_eq (fun v hv => htext (hitems v hv))
            (fun v hv => ih v hv limit)
          rw [dumpsWithin, if_neg (Nat.succ_ne_zero limit), Nat.add_sub_cancel, hall, depth,
            dumps]
          by_cases hdeep : PyJson.deepestOf (itemDepths leaf items) ≤ limit
          · rw [if_pos hdeep, if_pos (Nat.succ_le_succ hdeep)]
          · rw [if_neg hdeep, if_neg (by omega)]
            rfl
  | @dict entries hkeys hvalues ih =>
      cases limit with
      | zero => simp [dumpsWithin, depth]
      | succ limit =>
          have hall := dumpsEntriesWithin_eq hkeys (fun entry he => htext (hvalues entry he))
            (fun entry he => ih entry he limit)
          rw [dumpsWithin, if_neg (Nat.succ_ne_zero limit), Nat.add_sub_cancel, hall, depth,
            dumps]
          by_cases hdeep : PyJson.deepestOf (entryDepths leaf entries) ≤ limit
          · rw [if_pos hdeep, if_pos (Nat.succ_le_succ hdeep)]
          · rw [if_neg hdeep, if_neg (by omega)]
            rfl

/-! ## Texts are as deep as their values -/

/-- The text of an integer is flat. -/
theorem nests_int (n : ℤ) : PyJson.Nests (toString n).toList 0 := by
  rw [← intNumeral_text]
  exact PyJson.nests_numeral _

/-- The text of a float is flat, that of NaN and the infinities as well. -/
theorem nests_float {x : PyFloat} (h : ∀ q, x = .finite q → PyFloat.IsBinary64 q) :
    PyJson.Nests (dumpsFloat x) 0 := by
  cases x with
  | posInf => exact PyJson.nests_of_all_bare (by decide)
  | negInf => exact PyJson.nests_of_all_bare (by decide)
  | nan => exact PyJson.nests_of_all_bare (by decide)
  | finite q =>
      obtain ⟨m, htext, -⟩ := PyFloat.repr_numeral (h q rfl)
      show PyJson.Nests (PyFloat.repr (.finite q)).toList 0
      rw [← htext]
      exact PyJson.nests_numeral m

/-- Every other leaf is a name or a string, and flat too. -/
theorem nests_bool (b : Bool) : PyJson.Nests (dumpsBool b) 0 := by
  cases b <;> exact PyJson.nests_of_all_bare (by decide)

theorem nests_null : PyJson.Nests "null".toList 0 := PyJson.nests_of_all_bare (by decide)

/-- The texts of the items of a list are as deep as the items. -/
theorem dumpsItems_nests {items : List PyValue}
    (h : ∀ v ∈ items, ∃ text, dumps v = .ok text ∧ PyJson.Nests text (depth (fun _ => 0) v)) :
    ∃ texts, dumpsItems items = .ok texts ∧
      List.Forall₂ PyJson.Nests texts (itemDepths (fun _ => 0) items) := by
  induction items with
  | nil => exact ⟨[], rfl, List.Forall₂.nil⟩
  | cons v items ih =>
      rw [List.forall_mem_cons] at h
      obtain ⟨⟨text, hv, hnests⟩, hrest⟩ := h
      obtain ⟨texts, hitems, hall⟩ := ih hrest
      refine ⟨text :: texts, ?_, List.Forall₂.cons hnests hall⟩
      rw [dumpsItems, hv, hitems]
      rfl

/-- The text of an entry of an object is as deep as its value. -/
theorem nests_entry {key text : List Char} {k : PyStr} {n : ℕ} (hkey : StringLit key k)
    (h : PyJson.Nests text n) : PyJson.Nests (key ++ ':' :: ' ' :: text) n := by
  have hcolon : PyJson.Nests [':', ' '] 0 := PyJson.nests_of_all_bare (by decide)
  have hall := (PyJson.nests_string hkey).append (hcolon.append h)
  simpa using hall

/-- The texts of the entries of a dict are as deep as their values. -/
theorem dumpsEntries_nests {entries : List (PyKey × PyValue)}
    (hkey : ∀ entry ∈ entries, KeyDumpable entry.1)
    (h : ∀ entry ∈ entries, ∃ text, dumps entry.2 = .ok text ∧
      PyJson.Nests text (depth (fun _ => 0) entry.2)) :
    ∃ texts, dumpsEntries entries = .ok texts ∧
      List.Forall₂ PyJson.Nests texts (entryDepths (fun _ => 0) entries) := by
  induction entries with
  | nil => exact ⟨[], rfl, List.Forall₂.nil⟩
  | cons entry entries ih =>
      obtain ⟨k, v⟩ := entry
      rw [List.forall_mem_cons] at hkey h
      obtain ⟨key, hk, hlit⟩ := dumpsKey_stringLit hkey.1
      obtain ⟨⟨text, hv, hnests⟩, hrest⟩ := h
      obtain ⟨texts, hentries, hall⟩ := ih hkey.2 hrest
      refine ⟨(key ++ ':' :: ' ' :: text) :: texts, ?_,
        List.Forall₂.cons (nests_entry hlit hnests) hall⟩
      rw [dumpsEntries, hk, hv, hentries]
      rfl

/-- **The compact text of a value is as deep as the value.** Every container is a pair
of brackets around its members, and brackets in a string do not count. -/
theorem nests_dumps {v : PyValue} (h : Dumpable v) :
    ∃ text, dumps v = .ok text ∧ PyJson.Nests text (depth (fun _ => 0) v) := by
  have hcomma : PyJson.Nests [',', ' '] 0 := PyJson.nests_of_all_bare (by decide)
  induction h with
  | none => exact ⟨_, rfl, nests_null⟩
  | bool b => exact ⟨_, rfl, nests_bool b⟩
  | int _ => exact ⟨_, rfl, nests_int _⟩
  | float hx => exact ⟨_, rfl, nests_float hx⟩
  | str s => exact ⟨_, rfl, PyJson.nests_string (stringLit_units s)⟩
  | object text => exact ⟨_, rfl, PyJson.nests_string (stringLit_units text)⟩
  | @list items _ ih =>
      obtain ⟨texts, htexts, hall⟩ := dumpsItems_nests ih
      refine ⟨'[' :: commaSeparated texts ++ [']'], by rw [dumps, htexts]; rfl, ?_⟩
      exact (PyJson.nests_intercalate hcomma hall).enclosed (Or.inl rfl) (Or.inl rfl)
  | @dict entries hkeys _ ih =>
      obtain ⟨texts, htexts, hall⟩ := dumpsEntries_nests hkeys ih
      refine ⟨'\x7b' :: commaSeparated texts ++ ['\x7d'], by rw [dumps, htexts]; rfl, ?_⟩
      exact (PyJson.nests_intercalate hcomma hall).enclosed (Or.inr rfl) (Or.inr rfl)

/-- Between two brackets, each on a line of its own, texts are one level deeper than the
deepest of them. -/
theorem nests_enclose {opening closing : Char} (hopening : opening = '[' ∨ opening = '\x7b')
    (hclosing : closing = ']' ∨ closing = '\x7d') (level : ℕ) {texts : List (List Char)}
    {depths : List ℕ} (h : List.Forall₂ PyJson.Nests texts depths) :
    PyJson.Nests (enclose opening closing level texts) (PyJson.deepestOf depths + 1) := by
  have hline : ∀ level, PyJson.Nests (newline level) 0 := fun level =>
    PyJson.nests_ws (ws_newline level)
  have hcomma : PyJson.Nests (',' :: newline (level + 1)) 0 := by
    have hsingle : PyJson.Nests [','] 0 := PyJson.nests_of_all_bare (by decide)
    exact hsingle.append (hline (level + 1))
  unfold enclose
  split
  · next hnil =>
    rw [hnil] at h
    rw [List.forall₂_nil_left_iff.mp h]
    exact PyJson.nests_nil.enclosed hopening hclosing
  · have hbody := ((hline (level + 1)).append (PyJson.nests_intercalate hcomma h)).append
      (hline level)
    have hall := hbody.enclosed hopening hclosing
    rw [Nat.zero_max, Nat.max_zero] at hall
    simpa [List.append_assoc] using hall

/-- The indented texts of the items of a list are as deep as the items. -/
theorem nests_indentItems {level : ℕ} {items : List PyJson.Value}
    (h : ∀ v ∈ items, PyJson.Nests (dumpsIndent level v) v.depth) :
    List.Forall₂ PyJson.Nests (indentItems level items) (PyJson.itemDepths items) := by
  induction items with
  | nil => exact List.Forall₂.nil
  | cons v items ih =>
      rw [List.forall_mem_cons] at h
      exact List.Forall₂.cons h.1 (ih h.2)

/-- The indented texts of the entries of a dict are as deep as their values. -/
theorem nests_indentEntries {level : ℕ} {entries : List (PyStr × PyJson.Value)}
    (hkey : ∀ entry ∈ entries, Paired entry.1)
    (h : ∀ entry ∈ entries, PyJson.Nests (dumpsIndent level entry.2) entry.2.depth) :
    List.Forall₂ PyJson.Nests (indentEntries level entries) (PyJson.entryDepths entries) := by
  induction entries with
  | nil => exact List.Forall₂.nil
  | cons entry entries ih =>
      rw [List.forall_mem_cons] at hkey h
      exact List.Forall₂.cons (nests_entry (stringLit_paired hkey.1) h.1) (ih hkey.2 h.2)

/-- **The indented text of a value is as deep as the value**, at every level; line
breaks and blanks open nothing. -/
theorem nests_dumpsIndent {v : PyJson.Value} (h : PyJson.Loaded v) (level : ℕ) :
    PyJson.Nests (dumpsIndent level v) v.depth := by
  induction h generalizing level with
  | none => exact nests_null
  | bool b => exact nests_bool b
  | int _ => exact nests_int _
  | float hx => exact nests_float hx
  | str hs => exact PyJson.nests_string (stringLit_paired hs)
  | list _ ih =>
      exact nests_enclose (Or.inl rfl) (Or.inl rfl) level
        (nests_indentItems fun v hv => ih v hv (level + 1))
  | dict _ hkeys _ ih =>
      exact nests_enclose (Or.inr rfl) (Or.inr rfl) level
        (nests_indentEntries hkeys fun entry he => ih entry he (level + 1))

end Json

open Json

/-! ## Payloads -/

/-- How many lists and dicts may be nested where a payload is written, and how many of them
`str` of an object takes the place of; how many may be nested where a payload is loaded;
and which values are laid out anew.  The last of these is no number: the writer with an
indent is Python code, where numbers and keys take frames too. -/
structure NestingLimits where
  dumps : ℕ
  leaf : PyStr → ℕ
  loads : ℕ
  indent : PyJson.Value → Bool

/-- `build_payload` of a dict, within the limits. -/
def payloadWithin (limits : NestingLimits) (order : PyValue) : Except Exn Bytes := do
  let text ← dumpsWithin limits.leaf limits.dumps order
  .ok (text.flatMap String.utf8EncodeChar)

/-- **On either side of the limits.**  A value that is not too deep to be written has a
payload, which is loaded as what JSON keeps of the value if it is not too deep for that
either, and is refused otherwise.  A value that is too deep to be written raises.  Of a
value that JSON can hold it keeps everything. -/
theorem payload_round_trips {v : PyValue} (h : Dumpable v) (limits : NestingLimits) :
    (depth limits.leaf v ≤ limits.dumps →
      ∃ payload text, payloadWithin limits v = .ok payload ∧
        buildPayload (some v) = .ok payload ∧ decode payload = some text ∧
        PyJson.loadsWithin limits.loads text =
          if depth (fun _ => 0) v ≤ limits.loads then some (decoded v) else none) ∧
      (limits.dumps < depth limits.leaf v → payloadWithin limits v = .error recursionError) ∧
      ∀ w, PyJson.Loaded w → v = toPy w → decoded v = w := by
  refine ⟨fun hdumps => ?_, fun hdeep => ?_, ?_⟩
  · obtain ⟨text, htext, hnests⟩ := nests_dumps h
    obtain ⟨payload, text', hpayload, hdecode, hloads⟩ := loads_payload h
    have hsame : payload = text.flatMap String.utf8EncodeChar :=
      Except.ok.inj (hpayload.symm.trans (buildPayload_of_dumps htext))
    obtain rfl : text' = text := by
      rw [hsame, decode_eq_some_iff.mpr rfl] at hdecode
      exact (Option.some.inj hdecode).symm
    refine ⟨payload, text', ?_, hpayload, hdecode, ?_⟩
    · show (dumpsWithin limits.leaf limits.dumps v).bind _ = _
      rw [dumpsWithin_eq h _ _, if_pos hdumps, htext, hsame]
      rfl
    · rw [PyJson.loadsWithin, hnests.nesting, hloads]
  · show (dumpsWithin limits.leaf limits.dumps v).bind _ = _
    rw [dumpsWithin_eq h _ _, if_neg (not_le.mpr hdeep)]
    rfl
  · intro w hw hv
    rw [hv, decoded_toPy hw]

/-- An order with a time stamp, a list and two keys that become equal. -/
def nestedOrder : PyValue :=
  .dict [(.str (ofString "orderId"), .str (ofString "3001")),
    (.int 1, .list [.bool true, .none, .float (.finite (5 / 2)), .float .nan]),
    (.str (ofString "when"), .object (ofString "2026-01-02 03:04:05")),
    (.str (ofString "1"), .int (-7))]

theorem nestedOrder_dumpable : Dumpable nestedOrder := by
  have hdigit : ∀ n : ℤ, n.natAbs < 10 → n.natAbs < 10 ^ PyJson.maxStrDigits := by
    intro n hn
    exact hn.trans_le (Nat.le_self_pow (by decide) 10)
  have hhalf : PyFloat.IsBinary64 (5 / 2) := ⟨5, -1, by decide, by decide, by decide, by norm_num⟩
  have hitems : ∀ v ∈ [PyValue.bool true, .none, .float (.finite (5 / 2)), .float .nan],
      Dumpable v := by
    simp only [List.forall_mem_cons]
    refine ⟨.bool _, .none, .float ?_, .float nofun, nofun⟩
    intro q hq
    rwa [← PyFloat.finite.inj hq]
  apply Dumpable.dict
  · simp only [List.forall_mem_cons]
    exact ⟨trivial, hdigit 1 (by decide), trivial, trivial, nofun⟩
  · simp only [List.forall_mem_cons]
    exact ⟨.str _, .list hitems, .object _, .int (hdigit (-7) (by decide)), nofun⟩

/-- Limits for a time stamp, whose text takes one level. -/
def sampleLimits (dumps loads : ℕ) : NestingLimits := ⟨dumps, fun _ => 1, loads, fun _ => true⟩

/-- The order is two levels deep: within two levels it comes back, with one it is refused,
by the writer or by the loader. -/
theorem payload_round_trips_nested :
    (∃ payload text, payloadWithin (sampleLimits 2 2) nestedOrder = .ok payload ∧
      decode payload = some text ∧
      PyJson.loadsWithin 2 text = some (decoded nestedOrder)) ∧
    (∃ payload text, payloadWithin (sampleLimits 2 1) nestedOrder = .ok payload ∧
      decode payload = some text ∧ PyJson.loadsWithin 1 text = none) ∧
    payloadWithin (sampleLimits 1 2) nestedOrder = .error recursionError := by
  have hwritten : depth (fun _ => 1) nestedOrder = 2 := rfl
  have hloaded : depth (fun _ => 0) nestedOrder = 2 := rfl
  obtain ⟨hwithin, -, -⟩ := payload_round_trips nestedOrder_dumpable (sampleLimits 2 2)
  obtain ⟨hbetween, -, -⟩ := payload_round_trips nestedOrder_dumpable (sampleLimits 2 1)
  obtain ⟨-, hover, -⟩ := payload_round_trips nestedOrder_dumpable (sampleLimits 1 2)
  obtain ⟨payload, text, hpayload, -, hdecode, hloads⟩ := hwithin hwritten.le
  obtain ⟨payload', text', hpayload', -, hdecode', hloads'⟩ := hbetween hwritten.le
  rw [hloaded] at hloads hloads'
  exact ⟨⟨payload, text, hpayload, hdecode, hloads⟩,
    ⟨payload', text', hpayload', hdecode', hloads'⟩,
    hover (Nat.lt_of_lt_of_eq (by decide) hwritten.symm)⟩

/-! ## Reports -/

/-- The value that `format_message` lays out anew: that of a payload which decodes, is
JSON, is not too deep to be loaded, and is one that the writer with an indent gets through. -/
def laidOut (limits : NestingLimits) (value : Option Bytes) : Option PyJson.Value :=
  ((value.bind decode).bind (PyJson.loadsWithin limits.loads)).filter limits.indent

/-- `repr` of the value of a message. -/
def reprValue : Option Bytes → List Char
  | some bytes => reprBytes bytes
  | none => "None".toList

/-- `payload` in `format_message`; every exception, a RecursionError too, leads to `repr`. -/
def payloadTextWithin (limits : NestingLimits) (value : Option Bytes) : List Char :=
  match laidOut limits value with
  | some v => dumpsIndent 0 v
  | none => reprValue value

/-- The lines of the payload in `format_message`. -/
def payloadLinesWithin (limits : NestingLimits) (value : Option Bytes) : List PyStr :=
  splitlines ((payloadTextWithin limits value).map ofChar)

/-- What is laid out is what is loaded, were there no limits. -/
theorem loads_of_laidOut {limits : NestingLimits} {value : Option Bytes} {v : PyJson.Value}
    (h : laidOut limits value = some v) : (value.bind decode).bind PyJson.loads = some v := by
  obtain ⟨text, hdecode, hloads⟩ := Option.bind_eq_some_iff.mp (Option.filter_eq_some_iff.mp h).1
  rw [hdecode]
  exact PyJson.loads_of_loadsWithin hloads

/-- The `repr` of a value is printable and in one line. -/
theorem shown_reprValue (value : Option Bytes) : ∀ c ∈ reprValue value, Shown c := by
  cases value with
  | none => simp [reprValue, Shown]
  | some bytes => exact shown_reprBytes bytes

/-- Either way the text of the payload is printable. -/
theorem laid_payloadTextWithin (limits : NestingLimits) (value : Option Bytes) :
    Laid (payloadTextWithin limits value) ∧ payloadTextWithin limits value ≠ [] := by
  unfold payloadTextWithin
  split
  · next v hv =>
    have hloaded := loaded_of_payload (loads_of_laidOut hv)
    obtain ⟨c, tail, htext, -⟩ := (scans_dumpsIndent hloaded 0).start
    exact ⟨laid_dumpsIndent hloaded 0, by rw [htext]; exact List.cons_ne_nil _ _⟩
  · refine ⟨laid_of_shown (shown_reprValue value), ?_⟩
    cases value <;> exact List.cons_ne_nil _ _

/-- **The report shows the payload.**  Below its head a report has the payload as a block.
Of a payload that decodes, is JSON in whatever layout, and is nested too deep neither to be
loaded nor to be laid out, the block as it is printed is JSON for the same value, as deep
as the value; of any other one it is a single line with its `repr`.

Where the writer with an indent gives up is left open altogether: the block is as stated
whatever values `limits.indent` admits. -/
theorem report_shows_payload (limits : NestingLimits) (index : ℤ) (msg : DlqMessage) :
    ∃ block, formatMessage (payloadLinesWithin limits) index msg =
        reportHead index msg ++ ofString "\n" ++ block.map ofChar ∧
      match laidOut limits msg.value with
      | some v => (msg.value.bind decode).bind PyJson.loads = some v ∧
          ∀ limit, PyJson.loadsWithin limit block = if v.depth ≤ limit then some v else none
      | none => '\n' ∉ block ∧ block = ' ' :: ' ' :: reprValue msg.value := by
  obtain ⟨hlaid, hne⟩ := laid_payloadTextWithin limits msg.value
  refine ⟨_, formatMessage_of_laid index msg rfl hlaid hne, ?_⟩
  unfold payloadTextWithin
  split
  · next v hv =>
    have hloads := loads_of_laidOut hv
    have hloaded := loaded_of_payload hloads
    refine ⟨hloads, fun limit => ?_⟩
    have hblanks : PyJson.Nests [' ', ' '] 0 := PyJson.nests_of_all_bare (by decide)
    have hnests : PyJson.Nests (' ' :: ' ' :: shift (dumpsIndent 0 v)) v.depth := by
      rw [shift_dumpsIndent hloaded]
      simpa using hblanks.append (nests_dumpsIndent hloaded 1)
    rw [PyJson.loadsWithin, hnests.nesting, loads_shifted hloaded]
  · have hshown := shown_reprValue msg.value
    rw [shift_of_shown hshown]
    refine ⟨?_, rfl⟩
    intro hmem
    simp only [List.mem_cons] at hmem
    rcases hmem with hblank | hblank | hmem
    · exact absurd hblank (by decide)
    · exact absurd hblank (by decide)
    · exact absurd (hshown _ hmem).1 (by decide)

/-- A payload that is JSON only within the limits is shown as if there were none. -/
theorem payloadLinesWithin_eq {limits : NestingLimits} {value : Option Bytes}
    (h : ∀ text v, value.bind decode = some text → PyJson.loads text = some v →
      PyJson.nesting text ≤ limits.loads ∧ limits.indent v = true) :
    payloadLinesWithin limits value = payloadLines value := by
  have hlaid : laidOut limits value = (value.bind decode).bind PyJson.loads := by
    unfold laidOut
    cases hdecode : value.bind decode with
    | none => rfl
    | some text =>
        cases hloads : PyJson.loads text with
        | none => simp [PyJson.loadsWithin, hloads]
        | some v =>
            obtain ⟨hnesting, hdepth⟩ := h text v hdecode hloads
            simp [PyJson.loadsWithin, hloads, hnesting, hdepth, Option.filter]
  unfold payloadLinesWithin payloadTextWithin payloadLines payloadText
  rw [hlaid]
  cases value <;> rfl

/-- **The payload of an order is shown in any interpreter** that loads one dict and lays this
one out, for that is all it is. -/
theorem payloadLinesWithin_order {o : AvroOrder} {payload : Bytes} {limits : NestingLimits}
    (hprice : ∀ q, o.price = .finite q → PyFloat.IsBinary64 q)
    (h : buildPayload (some (dictToOrder o).toPy) = .ok payload)
    (hloads : 1 ≤ limits.loads) (hindent : limits.indent (orderDict o) = true) :
    payloadLinesWithin limits (some payload) = payloadLines (some payload) := by
  refine payloadLinesWithin_eq fun text v hdecode hvalue => ?_
  obtain ⟨text', htext, hnests⟩ := nests_dumps (dumpable_order hprice)
  obtain rfl : payload = text'.flatMap String.utf8EncodeChar :=
    Except.ok.inj (h.symm.trans (buildPayload_of_dumps htext))
  have hdict := loads_orderPayload hprice h
  rw [Option.bind_some, decode_eq_some_iff.mpr rfl] at hdecode
  rw [decode_eq_some_iff.mpr rfl, Option.bind_some] at hdict
  obtain rfl := Option.some.inj hdecode
  obtain rfl := Option.some.inj (hdict.symm.trans hvalue)
  rw [hnests.nesting, dictToOrder_toPy]
  exact ⟨hloads, hindent⟩

end OrderPipeline

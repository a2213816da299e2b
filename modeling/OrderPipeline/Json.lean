import OrderPipeline.Failures

/-!
# `json.dumps`

Python values as `json.dumps(value, default=str)` sees them, and the text it
returns with `ensure_ascii` and `allow_nan` at their defaults.  A leaf that is
not serialisable is an `object`: `default` turns it into its `str()`.  A dict
key must be a string, a number, a bool or None; any other one is a `TypeError`.
-/

namespace OrderPipeline

/-- A dict key; `other` is a hashable object of another type, by type name. -/
inductive PyKey
  | str (s : PyStr)
  | int (n : ℤ)
  | float (x : PyFloat)
  | bool (b : Bool)
  | none
  | other (typeName : String)

/-- A Python value; `object` is a leaf of another type with its `str()`. -/
inductive PyValue
  | none
  | bool (b : Bool)
  | int (n : ℤ)
  | float (x : PyFloat)
  | str (s : PyStr)
  | list (items : List PyValue)
  | dict (entries : List (PyKey × PyValue))
  | object (text : PyStr)

namespace Json

def typeError (typeName : String) : Exn :=
  Exn.ofText "TypeError" []
    ("keys must be str, int, float, bool or None, not " ++ typeName)

def hexDigit (n : ℕ) : Char :=
  Char.ofNat (if n < 10 then 0x30 + n else 0x61 + (n - 10))

/-- `\uXXXX`. -/
def hexEscape (n : ℕ) : List Char :=
  ['\\', 'u', hexDigit (n / 4096 % 16), hexDigit (n / 256 % 16),
    hexDigit (n / 16 % 16), hexDigit (n % 16)]

/-- One code point inside a JSON string: printable ASCII stays as it is, and a
code point above the basic plane becomes a surrogate pair. -/
def escape (c : CodePoint) : List Char :=
  if c.val = 0x22 then ['\\', '"']
  else if c.val = 0x5c then ['\\', '\\']
  else if c.val = 0x0a then ['\\', 'n']
  else if c.val = 0x0d then ['\\', 'r']
  else if c.val = 0x09 then ['\\', 't']
  else if c.val = 0x0c then ['\\', 'f']
  else if c.val = 0x08 then ['\\', 'b']
  else if 0x20 ≤ c.val ∧ c.val ≤ 0x7e then [Char.ofNat c.val]
  else if c.val < 0x10000 then hexEscape c.val
  else
    hexEscape (0xd800 + (c.val - 0x10000) / 1024) ++
      hexEscape (0xdc00 + (c.val - 0x10000) % 1024)

/-- A string between quotes, with everything escaped that is not printable ASCII. -/
def dumpsStr (s : PyStr) : List Char := '"' :: s.flatMap escape ++ ['"']

/-- The text of a float: `repr`, with JavaScript's names for the special values. -/
def dumpsFloat : PyFloat → List Char
  | .posInf => "Infinity".toList
  | .negInf => "-Infinity".toList
  | .nan => "NaN".toList
  | x => x.repr.toList

def dumpsBool (b : Bool) : List Char := if b then "true".toList else "false".toList

/-- The string that stands for a dict key. -/
def dumpsKey : PyKey → Except Exn (List Char)
  | .str s => .ok (dumpsStr s)
  | .int n => .ok ('"' :: (toString n).toList ++ ['"'])
  | .float x => .ok ('"' :: dumpsFloat x ++ ['"'])
  | .bool b => .ok ('"' :: dumpsBool b ++ ['"'])
  | .none => .ok ('"' :: "null".toList ++ ['"'])
  | .other typeName => .error (typeError typeName)

/-- Items with `", "` between them. -/
def commaSeparated (items : List (List Char)) : List Char :=
  List.intercalate [',', ' '] items

mutual

/-- `json.dumps(value, default=str)`. -/
def dumps : PyValue → Except Exn (List Char)
  | .none => .ok "null".toList
  | .bool b => .ok (dumpsBool b)
  | .int n => .ok (toString n).toList
  | .float x => .ok (dumpsFloat x)
  | .str s => .ok (dumpsStr s)
  | .object text => .ok (dumpsStr text)
  | .list items => do
      let texts ← dumpsItems items
      .ok ('[' :: commaSeparated texts ++ [']'])
  | .dict entries => do
      let texts ← dumpsEntries entries
      .ok ('\x7b' :: commaSeparated texts ++ ['\x7d'])

def dumpsItems : List PyValue → Except Exn (List (List Char))
  | [] => .ok []
  | v :: rest => do
      let text ← dumps v
      let texts ← dumpsItems rest
      .ok (text :: texts)

def dumpsEntries : List (PyKey × PyValue) → Except Exn (List (List Char))
  | [] => .ok []
  | (k, v) :: rest => do
      let key ← dumpsKey k
      let text ← dumps v
      let texts ← dumpsEntries rest
      .ok ((key ++ ':' :: ' ' :: text) :: texts)

end

/-! ## When `dumps` returns -/

/-- The keys that `json.dumps` accepts. -/
def keyOk : PyKey → Bool
  | .other _ => false
  | _ => true

mutual

/-- Every key of every dict inside the value is one that `json.dumps` accepts. -/
def keysOk : PyValue → Bool
  | .list items => itemsOk items
  | .dict entries => entriesOk entries
  | _ => true

def itemsOk : List PyValue → Bool
  | [] => true
  | v :: rest => keysOk v && itemsOk rest

def entriesOk : List (PyKey × PyValue) → Bool
  | [] => true
  | (k, v) :: rest => keyOk k && keysOk v && entriesOk rest

end

/-- `json.dumps` accepts a key exactly if it is of a kind that JSON has a text for. -/
theorem dumpsKey_ok_iff (k : PyKey) : (∃ text, dumpsKey k = .ok text) ↔ keyOk k := by
  cases k <;> simp [dumpsKey, keyOk]

mutual

/-- `dumps` returns exactly when all keys are accepted; leaves never stop it. -/
theorem dumps_ok_iff : ∀ v : PyValue, (∃ text, dumps v = .ok text) ↔ keysOk v
  | .none | .bool _ | .int _ | .float _ | .str _ | .object _ => by simp [dumps, keysOk]
  | .list items => by
      rw [keysOk, ← dumpsItems_ok_iff items, dumps]
      cases dumpsItems items <;> simp [bind, Except.bind]
  | .dict entries => by
      rw [keysOk, ← dumpsEntries_ok_iff entries, dumps]
      cases dumpsEntries entries <;> simp [bind, Except.bind]

/-- All elements have to be accepted, in any order; this is the list case of the
structural induction. -/
theorem dumpsItems_ok_iff : ∀ items : List PyValue,
    (∃ texts, dumpsItems items = .ok texts) ↔ itemsOk items
  | [] => by simp [dumpsItems, itemsOk]
  | v :: rest => by
      rw [itemsOk, Bool.and_eq_true, ← dumps_ok_iff v, ← dumpsItems_ok_iff rest, dumpsItems]
      cases dumps v <;> cases dumpsItems rest <;> simp [bind, Except.bind]

/-- The same for the entries of a dict, where the keys count as well. -/
theorem dumpsEntries_ok_iff : ∀ entries : List (PyKey × PyValue),
    (∃ texts, dumpsEntries entries = .ok texts) ↔ entriesOk entries
  | [] => by simp [dumpsEntries, entriesOk]
  | (k, v) :: rest => by
      rw [entriesOk, Bool.and_eq_true, Bool.and_eq_true, ← dumpsKey_ok_iff k,
        ← dumps_ok_iff v, ← dumpsEntries_ok_iff rest, dumpsEntries]
      cases dumpsKey k <;> cases dumps v <;> cases dumpsEntries rest <;>
        simp [bind, Except.bind]

end

end Json

end OrderPipeline

import OrderPipeline.Consumer
import OrderPipeline.Foundation.FloatText
import OrderPipeline.Foundation.JsonReader
import OrderPipeline.Foundation.Utf8

/-!
# Dead letter payloads as JSON texts

What `json.dumps` writes for a decoded order, against the JSON grammar:

* a string is a string literal that denotes it (`stringLit_dumpsStr`);
* a finite price is a number that is read as it, whatever its magnitude;
* NaN and the infinities are written as names that no production derives.

So the payload of a decoded order is a JSON text, and parses to exactly its three
fields, when the price is finite, and is no JSON text otherwise
(`payload_is_json_iff`).
-/

namespace OrderPipeline

open JsonText PyStr

namespace Json

/-! ## Strings -/

/-- A hexadecimal digit is read as the number it was written for. -/
theorem hexValue?_hexDigit : ∀ n < 16, hexValue? (hexDigit n) = some n := by decide

/-- An escape of a code unit by its number is a character of a string literal, and
stands for that unit. -/
theorem charLit_hexEscape {n : ℕ} (hn : n < 0x10000) : CharLit (hexEscape n) [n] := by
  apply CharLit.hex
  unfold hexUnit?
  rw [hexValue?_hexDigit _ (Nat.mod_lt _ (by decide)),
    hexValue?_hexDigit _ (Nat.mod_lt _ (by decide)),
    hexValue?_hexDigit _ (Nat.mod_lt _ (by decide)),
    hexValue?_hexDigit _ (Nat.mod_lt _ (by decide))]
  simp only [Option.bind_eq_bind, Option.bind_some, Option.some.injEq]
  omega

/-- An escape of one character. -/
theorem chars_escape {c : CodePoint} {u : ℕ} (e : Char) (hc : c.val = u) (hu : u < 0x10000)
    (he : escapeUnit? e = some u) : Chars ['\\', e] (utf16 c) := by
  rw [utf16_of_lt (by omega), hc]
  exact Chars.single (CharLit.escape e he)

/-- A printable character stands for itself. -/
theorem chars_printable {c : CodePoint} (hquote : c.val ≠ 0x22) (hbackslash : c.val ≠ 0x5c)
    (h : 0x20 ≤ c.val ∧ c.val ≤ 0x7e) : Chars [Char.ofNat c.val] (utf16 c) := by
  have hvalid : c.val.isValidChar := by
    simp only [Nat.isValidChar]
    omega
  have hnat : (Char.ofNat c.val).toNat = c.val := by
    rw [Char.ofNat, dif_pos hvalid]
    rfl
  have hchar : ofChar (Char.ofNat c.val) = c := Fin.ext hnat
  have hne : ∀ d : Char, c.val ≠ d.toNat → Char.ofNat c.val ≠ d := by
    rintro d hd rfl
    exact hd hnat.symm
  have hlit : CharLit [Char.ofNat c.val] (utf16 (ofChar (Char.ofNat c.val))) :=
    CharLit.unescaped _ (by omega) (hne '"' hquote) (hne '\\' hbackslash)
  rw [hchar] at hlit
  exact Chars.single hlit

/-- What `dumps` writes for a code point denotes its code units: the seven short
escapes, the printable characters, and one or two numbered escapes for the rest. -/
theorem escape_chars (c : CodePoint) : Chars (escape c) (utf16 c) := by
  unfold escape
  split
  · next h => exact chars_escape '"' h (by decide) (by decide)
  next hquote =>
  split
  · next h => exact chars_escape '\\' h (by decide) (by decide)
  next hbackslash =>
  split
  · next h => exact chars_escape 'n' h (by decide) (by decide)
  split
  · next h => exact chars_escape 'r' h (by decide) (by decide)
  split
  · next h => exact chars_escape 't' h (by decide) (by decide)
  split
  · next h => exact chars_escape 'f' h (by decide) (by decide)
  split
  · next h => exact chars_escape 'b' h (by decide) (by decide)
  split
  · next hprintable => exact chars_printable hquote hbackslash hprintable
  split
  · next hbasic =>
    rw [utf16_of_lt hbasic]
    exact Chars.single (charLit_hexEscape hbasic)
  · next hpair =>
    have hlt := c.isLt
    rw [utf16, if_neg hpair]
    exact Chars.cons (charLit_hexEscape (by omega)) (Chars.single (charLit_hexEscape (by omega)))

/-- A string, escaped character by character, is the body of a literal; its code units
are those of the string. -/
theorem flatMap_escape_chars (s : PyStr) : Chars (s.flatMap escape) (s.flatMap utf16) := by
  induction s with
  | nil => exact Chars.nil
  | cons c s ih =>
      rw [List.flatMap_cons, List.flatMap_cons]
      exact (escape_chars c).append ih

/-- Text without surrogates is written as a string literal that denotes it. -/
theorem stringLit_dumpsStr {s : PyStr} (h : ∀ c ∈ s, isSurrogate c = false) :
    StringLit (dumpsStr s) s :=
  ⟨s.flatMap escape, s.flatMap utf16, rfl, flatMap_escape_chars s,
    (ofUtf16_flatMap_utf16 h).symm⟩

/-! ## Objects -/

/-- The text of a member as `dumps` writes it: a key, a colon, a blank and a value. -/
def MemberText (text : List Char) (m : PyStr × Value) : Prop :=
  ∃ key value, text = key ++ ':' :: ' ' :: value ∧ StringLit key m.1 ∧
    Derives value (.value m.2)

theorem ws_blank : Ws [' '] := by
  intro c hc
  obtain rfl := List.mem_singleton.mp hc
  rfl

theorem ws_nil : Ws [] := fun _ hc => absurd hc List.not_mem_nil

/-- Member texts with `", "` between them are the members of an object. -/
theorem members_commaSeparated {texts : List (List Char)} {ms : List (PyStr × Value)}
    (h : List.Forall₂ MemberText texts ms) (hne : texts ≠ []) {w : List Char} (hw : Ws w) :
    Derives (w ++ commaSeparated texts) (.members ms) := by
  induction h generalizing w with
  | nil => exact absurd rfl hne
  | @cons text m texts ms hm hrest ih =>
      obtain ⟨key, value, rfl, hkey, hvalue⟩ := hm
      cases texts with
      | nil =>
          cases hrest
          have hlast := Derives.lastMember hw hkey ws_nil ws_blank hvalue ws_nil
          simpa [commaSeparated] using hlast
      | cons next texts =>
          have hmore := Derives.member hw hkey ws_nil ws_blank hvalue ws_nil
            (ih (List.cons_ne_nil _ _) ws_blank)
          simpa [commaSeparated, List.intercalate_cons_cons] using hmore

end Json

open Json

/-! ## The payload of an order -/

/-- What `dumps` writes for the three entries of a decoded order. -/
def orderTexts (o : AvroOrder) : List (List Char) :=
  [dumpsStr (ofString "orderId") ++ ':' :: ' ' :: dumpsStr (ofString o.orderId),
    dumpsStr (ofString "product") ++ ':' :: ' ' :: dumpsStr (ofString o.product),
    dumpsStr (ofString "price") ++ ':' :: ' ' :: dumpsFloat o.price]

def orderText (o : AvroOrder) : List Char :=
  '\x7b' :: commaSeparated (orderTexts o) ++ ['\x7d']

/-- The payload of an order is the UTF-8 encoding of its text. -/
theorem buildPayload_orderText (o : AvroOrder) :
    buildPayload (some (dictToOrder o).toPy) =
      .ok ((orderText o).flatMap String.utf8EncodeChar) := rfl

/-- The object with the fields of an order, its price spelled as the number `d`. -/
def orderValue (o : AvroOrder) (d : ℚ) : Value :=
  .obj [(ofString "orderId", .str (ofString o.orderId)),
    (ofString "product", .str (ofString o.product)), (ofString "price", .num d)]

/-- A string of characters is dumped as a literal of itself. -/
theorem stringLit_ofString (s : String) : StringLit (dumpsStr (ofString s)) (ofString s) :=
  stringLit_dumpsStr (isSurrogate_ofString s)

/-- With a finite price the text denotes the order, and its price is read as a decimal
that rounds to it. -/
theorem orderText_text {o : AvroOrder} {q : ℚ} (hprice : o.price = .finite q)
    (hq : PyFloat.IsBinary32 q) :
    ∃ d, PyFloat.ofDecimal d = o.price ∧ Text (orderText o) (orderValue o d) := by
  obtain ⟨m, htext, hvalue⟩ := PyFloat.repr_numeral hq.isBinary64
  refine ⟨m.value, by rw [hvalue, hprice], [], orderText o, [], ws_nil, ?_, ws_nil, by simp⟩
  have hfloat : Derives (dumpsFloat o.price) (.value (.num m.value)) := by
    rw [hprice, show dumpsFloat (.finite q) = m.text from htext.symm]
    exact Derives.number m
  have hmembers : List.Forall₂ MemberText (orderTexts o)
      [(ofString "orderId", .str (ofString o.orderId)),
        (ofString "product", .str (ofString o.product)), (ofString "price", .num m.value)] :=
    .cons ⟨_, _, rfl, stringLit_ofString _, Derives.string (stringLit_ofString _)⟩ <|
    .cons ⟨_, _, rfl, stringLit_ofString _, Derives.string (stringLit_ofString _)⟩ <|
    .cons ⟨_, _, rfl, stringLit_ofString _, hfloat⟩ .nil
  exact Derives.object (members_commaSeparated hmembers (List.cons_ne_nil _ _) ws_nil)

/-- The names of the special values are no JSON value. -/
theorem readValue_special {x : PyFloat} (hx : ∀ q, x ≠ .finite q) (fuel : ℕ)
    (rest : List Char) : readValue fuel (dumpsFloat x ++ rest) = none := by
  cases fuel with
  | zero => rfl
  | succ fuel =>
      cases x with
      | finite q => exact absurd rfl (hx q)
      | posInf => rfl
      | negInf => rfl
      | nan => rfl

/-- With any other price it is no JSON text: `NaN` and the infinities stand where the
grammar asks for a value. -/
theorem orderText_not_text {o : AvroOrder} (hprice : ∀ q, o.price ≠ .finite q) (v : Value) :
    ¬Text (orderText o) v := by
  have hshape : orderText o = '\x7b' :: ([] ++ (dumpsStr (ofString "orderId") ++ ([] ++ ':' ::
      ([' '] ++ (dumpsStr (ofString o.orderId) ++ ([] ++ ',' ::
        ([' '] ++ (dumpsStr (ofString "product") ++ ([] ++ ':' ::
          ([' '] ++ (dumpsStr (ofString o.product) ++ ([] ++ ',' ::
            ([' '] ++ (dumpsStr (ofString "price") ++ ([] ++ ':' ::
              ([' '] ++ (dumpsFloat o.price ++ ['\x7d']))))))))))))))))) := by
    simp [orderText, orderTexts, commaSeparated, List.intercalate_cons_cons]
  rw [hshape]
  apply not_text_of_members
  · intro heq
    exact absurd (Option.some.inj heq) (by decide)
  · apply readMembers_none_of_rest ws_nil (stringLit_ofString _) ws_nil ws_blank
      (stringLit_ofString _) ws_nil
    apply readMembers_none_of_rest ws_blank (stringLit_ofString _) ws_nil ws_blank
      (stringLit_ofString _) ws_nil
    intro fuel
    cases fuel with
    | zero => rfl
    | succ fuel =>
        apply readMembers_none_of_value ws_blank (stringLit_ofString _) ws_nil
        have hskip : JsonText.skipWs ([' '] ++ (dumpsFloat o.price ++ ['\x7d'])) =
            dumpsFloat o.price ++ ['\x7d'] := by
          cases hfloat : o.price with
          | finite q => exact absurd hfloat (hprice q)
          | posInf => rfl
          | negInf => rfl
          | nan => rfl
        rw [hskip]
        exact readValue_special hprice fuel _

/-- The bytes are a JSON text in UTF-8 that denotes `v`. -/
def IsJson (payload : Bytes) (v : Value) : Prop :=
  ∃ text, payload = text.flatMap String.utf8EncodeChar ∧ Text text v

/-- The bytes are a JSON text in UTF-8, and the reader parses it to `v`. -/
def ParsesTo (payload : Bytes) (v : Value) : Prop :=
  ∃ text, payload = text.flatMap String.utf8EncodeChar ∧ Text text v ∧ read text = some v

/-- **A payload is JSON that gives the order back exactly when its price is finite**,
for every decoded order: all ids, all products and all binary32 prices. -/
theorem payload_is_json_iff (o : AvroOrder)
    (hprice : ∀ q, o.price = .finite q → PyFloat.IsBinary32 q) :
    (∃ payload d, buildPayload (some (dictToOrder o).toPy) = .ok payload ∧
      ParsesTo payload (orderValue o d) ∧ PyFloat.ofDecimal d = o.price) ↔
      ∃ q, o.price = .finite q := by
  constructor
  · rintro ⟨payload, d, hpayload, ⟨text, hbytes, htext, -⟩, -⟩
    rw [buildPayload_orderText] at hpayload
    obtain rfl : orderText o = text :=
      flatMap_utf8_injective ((Except.ok.inj hpayload).trans hbytes)
    by_contra hspecial
    exact orderText_not_text (fun q hq => hspecial ⟨q, hq⟩) _ htext
  · rintro ⟨q, hq⟩
    obtain ⟨d, hd, htext⟩ := orderText_text hq (hprice q hq)
    exact ⟨_, d, buildPayload_orderText o, ⟨_, rfl, htext, read_of_text htext⟩, hd⟩

/-- An order with quotation marks, a character beyond the basic plane and a price
that binary32 does not hold exactly. -/
def quotedOrder : AvroOrder := ⟨"10\"01\"", "Item 😀\t", .finite (10055844 / 2 ^ 18)⟩

/-- The order whose product needs escapes, written and read back. -/
theorem quoted_order_parses_back :
    ∃ payload d, buildPayload (some (dictToOrder quotedOrder).toPy) = .ok payload ∧
      ParsesTo payload (orderValue quotedOrder d) ∧
      PyFloat.ofDecimal d = quotedOrder.price := by
  refine (payload_is_json_iff quotedOrder ?_).mpr ⟨_, rfl⟩
  intro q hq
  obtain rfl : (10055844 / 2 ^ 18 : ℚ) = q := PyFloat.finite.inj hq
  exact ⟨10055844, -18, by decide, by decide, by decide, by norm_num⟩

/-- A POISON order with the price NaN passes `validate` and is dead-lettered by the
simulator; one with the price -inf is rejected.  Neither payload is a JSON text. -/
theorem special_prices_are_no_json :
    (validate (dictToOrder ⟨"1", "POISON", .nan⟩) = .ok () ∧
        (FailureSimulator.process (dictToOrder ⟨"1", "POISON", .nan⟩) {}).1 =
          .error FailureSimulator.poisonError ∧
        ∃ payload, buildPayload (some (dictToOrder ⟨"1", "POISON", .nan⟩).toPy) = .ok payload ∧
          ∀ v, ¬IsJson payload v) ∧
      (∃ e, validate (dictToOrder ⟨"2", "Item1", .negInf⟩) = .error e) ∧
      ∃ payload, buildPayload (some (dictToOrder ⟨"2", "Item1", .negInf⟩).toPy) = .ok payload ∧
        ∀ v, ¬IsJson payload v := by
  have hnot : ∀ o : AvroOrder, (∀ q, o.price ≠ .finite q) →
      ∃ payload, buildPayload (some (dictToOrder o).toPy) = .ok payload ∧
        ∀ v, ¬IsJson payload v := by
    intro o hprice
    refine ⟨_, buildPayload_orderText o, ?_⟩
    rintro v ⟨text, hbytes, htext⟩
    obtain rfl := flatMap_utf8_injective hbytes
    exact orderText_not_text hprice v htext
  refine ⟨⟨by decide, by decide, hnot _ ?_⟩, ⟨_, rfl⟩, hnot _ ?_⟩ <;> intro q hq <;> cases hq

end OrderPipeline

import OrderPipeline.Foundation.PyText

/-!
# Decoding UTF-8 with replacement

Python's `b.decode("utf-8", errors="replace")` never fails: a lead byte fixes how
many continuation bytes follow and what the first of them may be, and the bytes
read so far become one U+FFFD as soon as a byte does not fit, which is then read
again as a lead byte.  On the bytes of an encoded text nothing is replaced
(`decodeReplace_encode`), and these are the bytes that decode strictly
(`decode_eq_some_iff`).
-/

namespace PyStr

/-- Between two characters, or inside one: the bits read so far, how many
continuation bytes are still to come and the bounds of the next one. -/
inductive Utf8State
  | start
  | inside (bits left low high : ℕ)
  deriving DecidableEq

/-- U+FFFD. -/
def replacement : CodePoint := ⟨0xfffd, by decide⟩

/-- A byte between two characters: what it emits and the state after it. -/
def leadByte (b : UInt8) : PyStr × Utf8State :=
  let n := b.toNat
  if n < 0x80 then ([codePoint n], .start)
  else if n < 0xc2 then ([replacement], .start)
  else if n < 0xe0 then ([], .inside (n - 0xc0) 1 0x80 0xbf)
  else if n < 0xf0 then
    ([], .inside (n - 0xe0) 2 (if n = 0xe0 then 0xa0 else 0x80) (if n = 0xed then 0x9f else 0xbf))
  else if n < 0xf5 then
    ([], .inside (n - 0xf0) 3 (if n = 0xf0 then 0x90 else 0x80) (if n = 0xf4 then 0x8f else 0xbf))
  else ([replacement], .start)

/-- Any byte.  One that does not continue the character is read as a lead byte. -/
def decodeByte : Utf8State → UInt8 → PyStr × Utf8State
  | .start, b => leadByte b
  | .inside bits left low high, b =>
      if low ≤ b.toNat ∧ b.toNat ≤ high then
        let bits := bits * 64 + (b.toNat - 0x80)
        if left = 1 then ([codePoint bits], .start)
        else ([], .inside bits (left - 1) 0x80 0xbf)
      else (replacement :: (leadByte b).1, (leadByte b).2)

/-- The text of the bytes that follow; an unfinished character is replaced. -/
def decodeFrom : Utf8State → Bytes → PyStr
  | .start, [] => []
  | .inside .., [] => [replacement]
  | state, b :: rest =>
      (decodeByte state b).1 ++ decodeFrom (decodeByte state b).2 rest

/-- `b.decode("utf-8", errors="replace")`. -/
def decodeReplace (bytes : Bytes) : PyStr := decodeFrom .start bytes

/-- A byte is decoded in the state the bytes before it have left. -/
theorem decodeFrom_cons (state : Utf8State) (b : UInt8) (rest : Bytes) :
    decodeFrom state (b :: rest) =
      (decodeByte state b).1 ++ decodeFrom (decodeByte state b).2 rest := by
  cases state <;> rfl

/-- A byte below `0x80` is a character of its own. -/
theorem leadByte_one {b : UInt8} (h : b.toNat < 0x80) :
    leadByte b = ([codePoint b.toNat], .start) :=
  if_pos h

/-- The first byte of two. -/
theorem leadByte_two {b : UInt8} (h : 0xc2 ≤ b.toNat ∧ b.toNat < 0xe0) :
    leadByte b = ([], .inside (b.toNat - 0xc0) 1 0x80 0xbf) := by
  simp only [leadByte]
  rw [if_neg (by omega), if_neg (by omega), if_pos (by omega)]

/-- The first byte of three; two of the values restrict the second byte, so that nothing
is encoded too long and no surrogate is encoded. -/
theorem leadByte_three {b : UInt8} (h : 0xe0 ≤ b.toNat ∧ b.toNat < 0xf0) :
    leadByte b = ([], .inside (b.toNat - 0xe0) 2 (if b.toNat = 0xe0 then 0xa0 else 0x80)
      (if b.toNat = 0xed then 0x9f else 0xbf)) := by
  simp only [leadByte]
  rw [if_neg (by omega), if_neg (by omega), if_neg (by omega), if_pos (by omega)]

/-- The first byte of four; two of the values restrict the second byte, so that nothing
is encoded too long and nothing is beyond the last plane. -/
theorem leadByte_four {b : UInt8} (h : 0xf0 ≤ b.toNat ∧ b.toNat < 0xf5) :
    leadByte b = ([], .inside (b.toNat - 0xf0) 3 (if b.toNat = 0xf0 then 0x90 else 0x80)
      (if b.toNat = 0xf4 then 0x8f else 0xbf)) := by
  simp only [leadByte]
  rw [if_neg (by omega), if_neg (by omega), if_neg (by omega), if_neg (by omega),
    if_pos (by omega)]

/-- A continuation byte that fits, with more to come. -/
theorem decodeFrom_inside {bits left low high : ℕ} {b : UInt8} (rest : Bytes)
    (hfits : low ≤ b.toNat ∧ b.toNat ≤ high) (hleft : left ≠ 1) :
    decodeFrom (.inside bits left low high) (b :: rest) =
      decodeFrom (.inside (bits * 64 + (b.toNat - 0x80)) (left - 1) 0x80 0xbf) rest := by
  have hbyte : decodeByte (.inside bits left low high) b =
      ([], .inside (bits * 64 + (b.toNat - 0x80)) (left - 1) 0x80 0xbf) := by
    rw [decodeByte, if_pos hfits]
    exact if_neg hleft
  rw [decodeFrom_cons, hbyte, List.nil_append]

/-- The last continuation byte. -/
theorem decodeFrom_last {bits low high : ℕ} {b : UInt8} (rest : Bytes)
    (hfits : low ≤ b.toNat ∧ b.toNat ≤ high) :
    decodeFrom (.inside bits 1 low high) (b :: rest) =
      codePoint (bits * 64 + (b.toNat - 0x80)) :: decodeFrom .start rest := by
  have hbyte : decodeByte (.inside bits 1 low high) b =
      ([codePoint (bits * 64 + (b.toNat - 0x80))], .start) := by
    rw [decodeByte, if_pos hfits]
    rfl
  rw [decodeFrom_cons, hbyte, List.singleton_append]

/-! ## The four forms -/

/-- A character of one byte. -/
theorem decodeFrom_one {b : UInt8} (rest : Bytes) (hb : b.toNat < 0x80) :
    decodeFrom .start (b :: rest) = codePoint b.toNat :: decodeFrom .start rest := by
  have hbyte : decodeByte .start b = ([codePoint b.toNat], .start) := leadByte_one hb
  rw [decodeFrom_cons, hbyte, List.singleton_append]

/-- A character of two bytes. -/
theorem decodeFrom_two {b c : UInt8} (rest : Bytes)
    (hb : 0xc2 ≤ b.toNat ∧ b.toNat < 0xe0) (hc : 0x80 ≤ c.toNat ∧ c.toNat ≤ 0xbf) :
    decodeFrom .start (b :: c :: rest) =
      codePoint ((b.toNat - 0xc0) * 64 + (c.toNat - 0x80)) :: decodeFrom .start rest := by
  have hbyte : decodeByte .start b = _ := leadByte_two hb
  rw [decodeFrom_cons, hbyte, List.nil_append, decodeFrom_last rest hc]

/-- The bounds keep out what two bytes could hold, and the surrogates. -/
theorem decodeFrom_three {b c d : UInt8} (rest : Bytes)
    (hb : 0xe0 ≤ b.toNat ∧ b.toNat < 0xf0) (hc : 0x80 ≤ c.toNat ∧ c.toNat ≤ 0xbf)
    (hlow : b.toNat = 0xe0 → 0xa0 ≤ c.toNat) (hhigh : b.toNat = 0xed → c.toNat ≤ 0x9f)
    (hd : 0x80 ≤ d.toNat ∧ d.toNat ≤ 0xbf) :
    decodeFrom .start (b :: c :: d :: rest) =
      codePoint (((b.toNat - 0xe0) * 64 + (c.toNat - 0x80)) * 64 + (d.toNat - 0x80)) ::
        decodeFrom .start rest := by
  have hbyte : decodeByte .start b = _ := leadByte_three hb
  have hfits : (if b.toNat = 0xe0 then 0xa0 else 0x80) ≤ c.toNat ∧
      c.toNat ≤ if b.toNat = 0xed then 0x9f else 0xbf := by
    split <;> split <;> omega
  rw [decodeFrom_cons, hbyte, List.nil_append, decodeFrom_inside _ hfits (by decide),
    decodeFrom_last rest hd]

/-- The bounds keep out what three bytes could hold, and what is beyond Unicode. -/
theorem decodeFrom_four {b c d e : UInt8} (rest : Bytes)
    (hb : 0xf0 ≤ b.toNat ∧ b.toNat < 0xf5) (hc : 0x80 ≤ c.toNat ∧ c.toNat ≤ 0xbf)
    (hlow : b.toNat = 0xf0 → 0x90 ≤ c.toNat) (hhigh : b.toNat = 0xf4 → c.toNat ≤ 0x8f)
    (hd : 0x80 ≤ d.toNat ∧ d.toNat ≤ 0xbf) (he : 0x80 ≤ e.toNat ∧ e.toNat ≤ 0xbf) :
    decodeFrom .start (b :: c :: d :: e :: rest) =
      codePoint ((((b.toNat - 0xf0) * 64 + (c.toNat - 0x80)) * 64 + (d.toNat - 0x80)) * 64 +
        (e.toNat - 0x80)) :: decodeFrom .start rest := by
  have hbyte : decodeByte .start b = _ := leadByte_four hb
  have hfits : (if b.toNat = 0xf0 then 0x90 else 0x80) ≤ c.toNat ∧
      c.toNat ≤ if b.toNat = 0xf4 then 0x8f else 0xbf := by
    split <;> split <;> omega
  rw [decodeFrom_cons, hbyte, List.nil_append, decodeFrom_inside _ hfits (by decide),
    decodeFrom_inside _ hd (by decide), decodeFrom_last rest he]

/-! ## Decoding what was encoded -/

theorem toNat_byte {n : ℕ} (h : n < 256) : (UInt8.ofNat n).toNat = n :=
  Nat.mod_eq_of_lt h

/-- An encoded character is read back, whatever follows it.  The four lengths are the
four cases; the first byte says how many follow, and each of these holds six bits. -/
theorem decodeFrom_encodeChar (c : Char) (rest : Bytes) :
    decodeFrom .start (String.utf8EncodeChar c ++ rest) =
      ofChar c :: decodeFrom .start rest := by
  have hvalid : Nat.isValidChar c.toNat := c.valid
  unfold String.utf8EncodeChar
  simp only [show c.val.toNat = c.toNat from rfl]
  generalize hv : c.toNat = v at hvalid
  simp only [Nat.isValidChar] at hvalid
  by_cases hone : v ≤ 0x7f
  · have hb : (UInt8.ofNat v).toNat = v := toNat_byte (by omega)
    rw [if_pos hone, List.singleton_append, decodeFrom_one rest (by omega), hb]
    rw [codePoint_eq (c := ofChar c) hv.symm]
  rw [if_neg hone]
  -- the last byte holds the six low bits in every longer form
  have hlast : (UInt8.ofNat (v % 64 + 128)).toNat = v % 64 + 128 := toNat_byte (by omega)
  by_cases htwo : v ≤ 0x7ff
  · have hb : (UInt8.ofNat (v / 64 % 32 + 192)).toNat = v / 64 % 32 + 192 :=
      toNat_byte (by omega)
    have hvalue : (v / 64 % 32 + 192 - 0xc0) * 64 + (v % 64 + 128 - 0x80) = c.toNat := by
      omega
    rw [if_pos htwo, List.cons_append, List.singleton_append,
      decodeFrom_two rest (by omega) (by omega), hb, hlast]
    rw [codePoint_eq (c := ofChar c) hvalue]
  rw [if_neg htwo]
  have hmid : (UInt8.ofNat (v / 64 % 64 + 128)).toNat = v / 64 % 64 + 128 :=
    toNat_byte (by omega)
  by_cases hthree : v ≤ 0xffff
  · have hb : (UInt8.ofNat (v / 4096 % 16 + 224)).toNat = v / 4096 % 16 + 224 :=
      toNat_byte (by omega)
    have hvalue : ((v / 4096 % 16 + 224 - 0xe0) * 64 + (v / 64 % 64 + 128 - 0x80)) * 64 +
        (v % 64 + 128 - 0x80) = c.toNat := by
      omega
    rw [if_pos hthree, List.cons_append, List.cons_append, List.singleton_append,
      decodeFrom_three rest (by omega) (by omega) (by omega) (by omega) (by omega), hb, hmid,
      hlast]
    rw [codePoint_eq (c := ofChar c) hvalue]
  · have hb : (UInt8.ofNat (v / 262144 % 8 + 240)).toNat = v / 262144 % 8 + 240 :=
      toNat_byte (by omega)
    have hhigh : (UInt8.ofNat (v / 4096 % 64 + 128)).toNat = v / 4096 % 64 + 128 :=
      toNat_byte (by omega)
    have hvalue : (((v / 262144 % 8 + 240 - 0xf0) * 64 + (v / 4096 % 64 + 128 - 0x80)) * 64 +
        (v / 64 % 64 + 128 - 0x80)) * 64 + (v % 64 + 128 - 0x80) = c.toNat := by
      omega
    rw [if_neg hthree, List.cons_append, List.cons_append, List.cons_append,
      List.singleton_append,
      decodeFrom_four rest (by omega) (by omega) (by omega) (by omega) (by omega) (by omega),
      hb, hhigh, hmid, hlast]
    rw [codePoint_eq (c := ofChar c) hvalue]

/-- So is encoded text. -/
theorem decodeReplace_flatMap (cs : List Char) :
    decodeReplace (cs.flatMap String.utf8EncodeChar) = cs.map ofChar := by
  unfold decodeReplace
  induction cs with
  | nil => rfl
  | cons c cs ih => rw [List.flatMap_cons, decodeFrom_encodeChar, ih, List.map_cons]

/-- A code point that is a character is the code point of that character. -/
theorem ofChar_of_toChar? {c : CodePoint} {ch : Char} (h : toChar? c = some ch) :
    ofChar ch = c := by
  by_cases hvalid : c.val.isValidChar
  · rw [toChar?, dif_pos hvalid] at h
    obtain rfl := Option.some.inj h
    rfl
  · rw [toChar?, dif_neg hvalid] at h
    cases h

/-- The same for a whole text. -/
theorem map_ofChar_of_mapM {s : PyStr} {cs : List Char} (h : s.mapM toChar? = some cs) :
    cs.map ofChar = s := by
  induction s generalizing cs with
  | nil =>
      obtain rfl : [] = cs := Option.some.inj h
      rfl
  | cons c s ih =>
      rw [List.mapM_cons] at h
      obtain ⟨ch, hch, hrest⟩ := Option.bind_eq_some_iff.mp h
      obtain ⟨tail, htail, hcons⟩ := Option.bind_eq_some_iff.mp hrest
      obtain rfl : ch :: tail = cs := Option.some.inj hcons
      rw [List.map_cons, ofChar_of_toChar? hch, ih htail]

/-- **Decoding undoes encoding**: nothing is replaced. -/
theorem decodeReplace_encode {s : PyStr} {bytes : Bytes} (h : encode s = some bytes) :
    decodeReplace bytes = s := by
  obtain ⟨cs, hcs, rfl⟩ := Option.map_eq_some_iff.mp h
  rw [decodeReplace_flatMap, map_ofChar_of_mapM hcs]

/-- Different texts have different bytes. -/
theorem flatMap_utf8_injective {cs cs' : List Char}
    (h : cs.flatMap String.utf8EncodeChar = cs'.flatMap String.utf8EncodeChar) : cs = cs' := by
  have hmap : cs.map ofChar = cs'.map ofChar := by
    rw [← decodeReplace_flatMap, h, decodeReplace_flatMap]
  apply List.map_injective_iff.mpr _ hmap
  intro c c' hc
  have hchar := congrArg toChar? hc
  rw [toChar?_ofChar, toChar?_ofChar] at hchar
  exact Option.some.inj hchar

/-- Decoding inverts encoding on every string; nothing is replaced. -/
theorem decodeReplace_encodeString (s : String) :
    decodeReplace (encodeString s) = ofString s :=
  decodeReplace_encode (encode_ofString s)

/-- `b.decode("utf-8")`; `none` is `UnicodeDecodeError`.  The bytes are those of the text
in which nothing had to be replaced. -/
def decode (bytes : Bytes) : Option (List Char) :=
  match (decodeReplace bytes).mapM toChar? with
  | some cs => if cs.flatMap String.utf8EncodeChar = bytes then some cs else none
  | none => none

/-- Strict decoding returns the text that the bytes encode, if there is one, and so it
inverts the encoding. -/
theorem decode_eq_some_iff {bytes : Bytes} {cs : List Char} :
    decode bytes = some cs ↔ cs.flatMap String.utf8EncodeChar = bytes := by
  unfold decode
  constructor
  · intro h
    split at h
    · split at h
      · next hbytes =>
        obtain rfl := Option.some.inj h
        exact hbytes
      · cases h
    · cases h
  · intro h
    subst h
    rw [decodeReplace_flatMap, mapM_toChar?_ofChar]
    simp

/-- A truncated character and a stray byte become one U+FFFD each. -/
example : decodeReplace [0x41, 0xe2, 0x82, 0x42, 0xff] =
    [0x41, replacement, 0x42, replacement] := by decide

end PyStr

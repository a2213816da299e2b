import Mathlib.Data.List.Basic
import Mathlib.Tactic.Common

/-!
# Python strings and their UTF-8 encoding

A Python `str` is any sequence of code points, lone surrogates included, so
encoding one may fail.  Text that comes from a decoder or from a literal is a
Lean `String`, whose characters are scalar values; `ofString` embeds it, and
`encode_ofString` says that such text always encodes.
-/

abbrev Bytes := List UInt8

/-- A Unicode code point, surrogates included. -/
abbrev CodePoint := Fin 0x110000

/-- A Python `str`. -/
abbrev PyStr := List CodePoint

namespace PyStr

/-- The code point of a number. -/
def codePoint (n : ℕ) : CodePoint := Fin.ofNat _ n

/-- A code point is determined by its number. -/
theorem codePoint_eq {n : ℕ} {c : CodePoint} (h : n = c.val) : codePoint n = c := by
  subst h
  exact Fin.ext (Nat.mod_eq_of_lt c.isLt)

/-- The code point of a character. -/
def ofChar (c : Char) : CodePoint :=
  ⟨c.toNat, by
    have hvalid := c.valid
    simp only [UInt32.isValidChar, Nat.isValidChar] at hvalid
    show c.val.toNat < 0x110000
    omega⟩

/-- Text without surrogates as a Python string. -/
def ofString (s : String) : PyStr := s.toList.map ofChar

/-- The character of a code point; a surrogate has none. -/
def toChar? (c : CodePoint) : Option Char :=
  if h : c.val.isValidChar then some (Char.ofNatAux c.val h) else none

/-- UTF-8 encoding of text without surrogates. -/
def encodeString (s : String) : Bytes := s.toList.flatMap String.utf8EncodeChar

/-- Python's `s.encode("utf-8")`; `none` is `UnicodeEncodeError`. -/
def encode (s : PyStr) : Option Bytes :=
  (s.mapM toChar?).map (·.flatMap String.utf8EncodeChar)

@[simp] theorem toChar?_ofChar (c : Char) : toChar? (ofChar c) = some c := by
  have hvalid : Nat.isValidChar c.toNat := c.valid
  have hchar : Char.ofNatAux c.toNat hvalid = c := by
    apply Char.ext
    exact UInt32.ofNatLT_toNat c.val
  unfold toChar? ofChar
  rw [dif_pos hvalid, hchar]

/-- A text made of characters is read back as these characters. -/
theorem mapM_toChar?_ofChar (cs : List Char) :
    (cs.map ofChar).mapM toChar? = some cs := by
  induction cs with
  | nil => rfl
  | cons c cs ih =>
      rw [List.map_cons, List.mapM_cons, toChar?_ofChar, ih]
      rfl

/-- Text without surrogates always encodes, and as the text it is. -/
theorem encode_ofString (s : String) :
    encode (ofString s) = some (encodeString s) := by
  unfold encode ofString encodeString
  rw [mapM_toChar?_ofChar]
  rfl

/-- So does every initial part of it. -/
theorem encode_take_ofString (n : ℕ) (s : String) :
    encode ((ofString s).take n) =
      some ((s.toList.take n).flatMap String.utf8EncodeChar) := by
  have htake : (ofString s).take n = (s.toList.take n).map ofChar := by
    simp [ofString, List.map_take]
  rw [htake, encode, mapM_toChar?_ofChar]
  rfl

/-- The code points that no UTF-8 text contains. -/
def isSurrogate (c : CodePoint) : Bool := 0xd800 ≤ c.val && c.val ≤ 0xdfff

/-- The code points that are characters are those that are no surrogates. -/
theorem toChar?_isSome_iff (c : CodePoint) : (toChar? c).isSome ↔ isSurrogate c = false := by
  have hlt := c.isLt
  have hvalid : c.val.isValidChar ↔ isSurrogate c = false := by
    simp only [Nat.isValidChar, isSurrogate, Bool.and_eq_false_iff, decide_eq_false_iff_not]
    omega
  by_cases h : c.val.isValidChar
  · rw [toChar?, dif_pos h]
    exact iff_of_true rfl (hvalid.mp h)
  · rw [toChar?, dif_neg h]
    exact iff_of_false Bool.false_ne_true (mt hvalid.mpr h)

/-- A text encodes exactly when it contains no surrogate. -/
theorem encode_isSome_iff (s : PyStr) :
    (encode s).isSome ↔ ∀ c ∈ s, isSurrogate c = false := by
  rw [encode, Option.isSome_map]
  induction s with
  | nil => simp
  | cons c s ih =>
      rw [List.forall_mem_cons, ← toChar?_isSome_iff, ← ih, List.mapM_cons]
      cases toChar? c <;> cases s.mapM toChar? <;> simp

/-- Text without surrogates has none. -/
theorem isSurrogate_ofString (s : String) : ∀ c ∈ ofString s, isSurrogate c = false :=
  (encode_isSome_iff _).mp (by rw [encode_ofString, Option.isSome_some])

/-- Different strings have different code points. -/
theorem ofString_injective : Function.Injective ofString := by
  intro s s' h
  have hchars : Function.Injective ofChar := by
    intro c c' hc
    have hback := congrArg toChar? hc
    rwa [toChar?_ofChar, toChar?_ofChar, Option.some_inj] at hback
  exact String.toList_injective (List.map_injective_iff.mpr hchars h)

end PyStr

import Mathlib.Data.List.Basic
import Mathlib.Tactic.Common
import OrderPipeline.Foundation.PyText

/-!
# Lines of a text and the text of bytes

`str.splitlines` breaks at more than the new line, takes `\r\n` as one break and has no
line after a break at the end.  Where a text has no other break than the new line, and
none at its end, its lines joined again give it back, and prefixing each line prefixes
the text and what follows each of its new lines (`intercalate_splitlines`).

`repr` of bytes is one such line.
-/

namespace PyStr

/-- The new line. -/
def lineFeed : CodePoint := ofChar '\n'

/-- Where `str.splitlines` breaks. -/
def isLineBreak (c : CodePoint) : Bool :=
  (0x0a ≤ c.val && c.val ≤ 0x0d) || (0x1c ≤ c.val && c.val ≤ 0x1e) || c.val = 0x85 ||
    c.val = 0x2028 || c.val = 0x2029

/-- The lines of what follows the part `line` of one; a new line right after a carriage
return belongs to it. -/
def splitlinesFrom (line : PyStr) (afterReturn : Bool) : PyStr → List PyStr
  | [] => if line = [] then [] else [line]
  | c :: rest =>
      if afterReturn ∧ c = lineFeed then splitlinesFrom line false rest
      else if isLineBreak c then line :: splitlinesFrom [] (c = ofChar '\r') rest
      else splitlinesFrom (line ++ [c]) false rest

/-- `s.splitlines()`. -/
def splitlines (s : PyStr) : List PyStr := splitlinesFrom [] false s

/-- No break but the new line, and none at the end. -/
structure Lined (s : PyStr) : Prop where
  breaks : ∀ c ∈ s, isLineBreak c = true → c = lineFeed
  last : ∀ c ∈ s.getLast?, c ≠ lineFeed

/-- A text that breaks its lines at line feeds only does so in its tail. -/
theorem Lined.tail {c : CodePoint} {s : PyStr} (h : Lined (c :: s)) : Lined s := by
  refine ⟨fun d hd => h.breaks d (List.mem_cons_of_mem _ hd), ?_⟩
  intro d hd
  cases s with
  | nil => cases hd
  | cons e s => exact h.last d (by rwa [List.getLast?_cons_cons])

theorem isLineBreak_lineFeed : isLineBreak lineFeed = true := rfl

/-- A line feed ends the line collected so far. -/
theorem splitlinesFrom_lineFeed (line s : PyStr) :
    splitlinesFrom line false (lineFeed :: s) = line :: splitlinesFrom [] false s := by
  rw [splitlinesFrom, if_neg (by simp), if_pos isLineBreak_lineFeed]
  rfl

/-- Any character that is no line break goes to the line collected so far. -/
theorem splitlinesFrom_other {c : CodePoint} (h : isLineBreak c = false) (line s : PyStr) :
    splitlinesFrom line false (c :: s) = splitlinesFrom (line ++ [c]) false s := by
  rw [splitlinesFrom, if_neg (by simp), if_neg (by simp [h])]

/-- A text that is not empty has a line. -/
theorem splitlinesFrom_ne_nil {line s : PyStr} (h : line ≠ [] ∨ s ≠ []) :
    splitlinesFrom line false s ≠ [] := by
  induction s generalizing line with
  | nil => simpa [splitlinesFrom] using h
  | cons c s ih =>
      by_cases hc : isLineBreak c = true
      · rw [splitlinesFrom, if_neg (by simp), if_pos hc]
        exact List.cons_ne_nil _ _
      · rw [splitlinesFrom_other (by simpa using hc)]
        exact ih (Or.inl (by simp))

/-- A text whose new lines are followed by `pre`. -/
def indented (pre s : PyStr) : PyStr :=
  s.flatMap fun c => if c = lineFeed then lineFeed :: pre else [c]

/-- To split a text into lines and join them again, with `pre` before each line, is to
put `pre` before the text and after each of its line feeds. -/
theorem intercalate_splitlinesFrom (pre : PyStr) {line s : PyStr} (h : Lined s)
    (hne : line ≠ [] ∨ s ≠ []) :
    List.intercalate [lineFeed] ((splitlinesFrom line false s).map (pre ++ ·)) =
      pre ++ line ++ indented pre s := by
  induction s generalizing line with
  | nil =>
      have hline : line ≠ [] := hne.resolve_right (by simp)
      simp [splitlinesFrom, hline, indented]
  | cons c s ih =>
      by_cases hc : c = lineFeed
      · subst hc
        -- something follows, for the text does not end here
        have hs : s ≠ [] := by
          rintro rfl
          exact h.last _ rfl rfl
        have hrest := @ih [] h.tail (Or.inr hs)
        obtain ⟨first, more, hsplit⟩ :=
          List.exists_cons_of_ne_nil (@splitlinesFrom_ne_nil [] s (Or.inr hs))
        rw [hsplit] at hrest
        rw [splitlinesFrom_lineFeed, hsplit, List.map_cons, List.map_cons,
          List.intercalate_cons_cons, ← List.map_cons (f := (pre ++ ·)), hrest]
        simp [indented]
      · have hbreak : isLineBreak c = false := by
          by_contra hbreak
          exact hc (h.breaks c List.mem_cons_self (by simpa using hbreak))
        rw [splitlinesFrom_other hbreak, ih h.tail (Or.inl (by simp))]
        simp [indented, hc]

/-- **The lines of a text, each with a prefix, joined again.** -/
theorem intercalate_splitlines (pre : PyStr) {s : PyStr} (h : Lined s) (hne : s ≠ []) :
    List.intercalate [lineFeed] ((splitlines s).map (pre ++ ·)) = pre ++ indented pre s := by
  have hjoin := @intercalate_splitlinesFrom pre [] s h (Or.inr hne)
  rwa [List.append_nil] at hjoin

/-! ## Bytes -/

/-- A byte inside `repr`. -/
def reprByte (quote : Char) (b : UInt8) : List Char :=
  if b.toNat = quote.toNat ∨ b.toNat = 0x5c then ['\\', Char.ofNat b.toNat]
  else if b.toNat = 0x09 then ['\\', 't']
  else if b.toNat = 0x0a then ['\\', 'n']
  else if b.toNat = 0x0d then ['\\', 'r']
  else if b.toNat < 0x20 ∨ 0x7f ≤ b.toNat then
    ['\\', 'x', Nat.digitChar (b.toNat / 16), Nat.digitChar (b.toNat % 16)]
  else [Char.ofNat b.toNat]

/-- `repr(b)`: in double quotation marks if that saves escapes. -/
def reprBytes (bytes : Bytes) : List Char :=
  let quote := if 0x27 ∈ bytes ∧ 0x22 ∉ bytes then '"' else '\''
  'b' :: quote :: bytes.flatMap (reprByte quote) ++ [quote]

end PyStr

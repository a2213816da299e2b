import OrderPipeline.Foundation.PyJson

/-!
# How deep a JSON text is nested

The reader and the writers of Python recurse once for each list and each dict that they
are in, and raise when the interpreter does not let them go deeper.  How deep it lets them
go depends on its version and on its stack, so a limit is a parameter (`loadsWithin`).

`nesting` counts the brackets that are open at once, outside the strings of a text.  It is
found piece by piece: `Nests text n` says that a text closes what it opens and is nested
`n` deep, and there is one lemma for each form of text.
-/

namespace PyJson

open JsonText

/-! ## Counting brackets -/

/-- Where a reader stands between two characters: outside the strings, inside one, or
after a backslash inside one. -/
inductive Place
  | outside
  | inside
  | escaped

/-- The place, the brackets that are open, and the most that have been. -/
structure Brackets where
  place : Place
  opened : ℕ
  deepest : ℕ

/-- One character further on. -/
def Brackets.next (b : Brackets) (c : Char) : Brackets :=
  match b.place with
  | .outside =>
      if c = '"' then { b with place := .inside }
      else if c = '[' ∨ c = '\x7b' then
        { b with opened := b.opened + 1, deepest := max b.deepest (b.opened + 1) }
      else if c = ']' ∨ c = '\x7d' then { b with opened := b.opened - 1 }
      else b
  | .inside =>
      if c = '"' then { b with place := .outside }
      else if c = '\\' then { b with place := .escaped }
      else b
  | .escaped => { b with place := .inside }

/-- The most brackets that are open at once. -/
def nesting (text : List Char) : ℕ := (text.foldl Brackets.next ⟨.outside, 0, 0⟩).deepest

/-- `json.loads(text)` in an interpreter that enters as many lists and dicts; the
RecursionError of a text that is nested deeper is `none` like any other exception. -/
def loadsWithin (limit : ℕ) (cs : List Char) : Option Value :=
  if nesting cs ≤ limit then loads cs else none

/-- What is loaded within a limit is what would be loaded without one. -/
theorem loads_of_loadsWithin {limit : ℕ} {cs : List Char} {v : Value}
    (h : loadsWithin limit cs = some v) : loads cs = some v := by
  unfold loadsWithin at h
  split at h
  · exact h
  · cases h

/-! ## Texts that close what they open -/

/-- A text closes what it opens, ends outside its strings, and is nested `n` deep wherever
it stands. -/
def Nests (text : List Char) (n : ℕ) : Prop :=
  ∀ opened deepest, opened ≤ deepest →
    text.foldl Brackets.next ⟨.outside, opened, deepest⟩ =
      ⟨.outside, opened, max deepest (opened + n)⟩

/-- The depth of such a text by itself. -/
theorem Nests.nesting {text : List Char} {n : ℕ} (h : Nests text n) : nesting text = n := by
  have hall := h 0 0 (Nat.le_refl 0)
  unfold PyJson.nesting
  rw [hall]
  simp

theorem nests_nil : Nests [] 0 := by
  intro opened deepest hle
  simp [hle]

/-- Side by side the deeper one counts. -/
theorem Nests.append {a b : List Char} {j k : ℕ} (ha : Nests a j) (hb : Nests b k) :
    Nests (a ++ b) (max j k) := by
  intro opened deepest hle
  rw [List.foldl_append, ha opened deepest hle, hb opened _ (by omega)]
  congr 1
  omega

/-- A pair of brackets is one level more, whatever it encloses. -/
theorem Nests.enclosed {opening closing : Char} (hopening : opening = '[' ∨ opening = '\x7b')
    (hclosing : closing = ']' ∨ closing = '\x7d') {text : List Char} {n : ℕ}
    (h : Nests text n) : Nests (opening :: text ++ [closing]) (n + 1) := by
  intro opened deepest hle
  have hopen : (⟨.outside, opened, deepest⟩ : Brackets).next opening =
      ⟨.outside, opened + 1, max deepest (opened + 1)⟩ := by
    rcases hopening with rfl | rfl <;> rfl
  have hclose : ∀ most, (⟨.outside, opened + 1, most⟩ : Brackets).next closing =
      ⟨.outside, opened, most⟩ := by
    intro most
    rcases hclosing with rfl | rfl <;> rfl
  rw [List.cons_append, List.foldl_cons, hopen, List.foldl_append,
    h (opened + 1) _ (Nat.le_max_right _ _), List.foldl_cons, List.foldl_nil, hclose]
  congr 1
  omega

/-- A character that is neither a quotation mark nor a bracket. -/
def Bare (c : Char) : Prop := c ∉ ['"', '[', '\x7b', ']', '\x7d']

instance (c : Char) : Decidable (Bare c) := inferInstanceAs (Decidable (c ∉ _))

/-- A text without strings and brackets is flat. -/
theorem nests_of_bare {text : List Char} (h : ∀ c ∈ text, Bare c) : Nests text 0 := by
  induction text with
  | nil => exact nests_nil
  | cons c text ih =>
      rw [List.forall_mem_cons] at h
      have hbare := h.1
      simp only [Bare, List.mem_cons, List.not_mem_nil, or_false, not_or] at hbare
      intro opened deepest hle
      have hnext : (⟨.outside, opened, deepest⟩ : Brackets).next c =
          ⟨.outside, opened, deepest⟩ := by
        simp [Brackets.next, hbare]
      rw [List.foldl_cons, hnext]
      exact ih h.2 opened deepest hle

/-- The same, of a text that can be gone through character by character. -/
theorem nests_of_all_bare {text : List Char}
    (h : text.all (fun c => decide (Bare c)) = true) : Nests text 0 :=
  nests_of_bare fun c hc => of_decide_eq_true (List.all_eq_true.mp h c hc)

/-- White space is flat. -/
theorem nests_ws {w : List Char} (h : Ws w) : Nests w 0 := by
  refine nests_of_bare fun c hc => ?_
  have hws := h c hc
  simp only [isWs, Bool.or_eq_true, decide_eq_true_eq] at hws
  rcases hws with ((rfl | rfl) | rfl) | rfl <;> decide

/-! ## Strings -/

/-- A character or an escape leaves the reader inside its string: a quotation mark stands
only after a backslash. -/
theorem CharLit.inside {cs : List Char} {us : List ℕ} (h : CharLit cs us)
    (opened deepest : ℕ) : cs.foldl Brackets.next ⟨.inside, opened, deepest⟩ =
      ⟨.inside, opened, deepest⟩ := by
  cases h with
  | unescaped c _ hquote hbackslash => simp [Brackets.next, hquote, hbackslash]
  | escape c _ => simp [Brackets.next]
  | hex a b c d hu =>
      obtain ⟨_, ha, hu⟩ := Option.bind_eq_some_iff.mp hu
      obtain ⟨_, hb, hu⟩ := Option.bind_eq_some_iff.mp hu
      obtain ⟨_, hc, hu⟩ := Option.bind_eq_some_iff.mp hu
      obtain ⟨_, hd, -⟩ := Option.bind_eq_some_iff.mp hu
      have hdigit : ∀ {e : Char} {n : ℕ}, hexValue? e = some n → e ≠ '"' ∧ e ≠ '\\' := by
        rintro e n he
        constructor <;> rintro rfl <;> cases he
      simp [Brackets.next, hdigit ha, hdigit hb, hdigit hc, hdigit hd]

/-- So does the body of a string. -/
theorem Chars.inside {cs : List Char} {us : List ℕ} (h : Chars cs us) (opened deepest : ℕ) :
    cs.foldl Brackets.next ⟨.inside, opened, deepest⟩ = ⟨.inside, opened, deepest⟩ := by
  induction h with
  | nil => rfl
  | cons hchar _ ih => rw [List.foldl_append, CharLit.inside hchar, ih]

/-- A string is flat: the brackets in it do not count. -/
theorem nests_string {cs : List Char} {s : PyStr} (h : StringLit cs s) : Nests cs 0 := by
  obtain ⟨body, units, rfl, hchars, -⟩ := h
  intro opened deepest hle
  rw [List.cons_append, List.foldl_cons, List.foldl_append]
  have hopen : (⟨.outside, opened, deepest⟩ : Brackets).next '"' =
      ⟨.inside, opened, deepest⟩ := rfl
  rw [hopen, Chars.inside hchars]
  simp [Brackets.next, hle]

/-! ## Numbers -/

/-- A number is flat. -/
theorem nests_numeral (m : Numeral) : Nests m.text 0 := by
  refine nests_of_bare fun c hc => ?_
  rcases m.mem_text hc with hdigit | hmark
  · have hne : ∀ d : Char, d.isDigit = false → c ≠ d := fun d => ne_of_isDigit hdigit
    simp only [Bare, List.mem_cons, List.not_mem_nil, or_false, not_or]
    exact ⟨hne _ rfl, hne _ rfl, hne _ rfl, hne _ rfl, hne _ rfl⟩
  · have hmarks : ['-', '+', '.', 'e', 'E'].all (fun c => decide (Bare c)) = true := by decide
    exact of_decide_eq_true (List.all_eq_true.mp hmarks c hmark)

/-! ## Lists of texts -/

/-- The deepest of some depths. -/
def deepestOf (depths : List ℕ) : ℕ := depths.foldr max 0

/-- Texts with flat ones between them are as deep as the deepest. -/
theorem nests_intercalate {sep : List Char} (hsep : Nests sep 0) {texts : List (List Char)}
    {depths : List ℕ} (h : List.Forall₂ Nests texts depths) :
    Nests (List.intercalate sep texts) (deepestOf depths) := by
  induction h with
  | nil => exact nests_nil
  | @cons text n texts depths htext hrest ih =>
      cases hrest with
      | nil => simpa [deepestOf] using htext
      | cons hnext hmore =>
          rw [List.intercalate_cons_cons]
          have hall := (htext.append hsep).append ih
          rwa [Nat.max_zero] at hall

/-! ## Values -/

mutual

/-- How deep lists and dicts are nested in a value. -/
def Value.depth : Value → ℕ
  | .list items => deepestOf (itemDepths items) + 1
  | .dict entries => deepestOf (entryDepths entries) + 1
  | _ => 0

/-- The depths of the items of a list. -/
def itemDepths : List Value → List ℕ
  | [] => []
  | v :: rest => v.depth :: itemDepths rest

/-- The depths of the values of a dict. -/
def entryDepths : List (PyStr × Value) → List ℕ
  | [] => []
  | (_, v) :: rest => v.depth :: entryDepths rest

end

end PyJson

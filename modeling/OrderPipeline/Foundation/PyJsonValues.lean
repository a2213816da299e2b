import OrderPipeline.Foundation.PyJson

/-!
# What `json.loads` returns

`Loaded` describes the values: strings without a high surrogate before a low one, floats
that are binary64 numbers or special, ints that Python converts back, dicts with distinct
keys.  `loads_loaded` says that `loads` returns no others.

The readers are inverted once (`scanOnce_cases` and its companions); that they shrink
the text, that more fuel changes nothing and what they return all follow from that.
-/

namespace PyJson

open JsonText

/-! ## What the matchers leave -/

/-- An integer part uses up at least one digit. -/
theorem matchInt_length {cs int rest : List Char} (h : matchInt cs = some (int, rest)) :
    rest.length < cs.length := by
  unfold matchInt at h
  split at h
  · obtain ⟨-, rfl⟩ := Prod.mk.inj (Option.some.inj h)
    simp
  · exact readDigits_length h

/-- A fraction may be missing, so the text may stay as long as it was. -/
theorem matchFrac_length (cs : List Char) : (matchFrac cs).2.length ≤ cs.length := by
  unfold matchFrac
  split
  · split
    · next h =>
      have hlt := readDigits_length h
      simp only [List.length_cons]
      omega
    · simp
  · simp

theorem matchExponent_length (cs : List Char) : (matchExponent cs).2.length ≤ cs.length := by
  unfold matchExponent
  split
  · simp
  · next c rest =>
    split
    · split
      · next h =>
        have hlt := readDigits_length h
        have hsign := readSign_length rest
        simp only [List.length_cons]
        omega
      · simp
    · simp

/-- A number uses up at least its integer part. -/
theorem matchNumber_length {cs rest : List Char} {v : Value}
    (h : matchNumber cs = some (v, rest)) : rest.length < cs.length := by
  unfold matchNumber at h
  simp only [Option.bind_eq_bind] at h
  obtain ⟨⟨int, tail⟩, hint, h⟩ := Option.bind_eq_some_iff.mp h
  have hminus := readMinus_length cs
  have hdigits := matchInt_length hint
  have hfrac := matchFrac_length tail
  have hexponent := matchExponent_length (matchFrac tail).2
  have hrest : rest = (matchExponent (matchFrac tail).2).2 := by
    simp only at h
    split at h
    · split at h
      · cases h
      · exact (Prod.mk.inj (Option.some.inj h)).2.symm
    · exact (Prod.mk.inj (Option.some.inj h)).2.symm
  rw [hrest]
  omega

theorem matchName_length {cs rest : List Char} {v : Value}
    (h : matchName cs = some (v, rest)) : rest.length < cs.length := by
  unfold matchName at h
  obtain ⟨entry, hmem, hfound⟩ := List.exists_of_findSome?_eq_some h
  split at hfound
  · next hprefix =>
    obtain ⟨-, rfl⟩ := Prod.mk.inj (Option.some.inj hfound)
    have hname : 0 < entry.1.length := by
      have hnames : ∀ entry ∈ names, 0 < entry.1.length := by simp [names]
      exact hnames entry hmem
    have hle := (List.isPrefixOf_iff_prefix.mp hprefix).length_le
    rw [List.length_drop]
    omega
  · cases hfound

/-! ## What one call of a reader can do -/

/-- The inversion of `scan_once`: what it returns is a string, an object, an array, a
name or a number, and what is left is what that part left. -/
theorem scanOnce_cases {fuel : ℕ} {cs rest : List Char} {v : Value}
    (h : scanOnce (fuel + 1) cs = some (v, rest)) :
    (∃ s, readString cs = some (s, rest) ∧ v = .str s) ∨
      (∃ tail, cs = '\x7b' :: tail ∧ rest = (skipWs tail).tail ∧ v = .dict []) ∨
      (∃ tail entries, cs = '\x7b' :: tail ∧
        parseObject fuel (skipWs tail) = some (entries, rest) ∧
        v = .dict (PyDict.ofPairs entries)) ∨
      (∃ tail, cs = '[' :: tail ∧ rest = (skipWs tail).tail ∧ v = .list []) ∨
      (∃ tail items, cs = '[' :: tail ∧ parseArray fuel (skipWs tail) = some (items, rest) ∧
        v = .list items) ∨
      matchName cs = some (v, rest) ∨ matchNumber cs = some (v, rest) := by
  unfold scanOnce at h
  split at h
  · obtain ⟨⟨s, tail⟩, hs, h⟩ := Option.bind_eq_some_iff.mp h
    obtain ⟨rfl, rfl⟩ := Prod.mk.inj (Option.some.inj h)
    exact Or.inl ⟨s, hs, rfl⟩
  · next tail =>
    split at h
    · obtain ⟨rfl, rfl⟩ := Prod.mk.inj (Option.some.inj h)
      exact Or.inr (Or.inl ⟨tail, rfl, rfl, rfl⟩)
    · obtain ⟨⟨entries, left⟩, hentries, h⟩ := Option.bind_eq_some_iff.mp h
      obtain ⟨rfl, rfl⟩ := Prod.mk.inj (Option.some.inj h)
      exact Or.inr (Or.inr (Or.inl ⟨tail, entries, rfl, hentries, rfl⟩))
  · next tail =>
    split at h
    · obtain ⟨rfl, rfl⟩ := Prod.mk.inj (Option.some.inj h)
      exact Or.inr (Or.inr (Or.inr (Or.inl ⟨tail, rfl, rfl, rfl⟩)))
    · obtain ⟨⟨items, left⟩, hitems, h⟩ := Option.bind_eq_some_iff.mp h
      obtain ⟨rfl, rfl⟩ := Prod.mk.inj (Option.some.inj h)
      exact Or.inr (Or.inr (Or.inr (Or.inr (Or.inl ⟨tail, items, rfl, hitems, rfl⟩))))
  · split at h
    · next hname =>
      obtain rfl := Option.some.inj h
      exact Or.inr (Or.inr (Or.inr (Or.inr (Or.inr (Or.inl hname)))))
    · exact Or.inr (Or.inr (Or.inr (Or.inr (Or.inr (Or.inr h)))))

/-- The inversion of `parseArray`: a value first, and then either the closing bracket or
a comma and the other elements. -/
theorem parseArray_cases {fuel : ℕ} {cs rest : List Char} {vs : List Value}
    (h : parseArray (fuel + 1) cs = some (vs, rest)) :
    ∃ v left, scanOnce fuel cs = some (v, left) ∧
      (vs = [v] ∧ skipWs left = ']' :: rest ∨
        ∃ tail items, skipWs left = ',' :: tail ∧
          parseArray fuel (skipWs tail) = some (items, rest) ∧ vs = v :: items) := by
  rw [parseArray] at h
  obtain ⟨⟨v, left⟩, hv, h⟩ := Option.bind_eq_some_iff.mp h
  refine ⟨v, left, hv, ?_⟩
  simp only at h
  split at h
  · next hclose =>
    obtain ⟨rfl, rfl⟩ := Prod.mk.inj (Option.some.inj h)
    exact Or.inl ⟨rfl, hclose⟩
  · next hcomma =>
    obtain ⟨⟨items, after⟩, hitems, h⟩ := Option.bind_eq_some_iff.mp h
    obtain ⟨rfl, rfl⟩ := Prod.mk.inj (Option.some.inj h)
    exact Or.inr ⟨_, items, hcomma, hitems, rfl⟩
  · cases h

/-- The inversion of `parseObject`: a key, a colon and a value first, and then either
the closing brace or a comma and the other entries. -/
theorem parseObject_cases {fuel : ℕ} {cs rest : List Char} {entries : List (PyStr × Value)}
    (h : parseObject (fuel + 1) cs = some (entries, rest)) :
    ∃ key afterKey value v left, readString cs = some (key, afterKey) ∧
      skipWs afterKey = ':' :: value ∧ scanOnce fuel (skipWs value) = some (v, left) ∧
      (entries = [(key, v)] ∧ skipWs left = '\x7d' :: rest ∨
        ∃ tail more, skipWs left = ',' :: tail ∧
          parseObject fuel (skipWs tail) = some (more, rest) ∧ entries = (key, v) :: more) := by
  rw [parseObject] at h
  obtain ⟨⟨key, afterKey⟩, hkey, h⟩ := Option.bind_eq_some_iff.mp h
  simp only at h
  split at h
  · next value hcolon =>
    obtain ⟨⟨v, left⟩, hv, h⟩ := Option.bind_eq_some_iff.mp h
    refine ⟨key, afterKey, value, v, left, hkey, hcolon, hv, ?_⟩
    simp only at h
    split at h
    · next hclose =>
      obtain ⟨rfl, rfl⟩ := Prod.mk.inj (Option.some.inj h)
      exact Or.inl ⟨rfl, hclose⟩
    · next hcomma =>
      obtain ⟨⟨more, after⟩, hmore, h⟩ := Option.bind_eq_some_iff.mp h
      obtain ⟨rfl, rfl⟩ := Prod.mk.inj (Option.some.inj h)
      exact Or.inr ⟨_, more, hcomma, hmore, rfl⟩
    · cases h
  · cases h

/-! ## Fuel -/

/-- A reader leaves less than it was given.  All three readers at once, by induction on
the fuel: each calls the others with one unit less. -/
theorem readers_shrink (fuel : ℕ) :
    (∀ cs v rest, scanOnce fuel cs = some (v, rest) → rest.length < cs.length) ∧
      (∀ cs vs rest, parseArray fuel cs = some (vs, rest) → rest.length < cs.length) ∧
      ∀ cs entries rest, parseObject fuel cs = some (entries, rest) →
        rest.length < cs.length := by
  induction fuel with
  | zero => exact ⟨nofun, nofun, nofun⟩
  | succ fuel ih =>
      obtain ⟨ihValue, ihArray, ihObject⟩ := ih
      refine ⟨?_, ?_, ?_⟩
      · intro cs v rest h
        rcases scanOnce_cases h with ⟨s, hs, -⟩ | ⟨tail, rfl, rfl, -⟩ |
          ⟨tail, entries, rfl, hentries, -⟩ | ⟨tail, rfl, rfl, -⟩ |
          ⟨tail, items, rfl, hitems, -⟩ | hname | hnumber
        · exact readString_length hs
        · have := skipWs_length_le tail
          simp only [List.length_cons, List.length_tail]
          omega
        · have := skipWs_length_le tail
          have := ihObject _ _ _ hentries
          simp only [List.length_cons]
          omega
        · have := skipWs_length_le tail
          simp only [List.length_cons, List.length_tail]
          omega
        · have := skipWs_length_le tail
          have := ihArray _ _ _ hitems
          simp only [List.length_cons]
          omega
        · exact matchName_length hname
        · exact matchNumber_length hnumber
      · intro cs vs rest h
        obtain ⟨v, left, hv, hmore⟩ := parseArray_cases h
        have := ihValue _ _ _ hv
        have hleft := skipWs_length_le left
        rcases hmore with ⟨-, hclose⟩ | ⟨tail, items, hcomma, hitems, -⟩
        · rw [hclose, List.length_cons] at hleft
          omega
        · rw [hcomma, List.length_cons] at hleft
          have := skipWs_length_le tail
          have := ihArray _ _ _ hitems
          omega
      · intro cs entries rest h
        obtain ⟨key, afterKey, value, v, left, hkey, hcolon, hv, hmore⟩ := parseObject_cases h
        have := readString_length hkey
        have := ihValue _ _ _ hv
        have := skipWs_length_le value
        have hafter := skipWs_length_le afterKey
        have hleft := skipWs_length_le left
        rw [hcolon, List.length_cons] at hafter
        rcases hmore with ⟨-, hclose⟩ | ⟨tail, more, hcomma, hmore, -⟩
        · rw [hclose, List.length_cons] at hleft
          omega
        · rw [hcomma, List.length_cons] at hleft
          have := skipWs_length_le tail
          have := ihObject _ _ _ hmore
          omega

/-- One more unit of fuel changes nothing once there is enough for the text, given the
same of the two readers called (the induction hypothesis). -/
theorem scanOnce_fuel {fuel : ℕ} {cs : List Char} (hfuel : 2 * cs.length ≤ fuel + 1)
    (harray : ∀ cs, 2 * cs.length + 1 ≤ fuel → parseArray (fuel + 1) cs = parseArray fuel cs)
    (hobject : ∀ cs, 2 * cs.length + 1 ≤ fuel →
      parseObject (fuel + 1) cs = parseObject fuel cs) :
    scanOnce (fuel + 1 + 1) cs = scanOnce (fuel + 1) cs := by
  cases cs with
  | nil => rfl
  | cons c tail =>
      have hskip := skipWs_length_le tail
      rw [List.length_cons] at hfuel
      by_cases hquote : c = '"'
      · subst hquote
        rw [scanOnce, scanOnce]
      by_cases hbrace : c = '\x7b'
      · subst hbrace
        rw [scanOnce, scanOnce, hobject _ (by omega)]
      by_cases hbracket : c = '['
      · subst hbracket
        rw [scanOnce, scanOnce, harray _ (by omega)]
      · rw [scanOnce_plain hquote hbrace hbracket, scanOnce_plain hquote hbrace hbracket]

/-- More fuel than the length of the text needs changes nothing, so the fuel is no limit
of the model on what is read.  The induction is on the fuel, and what is left of the
text pays for the calls that follow. -/
theorem readers_fuel (fuel : ℕ) :
    (∀ cs, 2 * cs.length ≤ fuel → scanOnce (fuel + 1) cs = scanOnce fuel cs) ∧
      (∀ cs, 2 * cs.length + 1 ≤ fuel → parseArray (fuel + 1) cs = parseArray fuel cs) ∧
      ∀ cs, 2 * cs.length + 1 ≤ fuel → parseObject (fuel + 1) cs = parseObject fuel cs := by
  induction fuel with
  | zero =>
      refine ⟨?_, fun cs hfuel => by omega, fun cs hfuel => by omega⟩
      intro cs hfuel
      obtain rfl := List.length_eq_zero_iff.mp (show cs.length = 0 by omega)
      rfl
  | succ fuel ih =>
      obtain ⟨ihValue, ihArray, ihObject⟩ := ih
      obtain ⟨hshrink, -, -⟩ := readers_shrink fuel
      refine ⟨fun cs hfuel => scanOnce_fuel hfuel ihArray ihObject, ?_, ?_⟩
      · intro cs hfuel
        rw [parseArray, parseArray, ihValue cs (by omega)]
        cases hv : scanOnce fuel cs with
        | none => rfl
        | some found =>
            obtain ⟨v, left⟩ := found
            have hlt := hshrink _ _ _ hv
            have hskip := skipWs_length_le left
            simp only [Option.bind_eq_bind, Option.bind_some]
            generalize skipWs left = after at hskip ⊢
            split
            · rfl
            · next tail =>
              have htail := skipWs_length_le tail
              rw [List.length_cons] at hskip
              show _ = (parseArray fuel (skipWs tail)).bind _
              rw [ihArray _ (by omega)]
            · simp_all
      · intro cs hfuel
        rw [parseObject, parseObject]
        cases hkey : readString cs with
        | none => rfl
        | some found =>
            obtain ⟨key, afterKey⟩ := found
            have hkeyLength := readString_length hkey
            have hskipKey := skipWs_length_le afterKey
            simp only [Option.bind_eq_bind, Option.bind_some]
            generalize skipWs afterKey = afterKey at hskipKey ⊢
            split
            · next value =>
              have hvalue := skipWs_length_le value
              rw [List.length_cons] at hskipKey
              show (scanOnce (fuel + 1) (skipWs value)).bind _ = _
              rw [ihValue _ (by omega)]
              cases hv : scanOnce fuel (skipWs value) with
              | none => rfl
              | some found =>
                  obtain ⟨v, left⟩ := found
                  have hlt := hshrink _ _ _ hv
                  have hskip := skipWs_length_le left
                  simp only [Option.bind_some]
                  generalize skipWs left = after at hskip ⊢
                  split
                  · rfl
                  · next tail =>
                    have htail := skipWs_length_le tail
                    rw [List.length_cons] at hskip
                    show _ = (parseObject fuel (skipWs tail)).bind _
                    rw [ihObject _ (by omega)]
                  · simp_all
            · simp_all

/-- **The fuel of `loads` is never used up.** -/
theorem scanOnce_enough {cs : List Char} {fuel : ℕ} (hfuel : 2 * cs.length + 1 ≤ fuel) :
    scanOnce fuel (skipWs cs) = scanOnce (2 * cs.length + 1) (skipWs cs) := by
  have hskip := skipWs_length_le cs
  induction fuel, hfuel using Nat.le_induction with
  | base => rfl
  | succ fuel hle ih => rw [(readers_fuel fuel).1 _ (by omega), ih]

/-! ## What `loads` returns -/

/-- The values that `loads` can return. -/
inductive Loaded : Value → Prop
  | none : Loaded .none
  | bool (b : Bool) : Loaded (.bool b)
  | int {n : ℤ} : n.natAbs < 10 ^ maxStrDigits → Loaded (.int n)
  | float {x : PyFloat} : (∀ q, x = .finite q → PyFloat.IsBinary64 q) → Loaded (.float x)
  | str {s : PyStr} : Paired s → Loaded (.str s)
  | list {items : List Value} : (∀ v ∈ items, Loaded v) → Loaded (.list items)
  | dict {entries : List (PyStr × Value)} : (entries.map Prod.fst).Nodup →
      (∀ entry ∈ entries, Paired entry.1) → (∀ entry ∈ entries, Loaded entry.2) →
      Loaded (.dict entries)

/-- Digits spell less than the power of ten of their number. -/
theorem natOf_lt {ds : List Char} (h : ∀ c ∈ ds, c.isDigit = true) :
    natOf ds < 10 ^ ds.length := by
  induction ds using List.reverseRecOn with
  | nil => simp [natOf]
  | append_singleton ds c ih =>
      have hc : c.isDigit = true := h c (by simp)
      have hlt := ih fun d hd => h d (List.mem_append_left _ hd)
      have hdigit : c.toNat - '0'.toNat < 10 := by
        simp only [Char.isDigit, Bool.and_eq_true, decide_eq_true_eq] at hc
        obtain ⟨hlow, hhigh⟩ := hc
        have hle : c.toNat ≤ 57 := hhigh
        have hzero : '0'.toNat = 48 := rfl
        omega
      have happend : natOf (ds ++ [c]) = 10 * natOf ds + (c.toNat - '0'.toNat) := by
        rw [natOf, Nat.ofDigitChars_append]
        rfl
      rw [happend, List.length_append, List.length_singleton, pow_succ]
      omega

/-- What is matched as an integer part is digits. -/
theorem matchInt_digits {cs int rest : List Char} (h : matchInt cs = some (int, rest)) :
    ∀ c ∈ int, c.isDigit = true := by
  unfold matchInt at h
  split at h
  · obtain ⟨rfl, -⟩ := Prod.mk.inj (Option.some.inj h)
    simp [Char.isDigit]
  · unfold readDigits at h
    split at h
    · cases h
    · obtain ⟨rfl, -⟩ := Prod.mk.inj (Option.some.inj h)
      intro c hc
      exact List.all_eq_true.mp List.all_takeWhile c hc

/-- A number that is matched is one JSON can hold: its float is rounded to binary64 and
its int has few enough digits. -/
theorem matchNumber_loaded {cs rest : List Char} {v : Value}
    (h : matchNumber cs = some (v, rest)) : Loaded v := by
  unfold matchNumber at h
  simp only [Option.bind_eq_bind] at h
  obtain ⟨⟨int, tail⟩, hint, h⟩ := Option.bind_eq_some_iff.mp h
  have hdigits := matchInt_digits hint
  simp only at h
  split at h
  · split at h
    · cases h
    · next hlength =>
      obtain ⟨rfl, -⟩ := Prod.mk.inj (Option.some.inj h)
      have hlt : natOf int < 10 ^ maxStrDigits :=
        (natOf_lt hdigits).trans_le (Nat.pow_le_pow_right (by decide) (not_lt.mp hlength))
      apply Loaded.int
      split <;> simpa using hlt
  · obtain ⟨rfl, -⟩ := Prod.mk.inj (Option.some.inj h)
    exact Loaded.float fun q hq => PyFloat.isBinary64_of_ofDecimal hq

/-- The names stand for values that need no condition. -/
theorem matchName_loaded {cs rest : List Char} {v : Value}
    (h : matchName cs = some (v, rest)) : Loaded v := by
  unfold matchName at h
  obtain ⟨entry, hmem, hfound⟩ := List.exists_of_findSome?_eq_some h
  split at hfound
  · obtain ⟨rfl, -⟩ := Prod.mk.inj (Option.some.inj hfound)
    simp only [names, List.mem_cons, List.not_mem_nil, or_false] at hmem
    rcases hmem with rfl | rfl | rfl | rfl | rfl | rfl
    · exact Loaded.none
    · exact Loaded.bool _
    · exact Loaded.bool _
    · exact Loaded.float (by simp)
    · exact Loaded.float (by simp)
    · exact Loaded.float (by simp)
  · cases hfound

/-- Every reader returns what `loads` can return: strings with their surrogates paired,
floats of binary64, ints that are not too long, and dicts with distinct keys. -/
theorem readers_loaded (fuel : ℕ) :
    (∀ cs v rest, scanOnce fuel cs = some (v, rest) → Loaded v) ∧
      (∀ cs vs rest, parseArray fuel cs = some (vs, rest) → ∀ v ∈ vs, Loaded v) ∧
      ∀ cs entries rest, parseObject fuel cs = some (entries, rest) →
        ∀ entry ∈ entries, Paired entry.1 ∧ Loaded entry.2 := by
  induction fuel with
  | zero => exact ⟨nofun, nofun, nofun⟩
  | succ fuel ih =>
      obtain ⟨ihValue, ihArray, ihObject⟩ := ih
      refine ⟨?_, ?_, ?_⟩
      · intro cs v rest h
        rcases scanOnce_cases h with ⟨s, hs, rfl⟩ | ⟨tail, -, -, rfl⟩ |
          ⟨tail, entries, -, hentries, rfl⟩ | ⟨tail, -, -, rfl⟩ |
          ⟨tail, items, -, hitems, rfl⟩ | hname | hnumber
        · exact Loaded.str (readString_paired hs)
        · exact Loaded.dict List.nodup_nil (by simp) (by simp)
        · obtain ⟨hnodup, hmem⟩ := PyDict.ofPairs_spec entries
          have hall := ihObject _ _ _ hentries
          exact Loaded.dict hnodup (fun e he => (hall e (hmem e he)).1)
            fun e he => (hall e (hmem e he)).2
        · exact Loaded.list (by simp)
        · exact Loaded.list (ihArray _ _ _ hitems)
        · exact matchName_loaded hname
        · exact matchNumber_loaded hnumber
      · intro cs vs rest h
        obtain ⟨v, left, hv, hmore⟩ := parseArray_cases h
        have hloaded := ihValue _ _ _ hv
        rcases hmore with ⟨rfl, -⟩ | ⟨tail, items, -, hitems, rfl⟩
        · simpa using hloaded
        · rw [List.forall_mem_cons]
          exact ⟨hloaded, ihArray _ _ _ hitems⟩
      · intro cs entries rest h
        obtain ⟨key, afterKey, value, v, left, hkey, -, hv, hmore⟩ := parseObject_cases h
        have hfirst : Paired key ∧ Loaded v := ⟨readString_paired hkey, ihValue _ _ _ hv⟩
        rcases hmore with ⟨rfl, -⟩ | ⟨tail, more, -, hmore, rfl⟩
        · simpa using hfirst
        · rw [List.forall_mem_cons]
          exact ⟨hfirst, ihObject _ _ _ hmore⟩

/-- Whatever `json.loads` returns can be written and read again. -/
theorem loads_loaded {cs : List Char} {v : Value} (h : loads cs = some v) : Loaded v := by
  unfold loads at h
  obtain ⟨⟨found, rest⟩, hscan, h⟩ := Option.bind_eq_some_iff.mp h
  simp only at h
  split at h
  · obtain rfl := Option.some.inj h
    exact (readers_loaded _).1 _ _ _ hscan
  · cases h

end PyJson

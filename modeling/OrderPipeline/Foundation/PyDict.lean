import Mathlib.Data.List.Induction
import Mathlib.Data.List.Nodup
import Mathlib.Tactic.Common

/-!
# Python dicts as lists of entries

A dict keeps its entries in the order in which their keys first came in; setting
a key again changes the value in its place.  A dict comprehension over pairs
sets them one after the other, so a repeated key overwrites silently.  With
distinct keys it keeps every pair (`ofPairs_of_nodup`); in any case the keys it has
are distinct, and its entries are among the pairs (`ofPairs_spec`).
-/

namespace PyDict

variable {α β : Type*} [DecidableEq α]

/-- `d[k] = v`. -/
def set : List (α × β) → α → β → List (α × β)
  | [], k, v => [(k, v)]
  | entry :: rest, k, v =>
      if entry.1 = k then (entry.1, v) :: rest else entry :: set rest k v

/-- `{k: v for k, v in pairs}`. -/
def ofPairs (pairs : List (α × β)) : List (α × β) :=
  pairs.foldl (fun d p => set d p.1 p.2) []

/-- A new key comes last. -/
theorem set_of_notMem {d : List (α × β)} {k : α} (v : β) (h : k ∉ d.map Prod.fst) :
    set d k v = d ++ [(k, v)] := by
  induction d with
  | nil => rfl
  | cons entry rest ih =>
      rw [List.map_cons, List.mem_cons, not_or] at h
      rw [set, if_neg (Ne.symm h.1), ih h.2]
      rfl

/-- If no key occurs twice, setting the entries one by one appends each of them. -/
theorem foldl_set_of_nodup (pairs d : List (α × β))
    (h : ((d ++ pairs).map Prod.fst).Nodup) :
    pairs.foldl (fun d p => set d p.1 p.2) d = d ++ pairs := by
  induction pairs generalizing d with
  | nil => simp
  | cons p rest ih =>
      have hnew : p.1 ∉ d.map Prod.fst := by
        rw [List.map_append, List.map_cons] at h
        intro hmem
        exact (List.nodup_append.mp h).2.2 _ hmem _ List.mem_cons_self rfl
      rw [List.foldl_cons, set_of_notMem p.2 hnew, ih (d ++ [(p.1, p.2)]) (by simpa using h)]
      simp

/-- With distinct keys nothing is overwritten. -/
theorem ofPairs_of_nodup {pairs : List (α × β)} (h : (pairs.map Prod.fst).Nodup) :
    ofPairs pairs = pairs :=
  foldl_set_of_nodup pairs [] h

/-- With distinct keys every entry is what its key looks up. -/
theorem lookup_of_mem {d : List (α × β)} (h : (d.map Prod.fst).Nodup) {entry : α × β}
    (hmem : entry ∈ d) : d.lookup entry.1 = some entry.2 := by
  induction d with
  | nil => cases hmem
  | cons first rest ih =>
      rw [List.map_cons, List.nodup_cons] at h
      rcases List.mem_cons.mp hmem with rfl | hrest
      · rw [List.lookup_cons_self]
      · have hne : entry.1 ≠ first.1 := by
          intro heq
          exact h.1 (heq ▸ List.mem_map_of_mem hrest)
        rw [List.lookup_cons, beq_false_of_ne hne]
        exact ih h.2 hrest

/-- Setting a key keeps the keys distinct. -/
theorem keys_set (d : List (α × β)) (k : α) (v : β) :
    (set d k v).map Prod.fst =
      if k ∈ d.map Prod.fst then d.map Prod.fst else d.map Prod.fst ++ [k] := by
  induction d with
  | nil => rfl
  | cons entry rest ih =>
      by_cases hkey : entry.1 = k
      · rw [set, if_pos hkey, if_pos (by simp [hkey])]
        rfl
      · rw [set, if_neg hkey, List.map_cons, ih]
        simp only [List.map_cons, List.mem_cons, Ne.symm hkey, false_or]
        split <;> rfl

/-- What a dict holds is what it held, or what has been set. -/
theorem mem_set {d : List (α × β)} {k : α} {v : β} {entry : α × β} (h : entry ∈ set d k v) :
    entry ∈ d ∨ entry = (k, v) := by
  induction d with
  | nil => exact Or.inr (List.mem_singleton.mp h)
  | cons first rest ih =>
      rw [set] at h
      split at h
      · next hkey =>
        rcases List.mem_cons.mp h with rfl | hrest
        · exact Or.inr (by rw [hkey])
        · exact Or.inl (List.mem_cons_of_mem _ hrest)
      · rcases List.mem_cons.mp h with rfl | hrest
        · exact Or.inl List.mem_cons_self
        · rcases ih hrest with hmem | hnew
          · exact Or.inl (List.mem_cons_of_mem _ hmem)
          · exact Or.inr hnew

/-- A dict made of pairs has distinct keys, and each of its entries is one of them, even
where a key was given twice. -/
theorem ofPairs_spec (pairs : List (α × β)) :
    ((ofPairs pairs).map Prod.fst).Nodup ∧ ∀ entry ∈ ofPairs pairs, entry ∈ pairs := by
  induction pairs using List.reverseRecOn with
  | nil => exact ⟨List.nodup_nil, nofun⟩
  | append_singleton pairs p ih =>
      obtain ⟨hnodup, hmem⟩ := ih
      have hset : ofPairs (pairs ++ [p]) = set (ofPairs pairs) p.1 p.2 := by
        simp [ofPairs, List.foldl_append]
      rw [hset, keys_set]
      constructor
      · split
        · exact hnodup
        · next hnew =>
          rw [List.nodup_append]
          exact ⟨hnodup, by simp, by
            rintro a ha b hb rfl
            rw [List.mem_singleton] at hb
            exact hnew (hb ▸ ha)⟩
      · intro entry hentry
        rcases mem_set hentry with hold | rfl
        · exact List.mem_append_left _ (hmem entry hold)
        · simp

end PyDict

import NestedColumns.IdMap
import Mathlib.Tactic.Common

/-!
# More on maps by number

Looking a number up in what became of a map, and the order of its numbers.

## Theorems

* `IdMap.find?_eq_some_iff`: What is found is an entry, and the other way round.
* `IdMap.ext_find?`: Maps in which the same is found are the same.
* `IdMap.find?_filter`, `IdMap.find?_map`, `IdMap.find?_modify`: Looking up in a
  map whose entries were selected or changed.
* `IdMap.find?_values`: Looking for a value.
-/

namespace NestedColumns

namespace IdMap

variable {α β : Type}

theorem findIn_eq_some_iff {id : Nat} {a : α} {entries : List (Nat × α)}
    (h : entries.Pairwise (·.1 < ·.1)) : findIn id entries = some a ↔ (id, a) ∈ entries := by
  induction entries with
  | nil => simp only [findIn, reduceCtorEq, List.not_mem_nil]
  | cons entry rest ih =>
      rcases entry with ⟨k, b⟩
      rw [List.pairwise_cons] at h
      rw [findIn, List.mem_cons, Prod.mk.injEq]
      by_cases hk : k = id
      · subst hk
        -- Later entries have greater numbers.
        have hlater : (k, a) ∉ rest := fun hm => Nat.lt_irrefl k (h.1 _ hm)
        simp only [if_true, Option.some.injEq, true_and, hlater, or_false, eq_comm]
      · rw [if_neg hk, ih h.2]
        simp only [Ne.symm hk, false_and, false_or]

/-- What is found is an entry, and the other way round. -/
theorem find?_eq_some_iff {m : IdMap α} {id : Nat} {a : α} :
    m.find? id = some a ↔ (id, a) ∈ m.entries :=
  findIn_eq_some_iff m.ascending

/-- Maps in which the same is found are the same. -/
theorem ext_find? {m m' : IdMap α} (h : ∀ id, m.find? id = m'.find? id) : m = m' := by
  have hnodup : ∀ m : IdMap α, m.entries.Nodup := by
    intro m
    refine m.ascending.imp ?_
    rintro a b hlt rfl
    exact Nat.lt_irrefl a.1 hlt
  have hperm : m.entries.Perm m'.entries := by
    rw [List.perm_ext_iff_of_nodup (hnodup m) (hnodup m')]
    rintro ⟨id, a⟩
    rw [← find?_eq_some_iff, ← find?_eq_some_iff, h]
  have hentries : m.entries = m'.entries :=
    hperm.eq_of_pairwise (fun a b _ _ hlt hgt => absurd hlt (Nat.lt_asymm hgt))
      m.ascending m'.ascending
  cases m
  cases m'
  cases hentries
  rfl

theorem find?_empty (id : Nat) : (empty : IdMap α).find? id = none := rfl

theorem find?_eq_none_iff {m : IdMap α} {id : Nat} : m.find? id = none ↔ id ∉ m.ids := by
  rw [Option.eq_none_iff_forall_ne_some, ids, List.mem_map]
  constructor
  · rintro h ⟨⟨k, a⟩, hm, rfl⟩
    exact h a (find?_eq_some_iff.mpr hm)
  · intro h a ha
    exact h ⟨(id, a), find?_eq_some_iff.mp ha, rfl⟩

-- What is inserted and erased again leaves nothing.
theorem erase_insert (m : IdMap α) (id : Nat) (a : α) : (m.insert id a).erase id = m.erase id := by
  refine ext_find? fun other => ?_
  rw [find?_erase, find?_erase, find?_insert]
  split
  · rfl
  · rfl

/-- A number is found in the selected entries if its value is selected. -/
theorem find?_filter (keep : Nat → α → Bool) (m : IdMap α) (id : Nat) :
    (m.filter keep).find? id = (m.find? id).filter (keep id) := by
  ext a
  rw [find?_eq_some_iff, Option.filter_eq_some_iff, find?_eq_some_iff, filter, List.mem_filter]

/-- A number is found in the changed entries with its changed value. -/
theorem find?_map (f : Nat → α → β) (m : IdMap α) (id : Nat) :
    (m.map f).find? id = (m.find? id).map (f id) := by
  ext b
  rw [find?_eq_some_iff, Option.map_eq_some_iff, map, List.mem_map]
  constructor
  · rintro ⟨⟨k, a⟩, hm, he⟩
    rw [Prod.mk.injEq] at he
    rcases he with ⟨rfl, rfl⟩
    exact ⟨a, find?_eq_some_iff.mpr hm, rfl⟩
  · rintro ⟨a, ha, rfl⟩
    exact ⟨(id, a), find?_eq_some_iff.mp ha, rfl⟩

/-- Values that are changed alike are the same. -/
theorem map_congr {f g : Nat → α → β} {m : IdMap α}
    (h : ∀ id a, m.find? id = some a → f id a = g id a) : m.map f = m.map g := by
  refine ext_find? fun id => ?_
  rw [find?_map, find?_map]
  cases ha : m.find? id with
  | none => rfl
  | some a => rw [Option.map_some, Option.map_some, h id a ha]

theorem mem_values {m : IdMap α} {a : α} : a ∈ m.values ↔ ∃ id, m.find? id = some a := by
  simp only [values, List.mem_map, Prod.exists, find?_eq_some_iff, exists_eq_right]

/-- The only value that passes a test is the first one that does. -/
theorem find?_values {m : IdMap α} {p : α → Bool} {a : α} (ha : a ∈ m.values) (hp : p a)
    (honly : ∀ b ∈ m.values, p b → b = a) : m.values.find? p = some a := by
  cases hfound : m.values.find? p with
  | none => exact absurd hp (List.find?_eq_none.mp hfound a ha)
  | some b => rw [honly b (List.mem_of_find?_eq_some hfound) (List.find?_some hfound)]

theorem find?_modify (m : IdMap α) (k : Nat) (f : α → α) (id : Nat) :
    (m.modify k f).find? id = if id = k then (m.find? id).map f else m.find? id := by
  rw [modify, find?_map]
  by_cases h : id = k
  · rw [if_pos h]
    simp only [h, if_true]
  · rw [if_neg h]
    simp only [h, if_false, Option.map_id']

end IdMap

end NestedColumns

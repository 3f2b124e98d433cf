/-!
# Maps by number

Databases, tables, columns and chunks are numbered, and whatever is listed by
number is listed in ascending order. A map keeps its entries in that order, so
a listing is the map itself, and two maps with the same entries are equal.

## Main definitions

* `IdMap`: Entries in strictly ascending order of their numbers.
* `IdMap.find?`, `IdMap.insert`, `IdMap.erase`: Looking up, setting, removing.

## Theorems

* `IdMap.find?_insert`: An inserted entry is found, and no other is changed.
* `IdMap.find?_erase`: An erased entry is gone, and no other is.
-/

namespace NestedColumns

/-- Entries in strictly ascending order of their numbers. -/
structure IdMap (α : Type) where
  entries : List (Nat × α)
  ascending : entries.Pairwise (·.1 < ·.1)

namespace IdMap

variable {α β : Type}

/-- The map without entries. -/
def empty : IdMap α := ⟨[], .nil⟩

instance : Inhabited (IdMap α) := ⟨empty⟩

/-- The entry of a number in a list of entries. -/
def findIn (id : Nat) : List (Nat × α) → Option α
  | [] => none
  | (k, a) :: rest => if k = id then some a else findIn id rest

/-- The entry of a number. -/
def find? (m : IdMap α) (id : Nat) : Option α :=
  findIn id m.entries

/-- The numbers with an entry, ascending. -/
def ids (m : IdMap α) : List Nat :=
  m.entries.map (·.1)

/-- The values, in ascending order of their numbers. -/
def values (m : IdMap α) : List α :=
  m.entries.map (·.2)

/-- Put an entry in its place, over one of the same number. -/
def insertIn (id : Nat) (a : α) : List (Nat × α) → List (Nat × α)
  | [] => [(id, a)]
  | (k, b) :: rest =>
    if id < k then (id, a) :: (k, b) :: rest
    else if id = k then (id, a) :: rest
    else (k, b) :: insertIn id a rest

theorem mem_insertIn {id : Nat} {a : α} {entries : List (Nat × α)} {e : Nat × α}
    (h : e ∈ insertIn id a entries) : e = (id, a) ∨ e ∈ entries := by
  induction entries with
  | nil => exact Or.inl (List.mem_singleton.mp h)
  | cons entry rest ih =>
    obtain ⟨k, b⟩ := entry
    simp only [insertIn] at h
    split at h
    · exact List.mem_cons.mp h
    · split at h
      · rcases List.mem_cons.mp h with h | h
        · exact Or.inl h
        · exact Or.inr (List.mem_cons_of_mem _ h)
      · rcases List.mem_cons.mp h with h | h
        · exact Or.inr (h ▸ List.mem_cons_self)
        · exact (ih h).imp_right (List.mem_cons_of_mem _)

theorem ascending_insertIn (id : Nat) (a : α) {entries : List (Nat × α)}
    (h : entries.Pairwise (·.1 < ·.1)) : (insertIn id a entries).Pairwise (·.1 < ·.1) := by
  induction entries with
  | nil => exact List.pairwise_singleton _ _
  | cons entry rest ih =>
    obtain ⟨k, b⟩ := entry
    obtain ⟨hk, hrest⟩ := List.pairwise_cons.mp h
    simp only [insertIn]
    split
    · next hlt =>
      refine List.pairwise_cons.mpr ⟨fun e he => ?_, h⟩
      rcases List.mem_cons.mp he with rfl | he
      · exact hlt
      · exact Nat.lt_trans hlt (hk e he)
    · split
      · next heq => exact List.pairwise_cons.mpr ⟨heq ▸ hk, hrest⟩
      · refine List.pairwise_cons.mpr ⟨fun e he => ?_, ih hrest⟩
        rcases mem_insertIn he with rfl | he
        · show k < id
          omega
        · exact hk e he

/-- Set the entry of a number. -/
def insert (m : IdMap α) (id : Nat) (a : α) : IdMap α :=
  ⟨insertIn id a m.entries, ascending_insertIn id a m.ascending⟩

/-- Remove the entry of a number, if there is one. -/
def erase (m : IdMap α) (id : Nat) : IdMap α :=
  ⟨m.entries.filter (·.1 ≠ id), m.ascending.filter _⟩

/-- Change every value. -/
def map (f : Nat → α → β) (m : IdMap α) : IdMap β :=
  ⟨m.entries.map fun (id, a) => (id, f id a), List.pairwise_map.mpr m.ascending⟩

/-- Change the value of a number, if there is one. -/
def modify (m : IdMap α) (id : Nat) (f : α → α) : IdMap α :=
  m.map fun k a => if k = id then f a else a

/-- Keep the entries that pass a test. -/
def filter (keep : Nat → α → Bool) (m : IdMap α) : IdMap α :=
  ⟨m.entries.filter fun (id, a) => keep id a, m.ascending.filter _⟩

/-- The map of a list of entries, of which later ones count. -/
def ofList (entries : List (Nat × α)) : IdMap α :=
  entries.foldl (fun m (id, a) => m.insert id a) empty

theorem findIn_insertIn (id : Nat) (a : α) (entries : List (Nat × α)) (other : Nat) :
    findIn other (insertIn id a entries) = if id = other then some a else findIn other entries := by
  induction entries with
  | nil => simp only [insertIn, findIn]
  | cons entry rest ih =>
    obtain ⟨k, b⟩ := entry
    simp only [insertIn]
    split
    · simp only [findIn]
    · split
      · next heq =>
        subst heq
        simp only [findIn]
        split <;> rfl
      · next hne =>
        simp only [findIn, ih]
        split
        · next hk => rw [if_neg (fun h => hne (h.trans hk.symm))]
        · rfl

/-- An inserted entry is found, and no other is changed. -/
theorem find?_insert (m : IdMap α) (id : Nat) (a : α) (other : Nat) :
    (m.insert id a).find? other = if id = other then some a else m.find? other :=
  findIn_insertIn id a m.entries other

/-- An erased entry is gone, and no other is. -/
theorem find?_erase (m : IdMap α) (id other : Nat) :
    (m.erase id).find? other = if id = other then none else m.find? other := by
  simp only [find?, erase]
  induction m.entries with
  | nil => simp only [List.filter_nil, findIn, ite_self]
  | cons entry rest ih =>
    obtain ⟨k, b⟩ := entry
    by_cases hk : k = id
    · subst hk
      rw [List.filter_cons_of_neg (by simp only [ne_eq, not_true_eq_false, decide_false,
        Bool.false_eq_true, not_false_eq_true]), ih]
      simp only [findIn]
      split <;> rfl
    · rw [List.filter_cons_of_pos (by simpa only [decide_eq_true_eq] using hk)]
      simp only [findIn, ih]
      split
      · next h => rw [if_neg (fun h' => hk (h.trans h'.symm))]
      · rfl

end IdMap

end NestedColumns

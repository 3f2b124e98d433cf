/-!
# Maps by key

Some maps are only ever looked into, and never listed. Their entries are in no order
that counts, but no two of them have the same key.

## Main definitions

* `KeyMap`: Entries with different keys.
* `KeyMap.find?`, `KeyMap.insert`, `KeyMap.erase`: Looking up, setting, removing.

## Theorems

* `KeyMap.find?_insert`: An inserted entry is found, and no other is changed.
* `KeyMap.find?_erase`: An erased entry is gone, and no other is.
-/

namespace NestedColumns

/-- Entries with different keys. -/
structure KeyMap (κ α : Type) where
  entries : List (κ × α)
  distinct : entries.Pairwise (·.1 ≠ ·.1)

namespace KeyMap

variable {κ α : Type} [DecidableEq κ]

/-- The map without entries. -/
def empty : KeyMap κ α := ⟨[], .nil⟩

instance : Inhabited (KeyMap κ α) := ⟨empty⟩

/-- The entry of a key in a list of entries. -/
def findIn (key : κ) : List (κ × α) → Option α
  | [] => none
  | (k, a) :: rest => if k = key then some a else findIn key rest

/-- The entry of a key. -/
def find? (m : KeyMap κ α) (key : κ) : Option α :=
  findIn key m.entries

/-- Remove the entry of a key, if there is one. -/
def erase (m : KeyMap κ α) (key : κ) : KeyMap κ α :=
  ⟨m.entries.filter (·.1 ≠ key), m.distinct.filter _⟩

theorem ne_of_mem_erase {m : KeyMap κ α} {key : κ} {e : κ × α}
    (h : e ∈ (m.erase key).entries) : key ≠ e.1 := by
  rw [erase, List.mem_filter, decide_eq_true_eq] at h
  exact Ne.symm h.2

/-- Set the entry of a key. -/
def insert (m : KeyMap κ α) (key : κ) (a : α) : KeyMap κ α :=
  ⟨(key, a) :: (m.erase key).entries,
    List.pairwise_cons.mpr ⟨fun _ => ne_of_mem_erase, (m.erase key).distinct⟩⟩

/-- An erased entry is gone, and no other is. -/
theorem find?_erase (m : KeyMap κ α) (key other : κ) :
    (m.erase key).find? other = if key = other then none else m.find? other := by
  simp only [find?, erase]
  induction m.entries with
  | nil => simp only [List.filter_nil, findIn, ite_self]
  | cons entry rest ih =>
    obtain ⟨k, a⟩ := entry
    by_cases hk : k = key
    · subst hk
      rw [List.filter_cons_of_neg (by simp only [ne_eq, not_true_eq_false, decide_false,
        Bool.false_eq_true, not_false_eq_true]), ih]
      simp only [findIn]
      split <;> rfl
    · rw [List.filter_cons_of_pos (by simpa only [decide_eq_true_eq] using hk)]
      simp only [findIn, ih]
      split
      · next h => rw [if_neg (fun h' => hk (h.trans h'.symm))]
      · rfl

/-- An inserted entry is found, and no other is changed. -/
theorem find?_insert (m : KeyMap κ α) (key : κ) (a : α) (other : κ) :
    (m.insert key a).find? other = if key = other then some a else m.find? other := by
  have herase := find?_erase m key other
  rw [find?] at herase
  rw [find?, insert, findIn, herase]
  split <;> rfl

end KeyMap

end NestedColumns

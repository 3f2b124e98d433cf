import NestedColumns.Value

/-!
# Documents as trees

Induction over documents, with the items of an array and the members of an
object taken by membership, and how deep a document goes.

## Main definitions

* `Json.levels`: How deep a document goes.

## Theorems

* `Json.inductionOn`, `Json.inductionParts`: Induction over documents.
* `Json.member?_eq_some`: A member that is found is there.
* `Json.levels_item`, `Json.levels_member`: Items and members go less deep.
* `DataValue.ofJson?_eq_none`: Which values are no scalars.
-/

namespace NestedColumns

namespace Json

/-- Induction over documents, with items and members taken by membership. -/
@[elab_as_elim]
theorem inductionOn {motive : Json → Prop} (v : Json) (null : motive .null)
    (bool : ∀ b, motive (.bool b)) (number : ∀ n, motive (.number n))
    (string : ∀ s, motive (.string s))
    (array : ∀ items, (∀ item ∈ items, motive item) → motive (.array items))
    (object : ∀ members, (∀ m ∈ members, motive m.2) → motive (.object members)) : motive v := by
  refine @Json.rec motive (fun items => ∀ item ∈ items, motive item)
    (fun members => ∀ m ∈ members, motive m.2) (fun m => motive m.2) null bool number string
    (fun items h => array items h) (fun members h => object members h) ?_ ?_ ?_ ?_
    (fun _ _ h => h) v
  · intro item h
    exact absurd h List.not_mem_nil
  · intro first rest hfirst hrest item h
    rcases List.mem_cons.mp h with rfl | h
    · exact hfirst
    · exact hrest item h
  · intro m h
    exact absurd h List.not_mem_nil
  · intro first rest hfirst hrest m h
    rcases List.mem_cons.mp h with rfl | h
    · exact hfirst
    · exact hrest m h

/-- Induction over documents where the kind of a value does not matter, only what its parts are. -/
@[elab_as_elim]
theorem inductionParts {motive : Json → Prop} (v : Json)
    (parts : ∀ v, (∀ items, v = .array items → ∀ item ∈ items, motive item) →
      (∀ members, v = .object members → ∀ m ∈ members, motive m.2) → motive v) : motive v := by
  induction v using inductionOn with
  | array items ih => exact parts _ (fun _ hv => by cases hv; exact ih) (fun _ hv => by cases hv)
  | object members ih => exact parts _ (fun _ hv => by cases hv) (fun _ hv => by cases hv; exact ih)
  | null | bool | number | string =>
      exact parts _ (fun _ hv => by cases hv) (fun _ hv => by cases hv)

theorem member?_cons (n name : String) (v : Json) (rest : List (String × Json)) :
    member? ((n, v) :: rest) name = if n = name then some v else member? rest name := by
  by_cases h : n = name
  · simp only [member?, List.find?_cons, h, beq_self_eq_true, Option.map_some, if_true]
  · have hb : (n == name) = false := beq_eq_false_iff_ne.mpr h
    simp only [member?, List.find?_cons, hb, if_neg h]

/-- A member that is found is there. -/
theorem member?_eq_some {members : List (String × Json)} {name : String} {v : Json}
    (h : member? members name = some v) : (name, v) ∈ members := by
  induction members with
  | nil => simp only [member?, List.find?_nil, Option.map_none, reduceCtorEq] at h
  | cons m rest ih =>
      obtain ⟨n, w⟩ := m
      rw [member?_cons] at h
      by_cases hn : n = name
      · rw [if_pos hn, Option.some.injEq] at h
        rw [hn, h]
        exact List.mem_cons_self
      · rw [if_neg hn] at h
        exact List.mem_cons_of_mem _ (ih h)

/-! ### How deep a document is -/

mutual

/-- How many steps of members and items lead to the deepest part of a value. What is `null` is
    no part. -/
def levels : Json → Nat
  | .array items => levelsOfItems items
  | .object members => levelsOfMembers members
  | _ => 0

/-- The same for the items of an array. -/
def levelsOfItems : List Json → Nat
  | [] => 0
  | item :: rest => max (if item.isNull then 0 else levels item + 1) (levelsOfItems rest)

/-- The same for the members of an object. -/
def levelsOfMembers : List (String × Json) → Nat
  | [] => 0
  | (_, v) :: rest => max (if v.isNull then 0 else levels v + 1) (levelsOfMembers rest)

end

theorem levelsOfItems_le {items : List Json} {n : Nat} :
    levelsOfItems items ≤ n ↔ ∀ item ∈ items, item.isNull = false → item.levels + 1 ≤ n := by
  induction items with
  | nil => simp only [levelsOfItems, Nat.zero_le, List.not_mem_nil, false_implies, implies_true]
  | cons item rest ih =>
      rw [levelsOfItems, Nat.max_le, ih, List.forall_mem_cons]
      cases item.isNull <;> simp

theorem levelsOfMembers_le {members : List (String × Json)} {n : Nat} :
    levelsOfMembers members ≤ n ↔
      ∀ m ∈ members, m.2.isNull = false → m.2.levels + 1 ≤ n := by
  induction members with
  | nil => simp only [levelsOfMembers, Nat.zero_le, List.not_mem_nil, false_implies, implies_true]
  | cons m rest ih =>
      rw [levelsOfMembers, Nat.max_le, ih, List.forall_mem_cons]
      cases m.2.isNull <;> simp

-- The parts of a value that is not too deep are not too deep one step further.
theorem levels_item {items : List Json} {depth limit : Nat}
    (h : depth + (Json.array items).levels ≤ limit) :
    ∀ item ∈ items, item.isNull = false → depth + 1 + item.levels ≤ limit := by
  intro item hm hnull
  have hle := levelsOfItems_le.mp (Nat.le_refl (levelsOfItems items)) item hm hnull
  rw [levels] at h
  omega

theorem levels_member {members : List (String × Json)} {depth limit : Nat}
    (h : depth + (Json.object members).levels ≤ limit) :
    ∀ m ∈ members, m.2.isNull = false → depth + 1 + m.2.levels ≤ limit := by
  intro m hm hnull
  have hle := levelsOfMembers_le.mp (Nat.le_refl (levelsOfMembers members)) m hm hnull
  rw [levels] at h
  omega

end Json

/-- Only `null` and what has parts are no scalars. -/
theorem DataValue.ofJson?_eq_none {v : Json} :
    ofJson? v = none ↔ v = .null ∨ (∃ items, v = .array items) ∨ ∃ members, v = .object members := by
  cases v with
  | number n =>
      simp only [ofJson?, reduceCtorEq, exists_false, or_false, iff_false]
      split <;> simp only [reduceCtorEq, not_false_eq_true]
  | null | bool | string | array | object =>
      simp only [ofJson?, reduceCtorEq, Json.array.injEq, Json.object.injEq, exists_eq',
        exists_false, or_false, or_true]

end NestedColumns

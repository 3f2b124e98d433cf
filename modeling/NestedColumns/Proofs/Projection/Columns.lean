import NestedColumns.Proofs.Schema.Ways

/-!
# The columns of a table

A column knows its place by steps, and the documents are stated by ways. Both
tell the same about what two columns share: the first steps of one are those of
the other exactly if the first names are.

## Theorems

* `Projection.exists_way`, `Projection.exists_column`: A column has a way, and a
  leaf at the end of a way is a column.
* `Projection.take_steps_prefix_iff`: Shared steps are shared names.
* `Projection.oldest?_eq_none_iff`, `Projection.oldest?_le`: The column with the
  smallest number.
* `Projection.shapeSourceAt_eq_some`: The source at a depth shares the way so far.
-/

namespace NestedColumns

namespace Projection

open Schema (Node)

/-- A column of a table is at the end of its way. -/
theorem exists_way {schema : Schema} {c : ProjectedColumn} (h : c ∈ (ofSchema schema).columns) :
    ∃ way, (Node.object schema.fields).along? c.steps = some (way, .leaf c.column c.type) := by
  have hbelow : c ∈ columnsBelow (.object schema.fields) "" [] := h
  rcases mem_columnsBelow hbelow with ⟨further, way, hs, hw, -⟩
  rw [List.nil_append] at hs
  exact ⟨way, hs ▸ hw⟩

/-- A leaf at the end of a way is a column of the table. -/
theorem exists_column {schema : Schema} (hu : (Node.object schema.fields).NamesUnique)
    (hd : (Node.object schema.fields).columns.Nodup) {way : Way} {column : Nat} {type : DataType}
    (h : (Node.object schema.fields).at? way = some (.leaf column type)) :
    ∃ c ∈ (ofSchema schema).columns, c.column = column ∧
      (Node.object schema.fields).along? c.steps = some (way, .leaf column type) := by
  have hall : (ofSchema schema).columns.map (·.column) = (Node.object schema.fields).columns :=
    map_column_columnsBelow (.object schema.fields) "" []
  have hmem := Node.mem_columns_of_at? h
  rw [← hall, List.mem_map] at hmem
  rcases hmem with ⟨c, hc, rfl⟩
  rcases exists_way hc with ⟨way', hw⟩
  have hat := Node.at?_of_along? hu hw
  have hway := Node.way_unique hd h hat
  subst hway
  rw [h, Option.some.injEq] at hat
  exact ⟨c, hc, rfl, hat ▸ hw⟩

/-- Fields of one name are one field, at one place. -/
theorem place_eq_iff {fields : List (String × Node)} (hd : (fields.map (·.1)).Nodup) {i j : Nat}
    {name name' : String} {node node' : Node} (hi : fields[i]? = some (name, node))
    (hj : fields[j]? = some (name', node')) : i = j ↔ name = name' := by
  constructor
  · rintro rfl
    rw [hi, Option.some.injEq, Prod.mk.injEq] at hj
    exact hj.1
  · rintro rfl
    have hlt : i < (fields.map (·.1)).length := by
      rw [List.length_map]
      exact (List.getElem?_eq_some_iff.mp hi).1
    refine (List.getElem?_inj hlt hd).mp ?_
    rw [List.getElem?_map, List.getElem?_map, hi, hj, Option.map_some, Option.map_some]

/-- Two columns share their first steps exactly if they share the first names. -/
theorem take_steps_prefix_iff {node a b : Node} (hu : node.NamesUnique) {s t : List Step}
    {v w : Way} (hs : node.along? s = some (v, a)) (ht : node.along? t = some (w, b))
    (depth : Nat) : s.take depth <+: t ↔ v.take depth <+: w := by
  induction depth generalizing node s t v w with
  | zero => simp only [List.take_zero, List.nil_prefix]
  | succ depth ih =>
      cases s with
      | nil =>
          rcases Node.along?_nil_some hs with ⟨rfl, -⟩
          simp only [List.take_nil, List.nil_prefix]
      | cons step s =>
          cases t with
          | nil =>
              rcases Node.along?_nil_some ht with ⟨rfl, -⟩
              have hlen := (Node.along?_measure hs).1
              cases v with
              | nil => simp only [List.length_nil, List.length_cons, reduceCtorEq] at hlen
              | cons hop v => simp only [List.take_succ_cons, List.prefix_nil, reduceCtorEq]
          | cons step' t =>
              rcases Node.along?_cons_some hs with
                ⟨fields, i, name, next, rest, rfl, rfl, hi, hsr, rfl⟩ |
                ⟨element, rest, rfl, rfl, hsr, rfl⟩
              · rcases Node.along?_cons_some ht with
                  ⟨fields', j, name', next', rest', hobj, rfl, hj, htr, rfl⟩ | ⟨_, _, hobj, -⟩
                · cases hobj
                  rw [List.take_succ_cons, List.take_succ_cons, List.cons_prefix_cons,
                    List.cons_prefix_cons, Step.member.injEq, Hop.member.injEq]
                  have hplace := place_eq_iff hu.1 hi hj
                  constructor
                  · rintro ⟨rfl, hp⟩
                    have hname := hplace.mp rfl
                    subst hname
                    rw [hi, Option.some.injEq, Prod.mk.injEq] at hj
                    rw [hj.2] at hi hsr
                    have hn := Node.namesUniqueOf_iff.mp hu.2 _ (List.mem_of_getElem? hi)
                    exact ⟨rfl, (ih hn hsr htr).mp hp⟩
                  · rintro ⟨rfl, hp⟩
                    have hij := hplace.mpr rfl
                    subst hij
                    rw [hi, Option.some.injEq, Prod.mk.injEq] at hj
                    rw [hj.2] at hi hsr
                    have hn := Node.namesUniqueOf_iff.mp hu.2 _ (List.mem_of_getElem? hi)
                    exact ⟨rfl, (ih hn hsr htr).mpr hp⟩
                · cases hobj
              · rcases Node.along?_cons_some ht with
                  ⟨_, _, _, _, _, hobj, -⟩ | ⟨element', rest', hobj, rfl, htr, rfl⟩
                · cases hobj
                · cases hobj
                  have helement : element.NamesUnique := hu
                  rw [List.take_succ_cons, List.take_succ_cons, List.cons_prefix_cons,
                    List.cons_prefix_cons, ih helement hsr htr]
                  simp only [true_and]

theorem oldest?_eq_none_iff {columns : List ProjectedColumn} :
    oldest? columns = none ↔ columns = [] := by
  cases columns with
  | nil => simp only [oldest?]
  | cons c rest =>
      rw [oldest?]
      cases oldest? rest with
      | none => simp only [reduceCtorEq]
      | some d => by_cases h : d.column < c.column <;> simp only [h, if_true, if_false, reduceCtorEq]

/-- No column of the list has a smaller number. -/
theorem oldest?_le {columns : List ProjectedColumn} {d : ProjectedColumn}
    (h : oldest? columns = some d) : d ∈ columns ∧ ∀ c ∈ columns, d.column ≤ c.column := by
  induction columns generalizing d with
  | nil => cases h
  | cons c rest ih =>
      rw [oldest?] at h
      cases hrest : oldest? rest with
      | none =>
          rw [hrest, Option.some.injEq] at h
          rw [oldest?_eq_none_iff.mp hrest, ← h]
          exact ⟨List.mem_cons_self, fun e he => Nat.le_of_eq (by rw [List.mem_singleton.mp he])⟩
      | some e =>
          rcases ih hrest with ⟨hmem, hle⟩
          simp only [hrest] at h
          by_cases hlt : e.column < c.column
          · rw [if_pos hlt, Option.some.injEq] at h
            subst h
            refine ⟨List.mem_cons_of_mem _ hmem, fun f hf => ?_⟩
            rcases List.mem_cons.mp hf with rfl | hf
            · exact Nat.le_of_lt hlt
            · exact hle f hf
          · rw [if_neg hlt, Option.some.injEq] at h
            subst h
            refine ⟨List.mem_cons_self, fun f hf => ?_⟩
            rcases List.mem_cons.mp hf with rfl | hf
            · exact Nat.le_refl _
            · have := hle f hf
              omega

/-- The source at a depth is an older column that shares the steps so far. -/
theorem shapeSourceAt_eq_some {table : List ProjectedColumn} {full c : ProjectedColumn}
    {depth shared : Nat} (h : shapeSourceAt table full depth = some (c, shared)) :
    shared = depth ∧ c ∈ table ∧ c.column < full.column ∧ full.steps.take depth <+: c.steps := by
  rw [shapeSourceAt] at h
  split at h
  · rcases Option.map_eq_some_iff.mp h with ⟨d, hd, he⟩
    rw [Prod.mk.injEq] at he
    rcases he with ⟨rfl, rfl⟩
    have hmem := List.mem_filter.mp (oldest?_le hd).1
    simp only [Bool.and_eq_true, decide_eq_true_eq, List.isPrefixOf_iff_prefix] at hmem
    exact ⟨rfl, hmem⟩
  · cases h

end Projection

end NestedColumns

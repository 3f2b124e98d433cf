import NestedColumns.Proofs.Documents.Marking
import NestedColumns.Proofs.Schema.Leaves

/-!
# Documents in any order

The schema of some documents is made of what they show, and whether they can all be merged
depends on that and on how deep they go. Neither knows an order of the documents, so if all of
their arrays have data, the order in which they are merged makes no difference but in the
order of fields and in the numbers of columns.

An array without data gets in the way. It shows that there is an array, but as long as nothing
is known about its elements no array is made, so a scalar may come in its place.

## Main definitions

* `Schema.mergeAll`: Merge documents one after another.
* `Schema.Alike`: Schemas that differ in the order of fields and in column numbers only.

## Theorems

* `Schema.mergeAll_builds`: A schema is made of what its documents show.
* `Schema.mergeAll_eq_ok_iff`: Which documents can be merged.
* `Schema.alike_of_builds`: What was seen determines a schema.
* `Schema.mergeAll_perm`: Documents can be merged in any order.
-/

namespace NestedColumns

namespace Schema

open Node (Builds Describes)

/-- Merge documents one after another. -/
def mergeAll (options : MergeOptions) (schema : Schema) (documents : List Json) :
    Except SchemaError Schema :=
  documents.foldlM (mergeInto options) schema

/-- A leaf without the number of its column. -/
def LeafColumn.unnumbered (l : LeafColumn) : String × DataType × Nat × Nat :=
  (l.path, l.type, l.maxRep, l.maxDef)

/-- Schemas that differ in the order of fields and in the numbers of columns only: the same
    fields have the same shapes, the same leaves are listed with their paths, types and levels,
    and as many numbers were given away. -/
structure Alike (a b : Schema) : Prop where
  root : Node.Alike a.root b.root
  leaves : (a.leaves.map LeafColumn.unnumbered).Perm (b.leaves.map LeafColumn.unnumbered)
  next : a.nextColumn = b.nextColumn

variable {options : MergeOptions} {schema full : Schema} {document : Json}
  {documents : List Json} {S : Marks}

/-- A document builds on a schema with what it shows. -/
theorem mergeInto_builds (ht : document.telling = true) (hn : schema.root.NamesUnique)
    (h : mergeInto options schema document = .ok full) :
    Builds document.marks (some schema.root) schema.nextColumn (some full.root)
      full.nextColumn ∧ full.root.NamesUnique := by
  rcases Outcome.map_eq_ok.mp h with ⟨merged, hm, rfl⟩
  refine ⟨?_, (merge_extends hm).names hn⟩
  cases document with
  | object members =>
      rcases Outcome.bind_eq_ok.mp hm with ⟨⟨fields, growth⟩, hmembers, hr⟩
      rw [Json.telling, Json.tellingMembers_iff] at ht
      have hbuilds := mergeMembers_builds (fun m hmem => marking m.2 (ht m hmem)) hmembers
      have hall := hbuilds.marked
      simp only [pure, Except.pure, Except.ok.injEq] at hr
      rw [← hr, Json.marks]
      cases hc : growth.changed with
      | true => exact hall
      | false =>
          -- Where nothing was changed the schema is that from before.
          rcases Json.mergeMembers_unchanged (fun m _ => Json.fitsUnchanged m.2) hmembers hc with
            ⟨rfl, hfields⟩
          rw [(hfields hn).1] at hall
          exact hall
  | null | bool | number | string | array => simp only [merge, reduceCtorEq] at hm

theorem mergeAll_cons {rest : List Json} :
    mergeAll options schema (document :: rest) = .ok full ↔
      ∃ middle, mergeInto options schema document = .ok middle ∧
        mergeAll options middle rest = .ok full := by
  rw [mergeAll, List.foldlM_cons]
  exact Outcome.bind_eq_ok

/-- A schema is made of what its documents show. -/
theorem mergeAll_builds (ht : ∀ document ∈ documents, document.telling = true)
    (hn : schema.root.NamesUnique) (h : mergeAll options schema documents = .ok full) :
    Builds (Json.marksOfItems documents) (some schema.root) schema.nextColumn (some full.root)
      full.nextColumn ∧ full.root.NamesUnique := by
  induction documents generalizing schema with
  | nil =>
      cases h
      exact ⟨.refl .., hn⟩
  | cons document rest ih =>
      rw [List.forall_mem_cons] at ht
      rcases mergeAll_cons.mp h with ⟨middle, hm, hr⟩
      rcases mergeInto_builds ht.1 hn hm with ⟨hbuilds, hmiddle⟩
      rcases ih ht.2 hmiddle hr with ⟨hrest, hfull⟩
      exact ⟨hbuilds.trans hrest, hfull⟩

/-- An object without conflicts that is not too deep is merged. -/
theorem exists_mergeInto {maxLevel : Nat} (ht : document.telling = true)
    (ho : ∃ members, document = .object members) (hS : Describes S (some schema.root))
    (hagree : (S ∪ document.marks).Agreeing) (hdeep : document.levels ≤ maxLevel) :
    ∃ full, mergeInto ⟨.widen, maxLevel⟩ schema document = .ok full := by
  rcases ho with ⟨members, rfl⟩
  rw [Json.telling, Json.tellingMembers_iff] at ht
  have hsub : S ∪ Json.marksOfMembers members ⊆ S ∪ (Json.object members).marks :=
    Set.union_subset_union_right S Set.subset_union_right
  have hmembers := fun m hm => And.intro (marking m.2 (ht m hm)) (accepting m.2 (ht m hm))
  rw [← Nat.zero_add (Json.object members).levels] at hdeep
  rcases mergeMembers_accepts hmembers ⟨schema.nextColumn, false⟩ hS (hagree.mono hsub)
    (Json.levels_member hdeep) with ⟨result, hr⟩
  exact ⟨_, Outcome.map_eq_ok.mpr ⟨_, Outcome.bind_eq_ok.mpr ⟨_, hr, rfl⟩, rfl⟩⟩

/-- Which documents can be merged: objects that are not too deep, without conflicts. -/
theorem mergeAll_eq_ok_iff {maxLevel : Nat} (ht : ∀ document ∈ documents, document.telling = true)
    (hn : schema.root.NamesUnique) (hS : Describes S (some schema.root)) :
    (∃ full, mergeAll ⟨.widen, maxLevel⟩ schema documents = .ok full) ↔
      (∀ document ∈ documents, (∃ members, document = .object members) ∧
        document.levels ≤ maxLevel) ∧ (S ∪ Json.marksOfItems documents).Agreeing := by
  induction documents generalizing schema S with
  | nil =>
      refine iff_of_true ⟨schema, rfl⟩ ⟨nofun, ?_⟩
      rw [Json.marksOfItems, Set.union_empty]
      exact hS.agreeing
  | cons document rest ih =>
      rw [List.forall_mem_cons] at ht
      rw [List.forall_mem_cons, Json.marksOfItems, ← Set.union_assoc]
      constructor
      · rintro ⟨full, h⟩
        rcases mergeAll_cons.mp h with ⟨middle, hm, hr⟩
        rcases mergeInto_builds ht.1 hn hm with ⟨hbuilds, hmiddle⟩
        rcases (ih ht.2 hmiddle (hbuilds.adds S hS)).mp ⟨full, hr⟩ with ⟨hrest, hagree⟩
        rcases Outcome.map_eq_ok.mp hm with ⟨merged, hmerge, -⟩
        have hobject : ∃ members, document = .object members := by
          cases document with
          | object members => exact ⟨members, rfl⟩
          | null | bool | number | string | array => simp only [merge, reduceCtorEq] at hmerge
        exact ⟨⟨⟨hobject, levels_le_of_merge hmerge⟩, hrest⟩, hagree⟩
      · rintro ⟨⟨hfirst, hrest⟩, hagree⟩
        rcases exists_mergeInto ht.1 hfirst.1 hS (hagree.mono Set.subset_union_left) hfirst.2 with
          ⟨middle, hm⟩
        rcases mergeInto_builds ht.1 hn hm with ⟨hbuilds, hmiddle⟩
        rcases (ih ht.2 hmiddle (hbuilds.adds S hS)).mpr ⟨hrest, hagree⟩ with ⟨full, hr⟩
        exact ⟨full, mergeAll_cons.mpr ⟨middle, hm, hr⟩⟩

/-! ### What was seen determines a schema -/

/-- The ways of the leaves that are listed, with their types. -/
def leafWays (schema : Schema) : List (Way × DataType) :=
  schema.root.spots.map fun spot => (spot.way, spot.type)

theorem mem_leafWays (hn : schema.root.NamesUnique) (hd : schema.root.columns.Nodup)
    {way : Way} {type : DataType} :
    (way, type) ∈ schema.leafWays ↔
      Node.markAt? (some schema.root) way = some (.scalar type) := by
  rw [leafWays, List.mem_map, Node.markAt?_eq_scalar_iff]
  constructor
  · rintro ⟨spot, hspot, heq⟩
    rw [Prod.mk.injEq] at heq
    rw [← heq.1, ← heq.2]
    exact ⟨spot.column, Node.at?_of_along? hn (along?_of_mem_spots hspot)⟩
  · rintro ⟨column, hat⟩
    have hcolumn := Node.mem_columns_of_at? hat
    rw [← map_column_spots, List.mem_map] at hcolumn
    rcases hcolumn with ⟨spot, hspot, rfl⟩
    have hspotAt := Node.at?_of_along? hn (along?_of_mem_spots hspot)
    have hway : way = spot.way := Node.way_unique hd hat hspotAt
    rw [hway, hspotAt, Option.some.injEq, Node.leaf.injEq] at hat
    exact ⟨spot, hspot, by rw [hway, hat.2]⟩

theorem nodup_leafWays (hn : schema.root.NamesUnique) (hd : schema.root.columns.Nodup) :
    schema.leafWays.Nodup := by
  rw [← map_column_spots] at hd
  refine List.Nodup.map_on (fun spot hspot other hother heq => ?_) hd.of_map
  rw [Prod.mk.injEq] at heq
  have hat := Node.at?_of_along? hn (along?_of_mem_spots hspot)
  have hat' := Node.at?_of_along? hn (along?_of_mem_spots hother)
  rw [heq.1, hat', Option.some.injEq, Node.leaf.injEq] at hat
  exact List.inj_on_of_nodup_map hd hspot hother hat.1.symm

theorem map_unnumbered_leaves (schema : Schema) :
    schema.leaves.map LeafColumn.unnumbered = schema.leafWays.map fun p =>
      (dotted p.1.names, p.2, p.1.elements, p.1.length) := by
  rw [leaves_eq, leafWays, List.map_map, List.map_map]
  rfl

/-- What a schema was built with from the start determines it, but for the order of fields and
    the numbers of columns. -/
theorem alike_of_builds {a b : Schema} {limit limit' : Nat} (ha : a.Sound limit)
    (hb : b.Sound limit')
    (hba : Builds S (some Schema.empty.root) 0 (some a.root) a.nextColumn)
    (hbb : Builds S (some Schema.empty.root) 0 (some b.root) b.nextColumn) : Alike a b := by
  have hda := hba.adds _ Node.describes_object_nil
  have hdb := hbb.adds _ Node.describes_object_nil
  have hways : a.leafWays.Perm b.leafWays := by
    refine (List.perm_ext_iff_of_nodup (nodup_leafWays ha.names ha.distinct)
      (nodup_leafWays hb.names hb.distinct)).mpr ?_
    rintro ⟨way, type⟩
    rw [mem_leafWays ha.names ha.distinct, mem_leafWays hb.names hb.distinct,
      Node.markAt?_eq_of_describes hda hdb way]
  have hleaves : (a.leaves.map LeafColumn.unnumbered).Perm
      (b.leaves.map LeafColumn.unnumbered) := by
    rw [map_unnumbered_leaves, map_unnumbered_leaves]
    exact hways.map _
  refine ⟨Node.alike_of_describes ha.names hb.names hda hdb, hleaves, ?_⟩
  have hcount : a.root.columns.length = b.root.columns.length := by
    rw [← map_column_leaves, ← map_column_leaves]
    simpa only [List.length_map] using hleaves.length_eq
  have hca : a.root.columns.length + 0 = 0 + a.nextColumn := hba.counts
  have hcb : b.root.columns.length + 0 = 0 + b.nextColumn := hbb.counts
  omega

theorem mergeAll_reaches {early : Schema} (hr : Reaches early schema)
    (h : mergeAll options schema documents = .ok full) : Reaches early full := by
  induction documents generalizing schema with
  | nil =>
      cases h
      exact hr
  | cons document rest ih =>
      rcases mergeAll_cons.mp h with ⟨middle, hm, hrest⟩
      exact ih (.step hr hm) hrest

/-- If all arrays of some documents have data, the order in which they are merged decides
    neither whether they can all be merged, nor what their schema is, but for the order of its
    fields and the numbers of its columns. -/
theorem mergeAll_perm {others : List Json} {maxLevel : Nat} (hp : documents.Perm others)
    (ht : ∀ document ∈ documents, document.telling = true) :
    ((∃ full, mergeAll ⟨.widen, maxLevel⟩ .empty documents = .ok full) ↔
        ∃ full, mergeAll ⟨.widen, maxLevel⟩ .empty others = .ok full) ∧
      ∀ full full', mergeAll ⟨.widen, maxLevel⟩ .empty documents = .ok full →
        mergeAll ⟨.widen, maxLevel⟩ .empty others = .ok full' → Alike full full' := by
  have hn := (sound_empty 0).names
  have ht' : ∀ document ∈ others, document.telling = true := fun document hm =>
    ht document (hp.mem_iff.mpr hm)
  have hshown : Json.marksOfItems documents = Json.marksOfItems others := by
    ext p
    simp only [Json.mem_marksOfItems, hp.mem_iff]
  constructor
  · have hempty : Describes (Marks.here .object) (some Schema.empty.root) :=
      Node.describes_object_nil
    rw [mergeAll_eq_ok_iff ht hn hempty, mergeAll_eq_ok_iff ht' hn hempty, hshown]
    simp only [hp.mem_iff]
  · intro full full' h h'
    have hbuilds := (mergeAll_builds ht hn h).1
    have hbuilds' := (mergeAll_builds ht' hn h').1
    rw [hshown] at hbuilds
    rcases (mergeAll_reaches (.refl _) h).sound (sound_empty 0) with ⟨limit, hsound⟩
    rcases (mergeAll_reaches (.refl _) h').sound (sound_empty 0) with ⟨limit', hsound'⟩
    exact alike_of_builds hsound hsound' hbuilds hbuilds'

/-- A whole number and nothing more in an array, and a float there, behind another member. -/
def arrivals : List Json :=
  [.object [("a", .array [.number (.whole 1), .null])],
    .object [("b", .object [("c", .string "x")]),
      ("a", .array [.number (.double ⟨0x3FF8000000000000⟩)])]]

-- In one order a column is widened, in the other it takes a whole number as it is.
theorem mergeAll_perm_arrivals :
    ∃ full full', mergeAll ⟨.widen, 32⟩ .empty arrivals = .ok full ∧
      mergeAll ⟨.widen, 32⟩ .empty arrivals.reverse = .ok full' ∧
      full.fields = [("a", .array (.leaf 0 .float)), ("b", .object [("c", .leaf 1 .string)])] ∧
      full'.fields = [("b", .object [("c", .leaf 0 .string)]), ("a", .array (.leaf 1 .float))] ∧
      Alike full full' := by
  have ht : ∀ document ∈ arrivals, document.telling = true := by decide
  rcases mergeAll_perm arrivals.reverse_perm.symm ht with ⟨hiff, halike⟩
  have hfull : mergeAll ⟨.widen, 32⟩ .empty arrivals = .ok
      ⟨[("a", .array (.leaf 0 .float)), ("b", .object [("c", .leaf 1 .string)])], 2⟩ := rfl
  rcases hiff.mp ⟨_, hfull⟩ with ⟨full', hfull'⟩
  have hfields : mergeAll ⟨.widen, 32⟩ .empty arrivals.reverse = .ok
      ⟨[("b", .object [("c", .leaf 0 .string)]), ("a", .array (.leaf 1 .float))], 2⟩ := rfl
  refine ⟨_, full', hfull, hfull', rfl, ?_, halike _ _ hfull hfull'⟩
  rw [hfull', Except.ok.injEq] at hfields
  rw [hfields]

-- Without data an array is not made, so a scalar may come after it, but not before it.
example :
    mergeAll ⟨.widen, 32⟩ .empty [.object [("a", .array [])], .object [("a", .string "x")]] =
        .ok ⟨[("a", .leaf 0 .string)], 1⟩ ∧
      ∃ e, mergeAll ⟨.widen, 32⟩ .empty
        [.object [("a", .string "x")], .object [("a", .array [])]] = .error e :=
  ⟨rfl, _, rfl⟩

end Schema

end NestedColumns

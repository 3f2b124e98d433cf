import NestedColumns.Proofs.Schema.Ways

/-!
# Parts of a schema

What a reader asks for is a part of a table's schema: some fields of each object,
in any order, with all leaves as they are in the table. A way through the part is
a way through the whole.

## Main definitions

* `Schema.Node.PartOf`: A shape with some of the fields of another.
* `Schema.Node.Leafy`: There is a leaf below every object and every array.

## Theorems

* `Schema.Node.partOf_refl`: The whole is a part.
* `Schema.Node.PartOf.at?`: A leaf of the part is one of the whole.
* `Schema.Node.PartOf.hasLeaf`: What has a leaf in the part has one in the whole.
* `Schema.Node.PartOf.columns_subset`, `Schema.Node.PartOf.nodup_columns`: The columns of
  the part are columns of the whole, each once.
-/

namespace NestedColumns

namespace Schema

namespace Node

mutual

/-- The first shape is the second with some fields left out. -/
def PartOf : Node → Node → Prop
  | .leaf column type, .leaf column' type' => column' = column ∧ type' = type
  | .object fields, .object fields' => PartOfFields fields fields'
  | .array element, .array element' => PartOf element element'
  | _, _ => False

/-- Each field is a part of the one that has its name. -/
def PartOfFields : List (String × Node) → List (String × Node) → Prop
  | [], _ => True
  | (name, node) :: rest, fields =>
    (∃ whole, field? fields name = some whole ∧ PartOf node whole) ∧ PartOfFields rest fields

end

mutual

/-- There is a leaf below every object and every array. -/
def Leafy : Node → Prop
  | .leaf _ _ => True
  | .object fields => (object fields).hasLeaf = true ∧ LeafyFields fields
  | .array element => (array element).hasLeaf = true ∧ Leafy element

/-- The same, below fields. -/
def LeafyFields : List (String × Node) → Prop
  | [] => True
  | (_, node) :: rest => Leafy node ∧ LeafyFields rest

end

theorem partOfFields_iff {fields whole : List (String × Node)} :
    PartOfFields fields whole ↔
      ∀ f ∈ fields, ∃ node, field? whole f.1 = some node ∧ PartOf f.2 node := by
  induction fields with
  | nil => simp only [PartOfFields, List.not_mem_nil, false_implies, implies_true]
  | cons f rest ih => rw [PartOfFields, ih, List.forall_mem_cons]

theorem leafyFields_iff {fields : List (String × Node)} :
    LeafyFields fields ↔ ∀ f ∈ fields, Leafy f.2 := by
  induction fields with
  | nil => simp only [LeafyFields, List.not_mem_nil, false_implies, implies_true]
  | cons f rest ih => rw [LeafyFields, ih, List.forall_mem_cons]

/-- A leaf is one itself, and everything else in such a shape has one below it. -/
theorem Leafy.hasLeaf {node : Node} (h : node.Leafy) : node.hasLeaf = true := by
  cases node with
  | leaf column type => rfl
  | object fields => exact h.1
  | array element => exact h.1

theorem partOf_object {fields : List (String × Node)} {node : Node} :
    PartOf (.object fields) node ↔ ∃ whole, node = .object whole ∧ PartOfFields fields whole := by
  cases node with
  | leaf column type => simp only [PartOf, reduceCtorEq, false_and, exists_false]
  | object whole => simp only [PartOf, object.injEq, exists_eq_left']
  | array element => simp only [PartOf, reduceCtorEq, false_and, exists_false]

theorem partOf_array {element node : Node} :
    PartOf (.array element) node ↔ ∃ whole, node = .array whole ∧ PartOf element whole := by
  cases node with
  | leaf column type => simp only [PartOf, reduceCtorEq, false_and, exists_false]
  | object fields => simp only [PartOf, reduceCtorEq, false_and, exists_false]
  | array whole => simp only [PartOf, array.injEq, exists_eq_left']

theorem partOf_leaf {column : Nat} {type : DataType} {node : Node} :
    PartOf (.leaf column type) node ↔ node = .leaf column type := by
  cases node with
  | leaf column' type' => simp only [PartOf, leaf.injEq]
  | object fields => simp only [PartOf, reduceCtorEq]
  | array element => simp only [PartOf, reduceCtorEq]

/-- The whole is a part. -/
theorem partOf_refl {node : Node} (hu : node.NamesUnique) : PartOf node node := by
  induction node using inductionOn with
  | leaf column type => exact ⟨rfl, rfl⟩
  | array element ih => exact ih hu
  | object fields ih =>
      rw [PartOf, partOfFields_iff]
      intro f hf
      exact ⟨f.2, field?_of_mem hu.1 hf, ih f hf (namesUniqueOf_iff.mp hu.2 f hf)⟩

namespace PartOf

/-- A leaf of the part is one of the whole. -/
theorem at? {part whole : Node} (h : PartOf part whole) {way : Way} {column : Nat}
    {type : DataType} (hp : part.at? way = some (.leaf column type)) :
    whole.at? way = some (.leaf column type) := by
  induction way generalizing part whole with
  | nil =>
      rw [at?_nil, Option.some.injEq] at hp
      rw [hp] at h
      rw [partOf_leaf.mp h, at?_nil]
  | cons hop way ih =>
      rcases at?_cons_some hp with ⟨fields, name, next, rfl, rfl, hf, hr⟩ | ⟨element, rfl, rfl, hr⟩
      · rcases partOf_object.mp h with ⟨all, rfl, hall⟩
        rcases partOfFields_iff.mp hall _ (mem_of_field? hf) with ⟨node, hn, hpart⟩
        rw [at?_member, hn, Option.bind_some]
        exact ih hpart hr
      · rcases partOf_array.mp h with ⟨all, rfl, hall⟩
        rw [at?_element]
        exact ih hall hr

/-- What has a leaf in the part has one in the whole. -/
theorem hasLeaf {part whole : Node} (h : PartOf part whole) (hp : part.hasLeaf = true) :
    whole.hasLeaf = true := by
  induction part using inductionOn generalizing whole with
  | leaf column type => rw [partOf_leaf.mp h, Node.hasLeaf, columns]; rfl
  | array element ih =>
      rcases partOf_array.mp h with ⟨all, rfl, hall⟩
      have hleaf : all.hasLeaf = true := ih hall hp
      exact hleaf
  | object fields ih =>
      rcases partOf_object.mp h with ⟨all, rfl, hall⟩
      rcases hasLeaf_iff.mp hp with ⟨column, hc⟩
      rcases mem_columnsOf.mp hc with ⟨f, hf, hc⟩
      rcases partOfFields_iff.mp hall f hf with ⟨node, hn, hpart⟩
      rcases hasLeaf_iff.mp (ih f hf hpart (hasLeaf_iff.mpr ⟨column, hc⟩)) with ⟨other, ho⟩
      exact hasLeaf_iff.mpr ⟨other, mem_columnsOf.mpr ⟨_, mem_of_field? hn, ho⟩⟩

/-- The columns of the part are columns of the whole. -/
theorem columns_subset {part whole : Node} (h : PartOf part whole) :
    part.columns ⊆ whole.columns := by
  induction part using inductionOn generalizing whole with
  | leaf column type =>
      rw [partOf_leaf.mp h]
      exact List.Subset.refl _
  | array element ih =>
      rcases partOf_array.mp h with ⟨all, rfl, hall⟩
      rw [columns, columns]
      exact ih hall
  | object fields ih =>
      rcases partOf_object.mp h with ⟨all, rfl, hall⟩
      intro column hc
      rcases mem_columnsOf.mp hc with ⟨f, hf, hc⟩
      rcases partOfFields_iff.mp hall f hf with ⟨node, hn, hpart⟩
      exact mem_columnsOf.mpr ⟨_, mem_of_field? hn, ih f hf hpart hc⟩

/-- If the whole has each column once, so has the part. -/
theorem nodup_columns {part whole : Node} (h : PartOf part whole) (hu : part.NamesUnique)
    (hd : whole.columns.Nodup) : part.columns.Nodup := by
  induction part using inductionOn generalizing whole with
  | leaf column type => exact List.nodup_singleton column
  | array element ih =>
      rcases partOf_array.mp h with ⟨all, rfl, hall⟩
      exact ih hall hu hd
  | object fields ih =>
      rcases partOf_object.mp h with ⟨all, rfl, hall⟩
      have hfields := partOfFields_iff.mp hall
      rw [columns, columnsOf_eq_flatMap, List.nodup_flatMap]
      constructor
      · intro f hf
        rcases hfields f hf with ⟨node, hn, hpart⟩
        exact ih f hf hpart (namesUniqueOf_iff.mp hu.2 f hf) (nodup_of_mem hd (mem_of_field? hn))
      · refine (List.pairwise_map.mp hu.1).imp_of_mem fun {f g} hf hg hne column hcf hcg => hne ?_
        rcases hfields f hf with ⟨a, ha, hpf⟩
        rcases hfields g hg with ⟨b, hb, hpg⟩
        have hsame := field_unique hd (mem_of_field? ha) (mem_of_field? hb)
          (hpf.columns_subset hcf) (hpg.columns_subset hcg)
        exact (Prod.mk.inj hsame).1

end PartOf

end Node

end Schema

end NestedColumns

import NestedColumns.Proofs.Schema.Ways
import Mathlib.Tactic.Common

/-!
# How shapes grow

A shape that has taken in documents keeps all it had: fields stay where they
were, and leaves keep their columns, whose types may have become wider. What is
new has columns with numbers from a bound on, which is the number that was next.

So whether a leaf was there already when a document was stored shows in its
number, and what a document reached before, it reaches still.

## Main definitions

* `Schema.Node.GrowsTo`: A shape that has taken in more.
* `Schema.Node.height`: How many steps the longest way below a shape takes.

## Theorems

* `Schema.Node.growsTo_refl`, `Schema.Node.growsTo_trans`: Growth in no steps and
  in two.
* `Schema.Node.growsTo_antisymm`: There is no growing back.
* `Schema.Node.GrowsTo.at?`: A way leads on to what has grown.
* `Schema.Node.GrowsTo.columns_subset`: No column is lost.
* `Schema.Node.GrowsTo.old_or_new`: A column was there, or has a new number.
* `Schema.Node.GrowsTo.along?_old_or_new`: So it is at every place.
* `Schema.Node.length_le_height`: No way is longer than the height.
-/

namespace NestedColumns

namespace Schema

namespace Node

mutual

/-- The second shape is the first with fields added, whose columns are numbered
    from `bound` on, and with columns of whole numbers turned into ones of
    floats. -/
def GrowsTo (bound : Nat) : Node → Node → Prop
  | .leaf column type, .leaf column' type' =>
    column' = column ∧ (type' = type ∨ type = .integer ∧ type' = .float)
  | .object fields, .object fields' => GrowsToOf bound fields fields'
  | .array element, .array element' => GrowsTo bound element element'
  | _, _ => False

/-- The same for fields: those that were there keep their places. -/
def GrowsToOf (bound : Nat) : List (String × Node) → List (String × Node) → Prop
  | [], added => ∀ column ∈ columnsOf added, bound ≤ column
  | (name, node) :: rest, (name', node') :: rest' =>
    name' = name ∧ GrowsTo bound node node' ∧ GrowsToOf bound rest rest'
  | _ :: _, [] => False

end

mutual

/-- How many steps the longest way below a shape takes. -/
def height : Node → Nat
  | .leaf _ _ => 0
  | .object fields => heightOf fields
  | .array element => height element + 1

/-- The same, with the step into a field. -/
def heightOf : List (String × Node) → Nat
  | [] => 0
  | (_, node) :: rest => max (height node + 1) (heightOf rest)

end

variable {bound : Nat}

section

-- Shapes of two kinds are told apart by the equations alone.
attribute [local simp] GrowsTo GrowsToOf

theorem growsToOf_cons {name : String} {node : Node} {rest fields : List (String × Node)} :
    GrowsToOf bound ((name, node) :: rest) fields ↔
      ∃ node' rest', fields = (name, node') :: rest' ∧ GrowsTo bound node node' ∧
        GrowsToOf bound rest rest' := by
  cases fields with
  | nil => simp
  | cons f rest' =>
      obtain ⟨name', node'⟩ := f
      rw [GrowsToOf]
      constructor
      · rintro ⟨rfl, hn, hr⟩
        exact ⟨node', rest', rfl, hn, hr⟩
      · rintro ⟨a, b, he, hn, hr⟩
        rw [List.cons.injEq, Prod.mk.injEq] at he
        rw [he.1.1, he.1.2, he.2]
        exact ⟨rfl, hn, hr⟩

theorem growsTo_leaf {column : Nat} {type : DataType} {node : Node} :
    GrowsTo bound (.leaf column type) node ↔
      ∃ type', node = .leaf column type' ∧ (type' = type ∨ type = .integer ∧ type' = .float) := by
  cases node with
  | leaf column' type' =>
      rw [GrowsTo]
      constructor
      · rintro ⟨rfl, h⟩
        exact ⟨type', rfl, h⟩
      · rintro ⟨t, he, h⟩
        rw [Node.leaf.injEq] at he
        rw [he.1, he.2]
        exact ⟨rfl, h⟩
  | object fields => simp
  | array element => simp

theorem growsTo_object {fields : List (String × Node)} {node : Node} :
    GrowsTo bound (.object fields) node ↔
      ∃ fields', node = .object fields' ∧ GrowsToOf bound fields fields' := by
  cases node with
  | leaf column type => simp
  | object fields' => simp
  | array element => simp

theorem growsTo_array {element node : Node} :
    GrowsTo bound (.array element) node ↔
      ∃ element', node = .array element' ∧ GrowsTo bound element element' := by
  cases node with
  | leaf column type => simp
  | object fields => simp
  | array element' => simp

/-- What has become an object was one. -/
theorem growsTo_object_right {fields' : List (String × Node)} {node : Node} :
    GrowsTo bound node (.object fields') ↔
      ∃ fields, node = .object fields ∧ GrowsToOf bound fields fields' := by
  cases node with
  | leaf column type => simp
  | object fields => simp
  | array element => simp

/-- What has become an array was one. -/
theorem growsTo_array_right {element' node : Node} :
    GrowsTo bound node (.array element') ↔
      ∃ element, node = .array element ∧ GrowsTo bound element element' := by
  cases node with
  | leaf column type => simp
  | object fields => simp
  | array element => simp

/-- What has become a leaf was one. -/
theorem growsTo_leaf_right {column : Nat} {type' : DataType} {node : Node} :
    GrowsTo bound node (.leaf column type') ↔
      ∃ type, node = .leaf column type ∧ (type' = type ∨ type = .integer ∧ type' = .float) := by
  cases node with
  | leaf c type =>
      rw [GrowsTo]
      constructor
      · rintro ⟨rfl, h⟩
        exact ⟨type, rfl, h⟩
      · rintro ⟨t, he, h⟩
        rw [Node.leaf.injEq] at he
        rw [he.1, he.2]
        exact ⟨rfl, h⟩
  | object fields => simp
  | array element => simp

end

/-- Growth in no steps. -/
theorem growsTo_refl (bound : Nat) (node : Node) : GrowsTo bound node node := by
  induction node using inductionOn with
  | leaf column type => exact ⟨rfl, Or.inl rfl⟩
  | array element ih => exact ih
  | object fields ih =>
      rw [GrowsTo]
      induction fields with
      | nil => simp only [GrowsToOf, columnsOf, List.not_mem_nil, false_implies, implies_true]
      | cons f rest ihrest =>
          obtain ⟨name, node⟩ := f
          exact ⟨rfl, ih _ List.mem_cons_self,
            ihrest fun f hf => ih f (List.mem_cons_of_mem _ hf)⟩

theorem growsToOf_refl (bound : Nat) (fields : List (String × Node)) :
    GrowsToOf bound fields fields :=
  growsTo_refl bound (.object fields)

namespace GrowsTo

/-- No column is lost. -/
theorem columns_subset {a b : Node} (h : GrowsTo bound a b) : a.columns ⊆ b.columns := by
  induction a using inductionOn generalizing b with
  | leaf column type =>
      obtain ⟨type', rfl, -⟩ := growsTo_leaf.mp h
      exact List.Subset.refl _
  | array element ih =>
      obtain ⟨element', rfl, h⟩ := growsTo_array.mp h
      rw [columns, columns]
      exact ih h
  | object fields ih =>
      obtain ⟨fields', rfl, h⟩ := growsTo_object.mp h
      rw [columns, columns]
      induction fields generalizing fields' with
      | nil => exact List.nil_subset _
      | cons f rest ihrest =>
          obtain ⟨name, node⟩ := f
          obtain ⟨node', rest', rfl, hn, hr⟩ := growsToOf_cons.mp h
          rw [columnsOf, columnsOf]
          have hnode := ih _ List.mem_cons_self hn
          have hrest := ihrest (fun f hf => ih f (List.mem_cons_of_mem _ hf)) rest' hr hr
          intro column hc
          rcases List.mem_append.mp hc with hc | hc
          · exact List.mem_append_left _ (hnode hc)
          · exact List.mem_append_right _ (hrest hc)

/-- A column was there before, or it has a new number. -/
theorem old_or_new {a b : Node} (h : GrowsTo bound a b) {column : Nat}
    (hc : column ∈ b.columns) : column ∈ a.columns ∨ bound ≤ column := by
  induction a using inductionOn generalizing b with
  | leaf c type =>
      obtain ⟨type', rfl, -⟩ := growsTo_leaf.mp h
      exact Or.inl hc
  | array element ih =>
      obtain ⟨element', rfl, h⟩ := growsTo_array.mp h
      rw [columns] at hc ⊢
      exact ih h hc
  | object fields ih =>
      obtain ⟨fields', rfl, h⟩ := growsTo_object.mp h
      rw [columns] at hc ⊢
      induction fields generalizing fields' with
      | nil => exact Or.inr (h column hc)
      | cons f rest ihrest =>
          obtain ⟨name, node⟩ := f
          obtain ⟨node', rest', rfl, hn, hr⟩ := growsToOf_cons.mp h
          rw [columnsOf, List.mem_append] at hc ⊢
          rcases hc with hc | hc
          · exact (ih _ List.mem_cons_self hn hc).imp_left Or.inl
          · exact (ihrest (fun f hf => ih f (List.mem_cons_of_mem _ hf)) rest' hr hr hc).imp_left
              Or.inr

/-- What had a leaf has one still. -/
theorem hasLeaf {a b : Node} (h : GrowsTo bound a b) (ha : a.hasLeaf = true) :
    b.hasLeaf = true := by
  obtain ⟨column, hc⟩ := hasLeaf_iff.mp ha
  exact hasLeaf_iff.mpr ⟨column, h.columns_subset hc⟩

end GrowsTo

theorem GrowsToOf.old_or_new {a b : List (String × Node)} (h : GrowsToOf bound a b) {column : Nat}
    (hc : column ∈ columnsOf b) : column ∈ columnsOf a ∨ bound ≤ column :=
  GrowsTo.old_or_new (a := .object a) (b := .object b) h hc

/-- A field that was there has grown. -/
theorem GrowsToOf.field? {a b : List (String × Node)} (h : GrowsToOf bound a b) {name : String}
    {node : Node} (hf : Schema.field? a name = some node) :
    ∃ node', Schema.field? b name = some node' ∧ GrowsTo bound node node' := by
  induction a generalizing b with
  | nil => simp only [field?_nil, reduceCtorEq] at hf
  | cons f rest ih =>
      obtain ⟨n, m⟩ := f
      obtain ⟨m', rest', rfl, hm, hr⟩ := growsToOf_cons.mp h
      rw [field?_cons] at hf ⊢
      by_cases hn : n = name
      · rw [if_pos hn, Option.some.injEq] at hf
        rw [if_pos hn]
        exact ⟨m', rfl, hf ▸ hm⟩
      · rw [if_neg hn] at hf ⊢
        exact ih hr hf

/-- A way leads on to what has grown. -/
theorem GrowsTo.at? {a b m : Node} (h : GrowsTo bound a b) {way : Way}
    (ha : a.at? way = some m) : ∃ m', b.at? way = some m' ∧ GrowsTo bound m m' := by
  induction way generalizing a b with
  | nil =>
      rw [at?_nil, Option.some.injEq] at ha
      exact ⟨b, at?_nil b, ha ▸ h⟩
  | cons hop way ih =>
      rcases at?_cons_some ha with ⟨fields, name, next, rfl, rfl, hf, hr⟩ | ⟨element, rfl, rfl, hr⟩
      · obtain ⟨fields', rfl, h⟩ := growsTo_object.mp h
        obtain ⟨next', hf', hn⟩ := GrowsToOf.field? h hf
        rw [at?_member, hf', Option.bind_some]
        exact ih hn hr
      · obtain ⟨element', rfl, h⟩ := growsTo_array.mp h
        rw [at?_element]
        exact ih h hr

/-- A leaf keeps its way and its column. -/
theorem GrowsTo.at?_leaf {a b : Node} (h : GrowsTo bound a b) {way : Way} {column : Nat}
    {type : DataType} (ha : a.at? way = some (.leaf column type)) :
    ∃ type', b.at? way = some (.leaf column type') := by
  obtain ⟨m, hb, hm⟩ := h.at? ha
  obtain ⟨type', rfl, -⟩ := growsTo_leaf.mp hm
  exact ⟨type', hb⟩

/-- Growth in two steps. The bound may rise in between. -/
theorem growsTo_trans {later : Nat} (hle : bound ≤ later) {a b c : Node} (h : GrowsTo bound a b)
    (h' : GrowsTo later b c) : GrowsTo bound a c := by
  induction a using inductionOn generalizing b c with
  | leaf column type =>
      obtain ⟨type', rfl, ht⟩ := growsTo_leaf.mp h
      obtain ⟨type'', rfl, ht'⟩ := growsTo_leaf.mp h'
      refine ⟨rfl, ?_⟩
      rcases ht with rfl | ⟨rfl, rfl⟩
      · exact ht'
      · exact Or.inr ⟨rfl, ht'.elim id And.right⟩
  | array element ih =>
      obtain ⟨element', rfl, h⟩ := growsTo_array.mp h
      obtain ⟨element'', rfl, h'⟩ := growsTo_array.mp h'
      exact ih h h'
  | object fields ih =>
      obtain ⟨fields', rfl, h⟩ := growsTo_object.mp h
      obtain ⟨fields'', rfl, h'⟩ := growsTo_object.mp h'
      rw [GrowsTo]
      induction fields generalizing fields' fields'' with
      | nil =>
          intro column hc
          rcases GrowsToOf.old_or_new h' hc with hc | hc
          · exact h column hc
          · exact Nat.le_trans hle hc
      | cons f rest ihrest =>
          obtain ⟨name, node⟩ := f
          obtain ⟨node', rest', rfl, hn, hr⟩ := growsToOf_cons.mp h
          obtain ⟨node'', rest'', rfl, hn', hr'⟩ := growsToOf_cons.mp h'
          exact ⟨rfl, ih _ List.mem_cons_self hn hn',
            ihrest (fun f hf => ih f (List.mem_cons_of_mem _ hf)) _ hr hr _ hr' hr'⟩

/-- There is no growing back, whatever the bounds. -/
theorem growsTo_antisymm {later : Nat} {a b : Node} (h : GrowsTo bound a b)
    (h' : GrowsTo later b a) : a = b := by
  induction a using inductionOn generalizing b with
  | leaf column type =>
      obtain ⟨type', rfl, rfl | ⟨rfl, rfl⟩⟩ := growsTo_leaf.mp h
      · rfl
      · rcases h'.2 with ht | ⟨ht, -⟩ <;> cases ht
  | array element ih =>
      obtain ⟨element', rfl, h⟩ := growsTo_array.mp h
      rw [ih h h']
  | object fields ih =>
      obtain ⟨fields', rfl, hg⟩ := growsTo_object.mp h
      have hback : GrowsToOf later fields' fields := h'
      rw [Node.object.injEq]
      clear h h'
      induction fields generalizing fields' with
      | nil =>
          cases fields' with
          | nil => rfl
          | cons f rest' => exact absurd hback id
      | cons f rest ihrest =>
          obtain ⟨name, node⟩ := f
          obtain ⟨node', rest', rfl, hn, hr⟩ := growsToOf_cons.mp hg
          obtain ⟨-, hn', hr'⟩ := hback
          have hnode : node = node' := ih _ List.mem_cons_self hn hn'
          rw [hnode, ihrest (fun f hf => ih f (List.mem_cons_of_mem _ hf)) _ hr hr']

/-- A field is where it was and has grown, or all its columns are new. -/
theorem GrowsToOf.getElem? {a b : List (String × Node)} (h : GrowsToOf bound a b) {index : Nat}
    {name : String} {node' : Node} (hb : b[index]? = some (name, node')) :
    (∃ node, a[index]? = some (name, node) ∧ GrowsTo bound node node') ∨
      ∀ column ∈ node'.columns, bound ≤ column := by
  induction a generalizing b index with
  | nil =>
      exact Or.inr fun column hc =>
        h column (mem_columnsOf.mpr ⟨_, List.mem_of_getElem? hb, hc⟩)
  | cons f rest ih =>
      obtain ⟨n, m⟩ := f
      obtain ⟨m', rest', rfl, hm, hr⟩ := growsToOf_cons.mp h
      cases index with
      | zero =>
          rw [List.getElem?_cons_zero, Option.some.injEq, Prod.mk.injEq] at hb
          obtain ⟨rfl, rfl⟩ := hb
          exact Or.inl ⟨m, List.getElem?_cons_zero, hm⟩
      | succ index =>
          rw [List.getElem?_cons_succ] at hb ⊢
          exact ih hr hb

/-- At every place where there is a leaf, there was one, or its number is new. -/
theorem GrowsTo.along?_old_or_new {a b : Node} (h : GrowsTo bound a b) {steps : List Step}
    {way : Way} {column : Nat} {type' : DataType}
    (hb : b.along? steps = some (way, .leaf column type')) :
    (∃ type, a.along? steps = some (way, .leaf column type)) ∨ bound ≤ column := by
  induction steps generalizing a b way with
  | nil =>
      rcases along?_nil_some hb with ⟨rfl, rfl⟩
      obtain ⟨type, rfl, -⟩ := growsTo_leaf_right.mp h
      exact Or.inl ⟨type, rfl⟩
  | cons step steps ih =>
      rcases along?_cons_some hb with ⟨fields', index, name, next', rest, rfl, rfl, hf, hr, rfl⟩ |
        ⟨element', rest, rfl, rfl, hr, rfl⟩
      · obtain ⟨fields, rfl, hfields⟩ := growsTo_object_right.mp h
        rcases hfields.getElem? hf with ⟨next, hnext, hg⟩ | hnew
        · refine (ih hg hr).imp_left fun ⟨type, hold⟩ => ⟨type, ?_⟩
          simp only [along?, hnext, hold, Option.map_some]
        · exact Or.inr (hnew column (mem_columns_of_along? hr))
      · obtain ⟨element, rfl, hg⟩ := growsTo_array_right.mp h
        refine (ih hg hr).imp_left fun ⟨type, hold⟩ => ⟨type, ?_⟩
        simp only [along?, hold, Option.map_some]

theorem height_lt_of_mem {fields : List (String × Node)} {f : String × Node} (h : f ∈ fields) :
    f.2.height < heightOf fields := by
  induction fields with
  | nil => exact absurd h List.not_mem_nil
  | cons g rest ih =>
      rw [heightOf]
      rcases List.mem_cons.mp h with rfl | h
      · omega
      · have := ih h
        omega

/-- No way is longer than the height. -/
theorem length_le_height {node m : Node} {way : Way} (h : node.at? way = some m) :
    way.length ≤ node.height := by
  induction way generalizing node with
  | nil => exact Nat.zero_le _
  | cons hop way ih =>
      rw [List.length_cons]
      rcases at?_cons_some h with ⟨fields, name, next, rfl, rfl, hf, hr⟩ | ⟨element, rfl, rfl, hr⟩
      · have hlt : next.height < heightOf fields := height_lt_of_mem (mem_of_field? hf)
        have hle := ih hr
        rw [height]
        omega
      · have hle := ih hr
        rw [height]
        omega

end Node

end Schema

end NestedColumns

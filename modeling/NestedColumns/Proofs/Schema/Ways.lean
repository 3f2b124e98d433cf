import NestedColumns.Projection.Basic
import Mathlib.Data.List.Nodup

/-!
# Ways through a schema

A leaf is reached by names and by elements of arrays. A column that is read
knows its place in a schema by places of fields instead, and these change from
one schema to the next, while names stay. So what a table keeps of a document is
stated by names, and this file relates the two.

In the schemas of tables the fields of an object have names of their own and no
two leaves share a column. Then a column has one way to it.

## Main definitions

* `Hop`, `Way`: A step by name, and the steps to a part of a document.
* `Way.names`: The names on a way.
* `Schema.Node.columns`, `Schema.Node.hasLeaf`: The columns below a shape.
* `Schema.Node.NamesUnique`: Fields of one object have different names.
* `Schema.Node.at?`: The shape at the end of a way.
* `Schema.Node.along?`: The way that places of fields stand for.

## Theorems

* `Schema.Node.inductionOn`: Induction over shapes.
* `Schema.Node.mem_columns_of_at?`: A leaf that a way leads to is a column.
* `Schema.Node.exists_way`: Every column has a way to it.
* `Schema.Node.way_unique`: No column has two.
* `Schema.Node.at?_of_along?`: Places and names lead to the same shape.
* `Schema.Node.along?_take`: The first steps stand for the first names.
* `Projection.mem_columnsBelow`: The columns of a shape by their steps.
-/

namespace NestedColumns

/-- A step by name. -/
inductive Hop where
  /-- The member of a name. -/
  | member (name : String)
  /-- An element of an array. -/
  | element
  deriving DecidableEq, Repr, Inhabited

/-- The steps to a part of a document. -/
abbrev Way := List Hop

/-- How many arrays are on a way. -/
def Way.elements (way : Way) : Nat :=
  way.countP (· = .element)

/-- The names on a way. Elements have none. -/
def Way.names (way : Way) : List String :=
  way.filterMap fun
    | .member name => some name
    | .element => none

namespace Way

theorem elements_nil : elements [] = 0 := rfl

theorem elements_member (name : String) (way : Way) :
    elements (.member name :: way) = elements way := by
  simp only [elements, reduceCtorEq, decide_false, Bool.false_eq_true, not_false_eq_true,
    List.countP_cons_of_neg]

theorem elements_element (way : Way) : elements (.element :: way) = elements way + 1 := by
  simp only [elements, decide_true, List.countP_cons_of_pos]

@[simp] theorem names_nil : names [] = [] := rfl

@[simp] theorem names_member (name : String) (way : Way) :
    names (.member name :: way) = name :: names way := rfl

@[simp] theorem names_element (way : Way) : names (.element :: way) = names way := rfl

end Way

namespace Step

theorem elements_append (a b : List Step) : elements (a ++ b) = elements a + elements b :=
  List.countP_append

theorem elements_member (index : Nat) (steps : List Step) :
    elements (.member index :: steps) = elements steps := by
  simp only [elements, reduceCtorEq, decide_false, Bool.false_eq_true, not_false_eq_true,
    List.countP_cons_of_neg]

theorem elements_element (steps : List Step) : elements (.element :: steps) = elements steps + 1 := by
  simp only [elements, decide_true, List.countP_cons_of_pos]

end Step

namespace Schema

theorem field?_nil (name : String) : field? [] name = none := rfl

theorem field?_cons (n name : String) (node : Node) (rest : List (String × Node)) :
    field? ((n, node) :: rest) name = if n = name then some node else field? rest name := by
  by_cases h : n = name
  · subst h
    simp only [field?, List.lookup_cons_self, if_true]
  · have hb : (name == n) = false := beq_eq_false_iff_ne.mpr (Ne.symm h)
    simp only [field?, List.lookup_cons, hb, if_neg h]

theorem mem_of_field? {fields : List (String × Node)} {name : String} {node : Node}
    (h : field? fields name = some node) : (name, node) ∈ fields := by
  induction fields with
  | nil => exact absurd h (by simp only [field?_nil, reduceCtorEq, not_false_eq_true])
  | cons f rest ih =>
      obtain ⟨n, a⟩ := f
      rw [field?_cons] at h
      by_cases hn : n = name
      · rw [if_pos hn, Option.some.injEq] at h
        rw [hn, h]
        exact List.mem_cons_self
      · rw [if_neg hn] at h
        exact List.mem_cons_of_mem _ (ih h)

theorem field?_of_mem {fields : List (String × Node)} {name : String} {node : Node}
    (hd : (fields.map (·.1)).Nodup) (h : (name, node) ∈ fields) :
    field? fields name = some node := by
  induction fields with
  | nil => exact absurd h List.not_mem_nil
  | cons f rest ih =>
      obtain ⟨n, a⟩ := f
      rw [List.map_cons, List.nodup_cons] at hd
      rw [field?_cons]
      rcases List.mem_cons.mp h with he | hr
      · rw [Prod.mk.injEq] at he
        rw [if_pos he.1.symm, he.2]
      · have hne : n ≠ name := by
          intro hc
          exact hd.1 (hc ▸ List.mem_map_of_mem (f := (·.1)) hr)
        rw [if_neg hne]
        exact ih hd.2 hr

theorem field?_eq_none_iff {fields : List (String × Node)} {name : String} :
    field? fields name = none ↔ name ∉ fields.map (·.1) := by
  induction fields with
  | nil => simp only [field?_nil, List.map_nil, List.not_mem_nil, not_false_eq_true]
  | cons f rest ih =>
      obtain ⟨n, a⟩ := f
      rw [field?_cons, List.map_cons, List.mem_cons, not_or, ← ih]
      by_cases hn : n = name
      · rw [if_pos hn]
        simp only [reduceCtorEq, hn, not_true_eq_false, false_and]
      · rw [if_neg hn]
        simp only [Ne.symm hn, not_false_eq_true, true_and]

namespace Node

mutual

theorem inductionAux {motive : Node → Prop} (leaf : ∀ column type, motive (.leaf column type))
    (object : ∀ fields, (∀ f ∈ fields, motive f.2) → motive (.object fields))
    (array : ∀ element, motive element → motive (.array element)) : ∀ node, motive node
  | .leaf column type => leaf column type
  | .object fields => object fields (inductionAuxFields leaf object array fields)
  | .array element => array element (inductionAux leaf object array element)

theorem inductionAuxFields {motive : Node → Prop}
    (leaf : ∀ column type, motive (.leaf column type))
    (object : ∀ fields, (∀ f ∈ fields, motive f.2) → motive (.object fields))
    (array : ∀ element, motive element → motive (.array element)) :
    ∀ fields : List (String × Node), ∀ f ∈ fields, motive f.2
  | [], _, h => absurd h List.not_mem_nil
  | (name, node) :: rest, f, h => by
    rcases List.mem_cons.mp h with rfl | h
    · exact inductionAux leaf object array node
    · exact inductionAuxFields leaf object array rest f h

end

/-- Induction over shapes, with the fields of an object taken by membership. -/
@[elab_as_elim]
theorem inductionOn {motive : Node → Prop} (node : Node)
    (leaf : ∀ column type, motive (.leaf column type))
    (object : ∀ fields, (∀ f ∈ fields, motive f.2) → motive (.object fields))
    (array : ∀ element, motive element → motive (.array element)) : motive node :=
  inductionAux leaf object array node

mutual

/-- The columns of the leaves at and below a shape, depth first. -/
def columns : Node → List Nat
  | .leaf column _ => [column]
  | .object fields => columnsOf fields
  | .array element => columns element

/-- The columns of the leaves below fields. -/
def columnsOf : List (String × Node) → List Nat
  | [] => []
  | (_, node) :: rest => columns node ++ columnsOf rest

end

/-- There is a leaf at or below the shape. -/
def hasLeaf (node : Node) : Bool :=
  !node.columns.isEmpty

mutual

/-- The fields of each object have different names. -/
def NamesUnique : Node → Prop
  | .leaf _ _ => True
  | .object fields => (fields.map (·.1)).Nodup ∧ NamesUniqueOf fields
  | .array element => NamesUnique element

/-- The same, below fields. -/
def NamesUniqueOf : List (String × Node) → Prop
  | [] => True
  | (_, node) :: rest => NamesUnique node ∧ NamesUniqueOf rest

end

/-- The shape at the end of a way. -/
def at? : Node → Way → Option Node
  | node, [] => some node
  | .object fields, .member name :: way => (field? fields name).bind (at? · way)
  | .array element, .element :: way => at? element way
  | _, _ :: _ => none

/-- The way that places of fields stand for, and the shape at its end. -/
def along? : Node → List Step → Option (Way × Node)
  | node, [] => some ([], node)
  | .object fields, .member index :: steps =>
    match fields[index]? with
    | none => none
    | some (name, node) =>
      (along? node steps).map fun (way, node) => (.member name :: way, node)
  | .array element, .element :: steps =>
    (along? element steps).map fun (way, node) => (.element :: way, node)
  | _, _ :: _ => none

theorem at?_nil (node : Node) : node.at? [] = some node := by
  cases node <;> rfl

theorem at?_member (fields : List (String × Node)) (name : String) (way : Way) :
    (object fields).at? (.member name :: way) = (field? fields name).bind (·.at? way) := rfl

theorem at?_element (element : Node) (way : Way) :
    (array element).at? (.element :: way) = element.at? way := rfl

/-- The first step of a way fits the shape that it starts from. -/
theorem at?_cons_some {node end? : Node} {hop : Hop} {way : Way}
    (h : node.at? (hop :: way) = some end?) :
    (∃ fields name next, node = .object fields ∧ hop = .member name ∧
      field? fields name = some next ∧ next.at? way = some end?) ∨
    (∃ element, node = .array element ∧ hop = .element ∧ element.at? way = some end?) := by
  cases node with
  | leaf column type => cases hop <;> simp only [at?, reduceCtorEq] at h
  | object fields =>
      cases hop with
      | element => simp only [at?, reduceCtorEq] at h
      | member name =>
          rw [at?_member, Option.bind_eq_some_iff] at h
          rcases h with ⟨next, hf, h⟩
          exact Or.inl ⟨fields, name, next, rfl, rfl, hf, h⟩
  | array element =>
      cases hop with
      | member name => simp only [at?, reduceCtorEq] at h
      | element => exact Or.inr ⟨element, rfl, rfl, h⟩

/-- A way is gone in two parts. -/
theorem at?_append (node : Node) (a b : Way) :
    node.at? (a ++ b) = (node.at? a).bind (·.at? b) := by
  induction a generalizing node with
  | nil => rw [List.nil_append, at?_nil, Option.bind_some]
  | cons hop a ih =>
      cases node with
      | leaf column type => cases hop <;> rfl
      | object fields =>
          cases hop with
          | element => rfl
          | member name =>
              rw [List.cons_append, at?_member, at?_member]
              cases Schema.field? fields name with
              | none => rfl
              | some next => exact ih next
      | array element =>
          cases hop with
          | member name => rfl
          | element => exact ih element

theorem columnsOf_eq_flatMap (fields : List (String × Node)) :
    columnsOf fields = fields.flatMap fun f => columns f.2 := by
  induction fields with
  | nil => rfl
  | cons f rest ih => rw [columnsOf, ih, List.flatMap_cons]

theorem mem_columnsOf {fields : List (String × Node)} {column : Nat} :
    column ∈ columnsOf fields ↔ ∃ f ∈ fields, column ∈ columns f.2 := by
  rw [columnsOf_eq_flatMap, List.mem_flatMap]

theorem columnsOf_append (a b : List (String × Node)) :
    columnsOf (a ++ b) = columnsOf a ++ columnsOf b := by
  simp only [columnsOf_eq_flatMap, List.flatMap_append]

theorem namesUniqueOf_iff {fields : List (String × Node)} :
    NamesUniqueOf fields ↔ ∀ f ∈ fields, NamesUnique f.2 := by
  induction fields with
  | nil => simp only [NamesUniqueOf, List.not_mem_nil, false_implies, implies_true]
  | cons f rest ih => rw [NamesUniqueOf, ih, List.forall_mem_cons]

theorem namesUnique_of_at? {node last : Node} (hu : node.NamesUnique) {way : Way}
    (h : node.at? way = some last) : last.NamesUnique := by
  induction way generalizing node with
  | nil =>
      rw [at?_nil, Option.some.injEq] at h
      exact h ▸ hu
  | cons hop way ih =>
      rcases at?_cons_some h with ⟨fields, name, next, rfl, rfl, hf, hr⟩ | ⟨element, rfl, rfl, hr⟩
      · exact ih (namesUniqueOf_iff.mp hu.2 _ (mem_of_field? hf)) hr
      · have helement : element.NamesUnique := hu
        exact ih helement hr

theorem hasLeaf_iff {node : Node} : node.hasLeaf = true ↔ ∃ column, column ∈ node.columns := by
  rw [hasLeaf, Bool.not_eq_true', List.isEmpty_eq_false_iff_exists_mem]

-- What a way leads to has no columns of its own.
theorem columns_subset_of_at? {node part : Node} {way : Way} (h : node.at? way = some part) :
    part.columns ⊆ node.columns := by
  induction way generalizing node with
  | nil =>
      rw [at?_nil, Option.some.injEq] at h
      rw [h]
      exact List.Subset.refl _
  | cons hop way ih =>
      rcases at?_cons_some h with ⟨fields, name, next, rfl, rfl, hf, h⟩ | ⟨element, rfl, rfl, h⟩
      · exact fun column hc => mem_columnsOf.mpr ⟨_, mem_of_field? hf, ih h hc⟩
      · rw [columns]
        exact ih h

theorem mem_columns_of_at? {node : Node} {way : Way} {column : Nat} {type : DataType}
    (h : node.at? way = some (.leaf column type)) : column ∈ node.columns :=
  columns_subset_of_at? h (List.mem_singleton_self column)

theorem hasLeaf_of_at? {node part : Node} {way : Way} (h : node.at? way = some part)
    (hl : part.hasLeaf = true) : node.hasLeaf = true := by
  rcases hasLeaf_iff.mp hl with ⟨column, hc⟩
  exact hasLeaf_iff.mpr ⟨column, columns_subset_of_at? h hc⟩

theorem exists_way {node : Node} (hu : node.NamesUnique) {column : Nat}
    (h : column ∈ node.columns) : ∃ way type, node.at? way = some (.leaf column type) := by
  induction node using inductionOn with
  | leaf c type =>
      rw [columns, List.mem_singleton] at h
      exact ⟨[], type, by rw [at?_nil, h]⟩
  | object fields ih =>
      rcases mem_columnsOf.mp h with ⟨f, hf, hc⟩
      obtain ⟨way, type, hw⟩ := ih f hf (namesUniqueOf_iff.mp hu.2 f hf) hc
      refine ⟨.member f.1 :: way, type, ?_⟩
      rw [at?_member, field?_of_mem hu.1 hf, Option.bind_some, hw]
  | array element ih =>
      obtain ⟨way, type, hw⟩ := ih hu h
      exact ⟨.element :: way, type, hw⟩

/-- Fields that share a column are the same field. -/
theorem field_unique {fields : List (String × Node)} (hd : (columnsOf fields).Nodup)
    {f g : String × Node} (hf : f ∈ fields) (hg : g ∈ fields) {column : Nat}
    (hcf : column ∈ f.2.columns) (hcg : column ∈ g.2.columns) : f = g := by
  induction fields with
  | nil => exact absurd hf List.not_mem_nil
  | cons first rest ih =>
      rw [columnsOf, List.nodup_append] at hd
      rcases List.mem_cons.mp hf with heq | hf
      · rw [heq] at hcf ⊢
        rcases List.mem_cons.mp hg with hge | hg
        · rw [hge]
        · exact absurd rfl (hd.2.2 _ hcf _ (mem_columnsOf.mpr ⟨g, hg, hcg⟩))
      · rcases List.mem_cons.mp hg with heq | hg
        · rw [heq] at hcg
          exact absurd rfl (hd.2.2 _ hcg _ (mem_columnsOf.mpr ⟨f, hf, hcf⟩))
        · exact ih hd.2.1 hf hg

theorem nodup_of_mem {fields : List (String × Node)} (hd : (columnsOf fields).Nodup)
    {f : String × Node} (hf : f ∈ fields) : f.2.columns.Nodup := by
  rw [columnsOf_eq_flatMap, List.nodup_flatMap] at hd
  exact hd.1 f hf

theorem way_unique {node : Node} (hd : node.columns.Nodup) {a b : Way} {column : Nat}
    {s t : DataType} (ha : node.at? a = some (.leaf column s))
    (hb : node.at? b = some (.leaf column t)) : a = b := by
  induction a generalizing node b with
  | nil =>
      rw [at?_nil, Option.some.injEq] at ha
      subst ha
      cases b with
      | nil => rfl
      | cons hop b => cases hop <;> simp only [at?, reduceCtorEq] at hb
  | cons hop a ih =>
      cases b with
      | nil =>
          rw [at?_nil, Option.some.injEq] at hb
          subst hb
          cases hop <;> simp only [at?, reduceCtorEq] at ha
      | cons hop' b =>
          rcases at?_cons_some ha with ⟨fields, name, m, rfl, rfl, hm, ha⟩ | ⟨element, rfl, rfl, ha⟩
          · rcases at?_cons_some hb with ⟨_, other, n, hobj, rfl, hn, hb⟩ | ⟨_, hobj, _⟩
            · cases hobj
              have hsame := field_unique hd (mem_of_field? hm) (mem_of_field? hn)
                (mem_columns_of_at? ha) (mem_columns_of_at? hb)
              cases hsame
              rw [ih (nodup_of_mem hd (mem_of_field? hm)) ha hb]
            · cases hobj
          · rcases at?_cons_some hb with ⟨_, _, _, harr, _⟩ | ⟨_, harr, rfl, hb⟩
            · cases harr
            · cases harr
              rw [columns] at hd
              rw [ih hd ha hb]

/-- The first step by place fits the shape that it starts from. -/
theorem along?_cons_some {node last : Node} {step : Step} {steps : List Step} {way : Way}
    (h : node.along? (step :: steps) = some (way, last)) :
    (∃ fields index name next rest, node = .object fields ∧ step = .member index ∧
      fields[index]? = some (name, next) ∧ next.along? steps = some (rest, last) ∧
      way = .member name :: rest) ∨
    (∃ element rest, node = .array element ∧ step = .element ∧
      element.along? steps = some (rest, last) ∧ way = .element :: rest) := by
  cases node with
  | leaf column type => cases step <;> simp only [along?, reduceCtorEq] at h
  | object fields =>
      cases step with
      | element => simp only [along?, reduceCtorEq] at h
      | member index =>
          simp only [along?] at h
          split at h
          · simp only [reduceCtorEq] at h
          · next name next hf =>
            rw [Option.map_eq_some_iff] at h
            rcases h with ⟨⟨rest, m⟩, h, he⟩
            rw [Prod.mk.injEq] at he
            rcases he with ⟨rfl, rfl⟩
            exact Or.inl ⟨fields, index, name, next, rest, rfl, rfl, hf, h, rfl⟩
  | array element =>
      cases step with
      | member index => simp only [along?, reduceCtorEq] at h
      | element =>
          simp only [along?, Option.map_eq_some_iff] at h
          rcases h with ⟨⟨rest, m⟩, h, he⟩
          rw [Prod.mk.injEq] at he
          rcases he with ⟨rfl, rfl⟩
          exact Or.inr ⟨element, rest, rfl, rfl, h, rfl⟩

theorem along?_nil (node : Node) : node.along? [] = some ([], node) := by
  cases node <;> rfl

theorem along?_nil_some {node last : Node} {way : Way} (h : node.along? [] = some (way, last)) :
    way = [] ∧ last = node := by
  cases node <;>
  · simp only [along?, Option.some.injEq, Prod.mk.injEq] at h
    exact ⟨h.1.symm, h.2.symm⟩

theorem mem_columns_of_along? {node : Node} {steps : List Step} {way : Way} {column : Nat}
    {type : DataType} (h : node.along? steps = some (way, .leaf column type)) :
    column ∈ node.columns := by
  induction steps generalizing node way with
  | nil =>
      rcases along?_nil_some h with ⟨rfl, rfl⟩
      exact List.mem_singleton_self column
  | cons step steps ih =>
      rcases along?_cons_some h with
        ⟨fields, index, name, next, rest, rfl, rfl, hf, hr, rfl⟩ |
        ⟨element, rest, rfl, rfl, hr, rfl⟩
      · exact mem_columnsOf.mpr ⟨_, List.mem_of_getElem? hf, ih hr⟩
      · rw [columns]
        exact ih hr

/-- The way that places of fields stand for leads to the same shape. -/
theorem at?_of_along? {node last : Node} (hu : node.NamesUnique) {steps : List Step} {way : Way}
    (h : node.along? steps = some (way, last)) : node.at? way = some last := by
  induction steps generalizing node way with
  | nil =>
      rcases along?_nil_some h with ⟨rfl, rfl⟩
      exact at?_nil _
  | cons step steps ih =>
      rcases along?_cons_some h with
        ⟨fields, index, name, next, rest, rfl, rfl, hf, hr, rfl⟩ |
        ⟨element, rest, rfl, rfl, hr, rfl⟩
      · have hmem := List.mem_of_getElem? hf
        rw [at?_member, field?_of_mem hu.1 hmem]
        exact ih (namesUniqueOf_iff.mp hu.2 _ hmem) hr
      · rw [at?_element]
        exact ih (by simpa only [NamesUnique] using hu) hr

/-- A way by names is one by the places where the names are found. -/
theorem exists_along? {node last : Node} {way : Way} (h : node.at? way = some last) :
    ∃ steps, node.along? steps = some (way, last) := by
  induction way generalizing node with
  | nil =>
      rw [at?_nil, Option.some.injEq] at h
      exact ⟨[], by cases node <;> simp only [along?, h]⟩
  | cons hop way ih =>
      rcases at?_cons_some h with ⟨fields, name, next, rfl, rfl, hf, hr⟩ | ⟨element, rfl, rfl, hr⟩
      · rcases ih hr with ⟨steps, hsteps⟩
        rcases List.getElem?_of_mem (mem_of_field? hf) with ⟨index, hindex⟩
        exact ⟨.member index :: steps, by simp only [along?, hindex, hsteps, Option.map_some]⟩
      · rcases ih hr with ⟨steps, hsteps⟩
        exact ⟨.element :: steps, by simp only [along?, hsteps, Option.map_some]⟩

/-- Places and names take as many steps, and as many of them into arrays. -/
theorem along?_measure {node last : Node} {steps : List Step} {way : Way}
    (h : node.along? steps = some (way, last)) :
    way.length = steps.length ∧ way.elements = Step.elements steps := by
  induction steps generalizing node way with
  | nil =>
      rcases along?_nil_some h with ⟨rfl, rfl⟩
      exact ⟨rfl, rfl⟩
  | cons step steps ih =>
      rcases along?_cons_some h with
        ⟨fields, index, name, next, rest, rfl, rfl, hf, hr, rfl⟩ |
        ⟨element, rest, rfl, rfl, hr, rfl⟩
      · have hrest := ih hr
        refine ⟨by simp only [List.length_cons, hrest.1], ?_⟩
        rw [Way.elements_member, Step.elements_member, hrest.2]
      · have hrest := ih hr
        refine ⟨by simp only [List.length_cons, hrest.1], ?_⟩
        rw [Way.elements_element, Step.elements_element, hrest.2]

/-- The first steps stand for the first names. -/
theorem along?_take {node last : Node} {steps : List Step} {way : Way}
    (h : node.along? steps = some (way, last)) (depth : Nat) :
    ∃ part, node.along? (steps.take depth) = some (way.take depth, part) := by
  induction depth generalizing node steps way with
  | zero => exact ⟨node, by cases node <;> rfl⟩
  | succ depth ih =>
      cases steps with
      | nil =>
          rcases along?_nil_some h with ⟨rfl, rfl⟩
          exact ⟨_, h⟩
      | cons step steps =>
          rcases along?_cons_some h with
            ⟨fields, index, name, next, rest, rfl, rfl, hf, hr, rfl⟩ |
            ⟨element, rest, rfl, rfl, hr, rfl⟩
          · rcases ih hr with ⟨part, hpart⟩
            refine ⟨part, ?_⟩
            rw [List.take_succ_cons, List.take_succ_cons]
            simp only [along?, hf, hpart, Option.map_some]
          · rcases ih hr with ⟨part, hpart⟩
            refine ⟨part, ?_⟩
            rw [List.take_succ_cons, List.take_succ_cons]
            simp only [along?, hpart, Option.map_some]

/-- A step by name is one into a field. -/
theorem along?_getElem?_member {node last : Node} {steps : List Step} {way : Way}
    (h : node.along? steps = some (way, last)) {i : Nat} {name : String}
    (hi : way[i]? = some (.member name)) : ∃ index, steps[i]? = some (.member index) := by
  induction i generalizing node steps way with
  | zero =>
      cases steps with
      | nil =>
          rcases along?_nil_some h with ⟨rfl, rfl⟩
          cases hi
      | cons step steps =>
          rcases along?_cons_some h with ⟨fields, index, n, next, rest, rfl, rfl, hf, hr, rfl⟩ |
            ⟨element, rest, rfl, rfl, hr, rfl⟩
          · exact ⟨index, rfl⟩
          · cases hi
  | succ i ih =>
      cases steps with
      | nil =>
          rcases along?_nil_some h with ⟨rfl, rfl⟩
          cases hi
      | cons step steps =>
          rcases along?_cons_some h with ⟨fields, index, n, next, rest, rfl, rfl, hf, hr, rfl⟩ |
            ⟨element, rest, rfl, rfl, hr, rfl⟩
          · exact ih hr hi
          · exact ih hr hi

end Node

end Schema

namespace Projection

open Schema (Node)

/-- The columns at and below a shape are those of its leaves, in order. -/
theorem map_column_columnsBelow (node : Node) (path : String) (steps : List Step) :
    (columnsBelow node path steps).map (·.column) = node.columns := by
  induction node using Node.inductionOn generalizing path steps with
  | leaf column type => rfl
  | array element ih =>
      rw [columnsBelow, Node.columns]
      exact ih path (steps ++ [Step.element])
  | object fields ih =>
      rw [columnsBelow, Node.columns]
      have hfields : ∀ index, (columnsOfFields fields path steps index).map (·.column) =
          Node.columnsOf fields := by
        induction fields with
        | nil => intro index; rfl
        | cons f rest ihrest =>
            intro index
            obtain ⟨name, node⟩ := f
            rw [columnsOfFields, List.map_append, Node.columnsOf,
              ih _ List.mem_cons_self, ihrest fun f hf => ih f (List.mem_cons_of_mem _ hf)]
      exact hfields 0

/-- A column of a shape is a leaf at the end of its steps, and looks nowhere else
    for its shape yet. -/
theorem mem_columnsBelow {node : Node} {path : String} {steps : List Step} {c : ProjectedColumn}
    (h : c ∈ columnsBelow node path steps) :
    ∃ further way, c.steps = steps ++ further ∧
      node.along? further = some (way, .leaf c.column c.type) ∧ c.shapeSources = [] := by
  induction node using Node.inductionOn generalizing path steps with
  | leaf column type =>
      rw [columnsBelow, List.mem_singleton] at h
      subst h
      exact ⟨[], [], (List.append_nil _).symm, rfl, rfl⟩
  | array element ih =>
      rw [columnsBelow] at h
      obtain ⟨further, way, hs, hw, hc⟩ := ih h
      refine ⟨.element :: further, .element :: way, ?_, ?_, hc⟩
      · rw [hs, List.append_assoc, List.singleton_append]
      · simp only [Node.along?, hw, Option.map_some]
  | object fields ih =>
      rw [columnsBelow] at h
      have hfields : ∀ (before rest : List (String × Node)), before ++ rest = fields →
          c ∈ columnsOfFields rest path steps before.length →
          ∃ further way, c.steps = steps ++ further ∧
            (Node.object fields).along? further = some (way, .leaf c.column c.type) ∧
            c.shapeSources = [] := by
        intro before rest
        induction rest generalizing before with
        | nil => intro _ h; simp only [columnsOfFields, List.not_mem_nil] at h
        | cons f rest ihrest =>
            obtain ⟨name, node⟩ := f
            intro happ h
            have hget : fields[before.length]? = some (name, node) := by
              rw [← happ, List.getElem?_append_right (Nat.le_refl _), Nat.sub_self]
              rfl
            rw [columnsOfFields, List.mem_append] at h
            rcases h with h | h
            · obtain ⟨further, way, hs, hw, hc⟩ := ih _ (List.mem_of_getElem? hget) h
              refine ⟨.member before.length :: further, .member name :: way, ?_, ?_, hc⟩
              · rw [hs, List.append_assoc, List.singleton_append]
              · simp only [Node.along?, hget, hw, Option.map_some]
            · refine ihrest (before ++ [(name, node)]) ?_ ?_
              · rw [List.append_assoc, List.singleton_append, happ]
              · rw [List.length_append, List.length_singleton]
                exact h
      exact hfields [] fields rfl h

end Projection

end NestedColumns

import NestedColumns.Proofs.Projection.Columns
import NestedColumns.Proofs.Projection.Pruning

/-!
# Walks by names and by places

A path names fields, and a selection is built on their places. In a schema without equal
names in one object both are the same: one walk goes at least as far as another by its
places exactly if it does by its names. Elements of arrays have neither.

What is kept of a shape is stated by places, and said here by ways: which leaves and which
objects it has, and that it depends on no other places than those of the shape.

## Main definitions

* `Step.members`: The places of steps.
* `Schema.Node.Closed`: What is on the way to what is kept is kept.

## Theorems

* `Schema.field?_eq_some_iff`: The field of a name, by its place.
* `Schema.Node.at?_object_some`, `Schema.Node.along?_object_some`: Ways from an object, with
  their like for arrays and leaves.
* `Schema.Node.exists_along?_of_objectFields?`, `Schema.Node.exists_objectFields?`: Arrays
  change nothing about names and places.
* `Schema.Node.members_prefix_iff`: Places and names of walks compare alike.
* `Schema.Node.members_eq_of_leaf`, `Schema.Node.way_eq_of_leaf`: Nothing is beyond a leaf.
* `Schema.Node.keepOnly_leaf`, `Schema.Node.keepOnly_object`: The leaves and the objects of
  what is kept.
* `Schema.Node.keepOnly_congr`: What is kept depends only on the places that the shape has.
-/

namespace NestedColumns

/-- The places on the way of steps. Elements have none. -/
def Step.members (steps : List Step) : List Nat :=
  steps.filterMap fun
    | .member index => some index
    | .element => none

namespace Step

@[simp] theorem members_nil : members [] = [] := rfl

@[simp] theorem members_member (index : Nat) (steps : List Step) :
    members (.member index :: steps) = index :: members steps := rfl

@[simp] theorem members_element (steps : List Step) :
    members (.element :: steps) = members steps := rfl

end Step

namespace Schema

variable {fields : List (String × Node)} {name : String} {node : Node}

/-- The field of a name is at the first place that has the name. -/
theorem field?_eq_some_iff :
    field? fields name = some node ↔
      ∃ index, fields.findIdx? (·.1 = name) = some index ∧ fields[index]? = some (name, node) := by
  induction fields with
  | nil => simp [field?_nil]
  | cons f rest ih =>
      rcases f with ⟨n, a⟩
      rw [field?_cons, List.findIdx?_cons]
      by_cases hn : n = name
      · simp [hn]
      · simp [hn, ih, Option.map_eq_some_iff]

namespace Node

variable {last : Node} {way : Way} {steps : List Step}

/-! ### Ways from each kind of shape -/

theorem at?_leaf_some {column : Nat} {type : DataType} :
    (leaf column type).at? way = some last ↔ way = [] ∧ last = leaf column type := by
  cases way with
  | nil => simp only [at?_nil, Option.some.injEq, true_and, eq_comm]
  | cons hop way => cases hop <;> simp only [at?, reduceCtorEq, false_and]

theorem at?_array_some {element : Node} :
    (array element).at? way = some last ↔ (way = [] ∧ last = array element) ∨
      ∃ rest, way = .element :: rest ∧ element.at? rest = some last := by
  constructor
  · intro h
    cases way with
    | nil => exact Or.inl ⟨rfl, by rw [at?_nil, Option.some.injEq] at h; exact h.symm⟩
    | cons hop rest =>
        rcases at?_cons_some h with ⟨_, _, _, harr, -⟩ | ⟨_, harr, rfl, hrest⟩
        · cases harr
        · cases harr
          exact Or.inr ⟨rest, rfl, hrest⟩
  · rintro (⟨rfl, rfl⟩ | ⟨rest, rfl, hrest⟩)
    · exact at?_nil _
    · exact hrest

theorem at?_object_some :
    (object fields).at? way = some last ↔ (way = [] ∧ last = object fields) ∨
      ∃ name rest next, way = .member name :: rest ∧ field? fields name = some next ∧
        next.at? rest = some last := by
  constructor
  · intro h
    cases way with
    | nil => exact Or.inl ⟨rfl, by rw [at?_nil, Option.some.injEq] at h; exact h.symm⟩
    | cons hop rest =>
        rcases at?_cons_some h with ⟨_, name, next, hobj, rfl, hf, hrest⟩ | ⟨_, hobj, -⟩
        · cases hobj
          exact Or.inr ⟨name, rest, next, rfl, hf, hrest⟩
        · cases hobj
  · rintro (⟨rfl, rfl⟩ | ⟨name, rest, next, rfl, hf, hrest⟩)
    · exact at?_nil _
    · rw [at?_member, hf, Option.bind_some, hrest]

theorem along?_leaf_some {column : Nat} {type : DataType} :
    (leaf column type).along? steps = some (way, last) ↔
      steps = [] ∧ way = [] ∧ last = leaf column type := by
  cases steps with
  | nil => simp only [along?, Option.some.injEq, Prod.mk.injEq, true_and, eq_comm]
  | cons step steps => cases step <;> simp only [along?, reduceCtorEq, false_and]

theorem along?_array_some {element : Node} :
    (array element).along? steps = some (way, last) ↔
      (steps = [] ∧ way = [] ∧ last = array element) ∨ ∃ rest way', steps = .element :: rest ∧
        way = .element :: way' ∧ element.along? rest = some (way', last) := by
  constructor
  · intro h
    cases steps with
    | nil => exact Or.inl ⟨rfl, along?_nil_some h⟩
    | cons step rest =>
        rcases along?_cons_some h with ⟨_, _, _, _, _, harr, -⟩ | ⟨_, way', harr, rfl, hr, rfl⟩
        · cases harr
        · cases harr
          exact Or.inr ⟨rest, way', rfl, rfl, hr⟩
  · rintro (⟨rfl, rfl, rfl⟩ | ⟨rest, way', rfl, rfl, hr⟩)
    · rfl
    · simp only [along?, hr, Option.map_some]

theorem along?_object_some :
    (object fields).along? steps = some (way, last) ↔
      (steps = [] ∧ way = [] ∧ last = object fields) ∨ ∃ index name next rest way',
        steps = .member index :: rest ∧ way = .member name :: way' ∧
        fields[index]? = some (name, next) ∧ next.along? rest = some (way', last) := by
  constructor
  · intro h
    cases steps with
    | nil => exact Or.inl ⟨rfl, along?_nil_some h⟩
    | cons step rest =>
        rcases along?_cons_some h with
          ⟨_, index, name, next, way', hobj, rfl, hf, hr, rfl⟩ | ⟨_, _, hobj, -⟩
        · cases hobj
          exact Or.inr ⟨index, name, next, rest, way', rfl, rfl, hf, hr⟩
        · cases hobj
  · rintro (⟨rfl, rfl, rfl⟩ | ⟨index, name, next, rest, way', rfl, rfl, hf, hr⟩)
    · rfl
    · simp only [along?, hf, hr, Option.map_some]

/-! ### Through arrays -/

/-- The object reached through arrays has its fields where its names are met. -/
theorem exists_along?_of_objectFields? {inner : List (String × Node)}
    (ho : node.objectFields? = some inner) (h : (object inner).along? steps = some (way, last)) :
    ∃ steps' way', node.along? steps' = some (way', last) ∧ way'.names = way.names ∧
      Step.members steps' = Step.members steps := by
  induction node using inductionOn with
  | leaf column type => simp only [objectFields?, reduceCtorEq] at ho
  | object fields _ =>
      rw [objectFields?, Option.some.injEq] at ho
      subst ho
      exact ⟨steps, way, h, rfl, rfl⟩
  | array element ih =>
      rcases ih ho with ⟨steps', way', hsteps, hnames, hmembers⟩
      exact ⟨.element :: steps', .element :: way',
        along?_array_some.mpr (Or.inr ⟨steps', way', rfl, rfl, hsteps⟩), hnames, hmembers⟩

/-- Names that are met below a shape are met from the object reached through arrays. -/
theorem exists_objectFields? (h : node.at? way = some last) (hn : way.names ≠ []) :
    ∃ inner way', node.objectFields? = some inner ∧ (object inner).at? way' = some last ∧
      way'.names = way.names := by
  induction node using inductionOn generalizing way with
  | leaf column type =>
      rw [(at?_leaf_some.mp h).1] at hn
      exact absurd rfl hn
  | object fields _ => exact ⟨fields, way, rfl, h, rfl⟩
  | array element ih =>
      rcases at?_array_some.mp h with ⟨rfl, -⟩ | ⟨rest, rfl, hrest⟩
      · exact absurd rfl hn
      · rw [Way.names_element] at hn ⊢
        exact ih hrest hn

/-! ### Walks -/

theorem length_members (h : node.along? steps = some (way, last)) :
    (Step.members steps).length = way.names.length := by
  induction steps generalizing node way with
  | nil =>
      rcases along?_nil_some h with ⟨rfl, rfl⟩
      rfl
  | cons step steps ih =>
      rcases along?_cons_some h with ⟨fields, index, name, next, rest, rfl, rfl, hf, hr, rfl⟩ |
        ⟨element, rest, rfl, rfl, hr, rfl⟩
      · rw [Step.members_member, Way.names_member, List.length_cons, List.length_cons, ih hr]
      · rw [Step.members_element, Way.names_element, ih hr]

/-- One walk goes at least as far as another by its places exactly if it does by its names. -/
theorem members_prefix_iff {last' : Node} {way' : Way} {steps' : List Step}
    (hu : node.NamesUnique) (h : node.along? steps = some (way, last))
    (h' : node.along? steps' = some (way', last')) :
    Step.members steps <+: Step.members steps' ↔ way.names <+: way'.names := by
  induction steps generalizing node way way' steps' with
  | nil =>
      rcases along?_nil_some h with ⟨rfl, rfl⟩
      simp only [Step.members_nil, Way.names_nil, List.nil_prefix]
  | cons step steps ih =>
      cases steps' with
      | nil =>
          rcases along?_nil_some h' with ⟨rfl, rfl⟩
          rw [Step.members_nil, Way.names_nil, List.prefix_nil, List.prefix_nil,
            ← List.length_eq_zero_iff, ← List.length_eq_zero_iff, length_members h]
      | cons step' steps' =>
          rcases along?_cons_some h with ⟨fields, i, name, next, rest, rfl, rfl, hi, hr, rfl⟩ |
            ⟨element, rest, rfl, rfl, hr, rfl⟩
          · rcases along?_cons_some h' with
              ⟨fields', j, name', next', rest', hobj, rfl, hj, hr', rfl⟩ | ⟨_, _, hobj, -⟩
            · cases hobj
              simp only [Step.members_member, Way.names_member, List.cons_prefix_cons]
              rw [← Projection.place_eq_iff hu.1 hi hj]
              refine and_congr_right fun hij => ?_
              subst hij
              rw [hi, Option.some.injEq, Prod.mk.injEq] at hj
              rcases hj with ⟨rfl, rfl⟩
              exact ih (namesUniqueOf_iff.mp hu.2 _ (List.mem_of_getElem? hi)) hr hr'
            · cases hobj
          · rcases along?_cons_some h' with ⟨_, _, _, _, _, hobj, -⟩ |
              ⟨element', rest', hobj, rfl, hr', rfl⟩
            · cases hobj
            · cases hobj
              have helement : element.NamesUnique := hu
              simp only [Step.members_element, Way.names_element]
              exact ih helement hr hr'

/-- Nothing is beyond a leaf. -/
theorem members_eq_of_leaf {last' : Node} {way' : Way} {steps' : List Step} {column : Nat}
    {type : DataType} (h : node.along? steps = some (way, .leaf column type))
    (h' : node.along? steps' = some (way', last'))
    (hp : Step.members steps <+: Step.members steps') :
    Step.members steps' = Step.members steps := by
  induction node using inductionOn generalizing way way' steps steps' with
  | leaf c t => rw [(along?_leaf_some.mp h).1, (along?_leaf_some.mp h').1]
  | array element ih =>
      simp only [along?_array_some, reduceCtorEq, and_false, false_or] at h
      rcases h with ⟨rest, way, rfl, rfl, hr⟩
      rcases along?_array_some.mp h' with ⟨rfl, -, -⟩ | ⟨rest', way', rfl, rfl, hr'⟩
      · exact (List.prefix_nil.mp hp).symm
      · rw [Step.members_element, Step.members_element] at hp ⊢
        exact ih hr hr' hp
  | object fields ih =>
      simp only [along?_object_some, reduceCtorEq, and_false, false_or] at h
      rcases h with ⟨i, name, next, rest, way, rfl, rfl, hi, hr⟩
      rcases along?_object_some.mp h' with
        ⟨rfl, -, -⟩ | ⟨j, name', next', rest', way', rfl, rfl, hj, hr'⟩
      · exact (List.prefix_nil.mp hp).symm
      · simp only [Step.members_member, List.cons_prefix_cons] at hp ⊢
        rcases hp with ⟨rfl, hp⟩
        rw [hi, Option.some.injEq, Prod.mk.injEq] at hj
        rcases hj with ⟨rfl, rfl⟩
        rw [ih _ (List.mem_of_getElem? hi) hr hr' hp]

/-- A leaf is not below another one. -/
theorem way_eq_of_leaf {way' : Way} {column column' : Nat} {type type' : DataType}
    (h : node.at? way = some (.leaf column type)) (h' : node.at? way' = some (.leaf column' type'))
    (hp : way.names <+: way'.names) : way' = way := by
  induction node using inductionOn generalizing way way' with
  | leaf c t => rw [(at?_leaf_some.mp h).1, (at?_leaf_some.mp h').1]
  | array element ih =>
      simp only [at?_array_some, reduceCtorEq, and_false, false_or] at h h'
      rcases h with ⟨rest, rfl, hrest⟩
      rcases h' with ⟨rest', rfl, hrest'⟩
      rw [ih hrest hrest' hp]
  | object fields ih =>
      simp only [at?_object_some, reduceCtorEq, and_false, false_or] at h h'
      rcases h with ⟨name, rest, next, rfl, hf, hrest⟩
      rcases h' with ⟨name', rest', next', rfl, hf', hrest'⟩
      rw [Way.names_member, Way.names_member, List.cons_prefix_cons] at hp
      rcases hp with ⟨rfl, hp⟩
      rw [hf, Option.some.injEq] at hf'
      subst hf'
      rw [ih _ (mem_of_field? hf) hrest hrest' hp]

/-! ### What is kept -/

/-- If a field is kept, so are those on the way to it. -/
def Closed (keep : List Nat → Bool) : Prop :=
  ∀ places more, keep (places ++ more) = true → keep places = true

theorem field?_keepFields {keep : List Nat → Bool} (hd : (fields.map (·.1)).Nodup) {part : Node} :
    field? (keepFields keep 0 fields) name = some part ↔ ∃ i whole,
      fields[i]? = some (name, whole) ∧ keep [i] = true ∧
        part = whole.keepOnly fun places => keep (i :: places) := by
  have hkept := hd.sublist (names_keepFields keep 0 fields)
  constructor
  · intro h
    simpa only [Nat.zero_add] using mem_keepFields.mp (mem_of_field? h)
  · rintro ⟨i, whole, hi, hk, rfl⟩
    refine field?_of_mem hkept (mem_keepFields.mpr ⟨i, whole, hi, ?_, ?_⟩)
    · rw [Nat.zero_add]
      exact hk
    · rw [Nat.zero_add]

/-- The leaves of what is kept are the leaves that are kept. -/
theorem keepOnly_leaf (hu : node.NamesUnique) {keep : List Nat → Bool} (hc : Closed keep)
    {column : Nat} {type : DataType} :
    (node.keepOnly keep).at? way = some (.leaf column type) ↔
      ∃ steps, node.along? steps = some (way, .leaf column type) ∧
        (Step.members steps = [] ∨ keep (Step.members steps) = true) := by
  induction node using inductionOn generalizing keep way with
  | leaf c t =>
      rw [keepOnly, at?_leaf_some]
      constructor
      · exact fun h => ⟨[], along?_leaf_some.mpr ⟨rfl, h⟩, Or.inl rfl⟩
      · rintro ⟨steps, h, -⟩
        exact (along?_leaf_some.mp h).2
  | array element ih =>
      simp only [keepOnly, at?_array_some, along?_array_some, reduceCtorEq, and_false, false_or]
      constructor
      · rintro ⟨rest, rfl, hrest⟩
        rcases (ih hu hc).mp hrest with ⟨steps, hsteps, hkeep⟩
        exact ⟨_, ⟨steps, rest, rfl, rfl, hsteps⟩, hkeep⟩
      · rintro ⟨_, ⟨steps, rest, rfl, rfl, hsteps⟩, hkeep⟩
        exact ⟨rest, rfl, (ih hu hc).mpr ⟨steps, hsteps, hkeep⟩⟩
  | object fields ih =>
      have hbelow : ∀ i, Closed fun places => keep (i :: places) :=
        fun i places more h => hc (i :: places) more h
      have hpart : ∀ {f}, f ∈ fields → f.2.NamesUnique := fun hm =>
        namesUniqueOf_iff.mp hu.2 _ hm
      simp only [keepOnly, at?_object_some, along?_object_some, field?_keepFields hu.1,
        reduceCtorEq, and_false, false_or]
      constructor
      · rintro ⟨name, rest, _, rfl, ⟨i, whole, hi, hk, rfl⟩, hrest⟩
        have hm := List.mem_of_getElem? hi
        rcases (ih _ hm (hpart hm) (hbelow i)).mp hrest with ⟨steps, hsteps, hkeep⟩
        refine ⟨_, ⟨i, name, whole, steps, rest, rfl, rfl, hi, hsteps⟩, Or.inr ?_⟩
        rcases hkeep with hkeep | hkeep
        · rw [Step.members_member, hkeep]
          exact hk
        · exact hkeep
      · rintro ⟨_, ⟨i, name, whole, steps, rest, rfl, rfl, hi, hsteps⟩, hkeep⟩
        have hm := List.mem_of_getElem? hi
        have hkept := hkeep.resolve_left (List.cons_ne_nil _ _)
        exact ⟨name, rest, _, rfl, ⟨i, whole, hi, hc [i] _ hkept, rfl⟩,
          (ih _ hm (hpart hm) (hbelow i)).mpr ⟨steps, hsteps, Or.inr hkept⟩⟩

/-- The objects of what is kept have fields of the objects that they come from, in order. -/
theorem keepOnly_object (hu : node.NamesUnique) {keep : List Nat → Bool}
    {kept : List (String × Node)} (h : (node.keepOnly keep).at? way = some (.object kept)) :
    ∃ whole, node.at? way = some (.object whole) ∧
      (kept.map (·.1)).Sublist (whole.map (·.1)) := by
  induction node using inductionOn generalizing keep way with
  | leaf c t =>
      rw [keepOnly, at?_leaf_some] at h
      cases h.2
  | array element ih =>
      simp only [keepOnly, at?_array_some, reduceCtorEq, and_false, false_or] at h
      rcases h with ⟨rest, rfl, hrest⟩
      exact ih hu hrest
  | object fields ih =>
      rw [keepOnly, at?_object_some, object.injEq] at h
      rcases h with ⟨rfl, rfl⟩ | ⟨name, rest, part, rfl, hf, hrest⟩
      · exact ⟨fields, at?_nil _, names_keepFields keep 0 fields⟩
      · rcases (field?_keepFields hu.1).mp hf with ⟨i, whole, hi, -, rfl⟩
        have hm := List.mem_of_getElem? hi
        rcases ih _ hm (namesUniqueOf_iff.mp hu.2 _ hm) hrest with ⟨all, hall, hsub⟩
        exact ⟨all, at?_object_some.mpr (Or.inr ⟨name, rest, whole, rfl, field?_of_mem hu.1 hm,
          hall⟩), hsub⟩

theorem keepFields_congr {keep keep' : List Nat → Bool} {index : Nat}
    (h : ∀ i name node, fields[i]? = some (name, node) →
      keep [index + i] = keep' [index + i] ∧
        node.keepOnly (fun places => keep ((index + i) :: places)) =
          node.keepOnly fun places => keep' ((index + i) :: places)) :
    keepFields keep index fields = keepFields keep' index fields := by
  induction fields generalizing index with
  | nil => rfl
  | cons f rest ih =>
      rcases f with ⟨name, node⟩
      have hfirst := h 0 name node rfl
      rw [Nat.add_zero] at hfirst
      have hrest : keepFields keep (index + 1) rest = keepFields keep' (index + 1) rest := by
        refine ih fun i name node hi => ?_
        rw [Nat.add_right_comm]
        exact h (i + 1) name node hi
      rw [keepFields, keepFields, hfirst.1, hfirst.2, hrest]

/-- What is kept depends only on the places that the shape has. -/
theorem keepOnly_congr {keep keep' : List Nat → Bool}
    (h : ∀ steps way last, node.along? steps = some (way, last) →
      keep (Step.members steps) = keep' (Step.members steps)) :
    node.keepOnly keep = node.keepOnly keep' := by
  induction node using inductionOn generalizing keep keep' with
  | leaf column type => rfl
  | array element ih =>
      rw [keepOnly, keepOnly, ih fun steps way last hs => h (.element :: steps) _ last
        (along?_array_some.mpr (Or.inr ⟨steps, way, rfl, rfl, hs⟩))]
  | object fields ih =>
      refine congrArg object (keepFields_congr fun i name node hi => ?_)
      rw [Nat.zero_add]
      have hbelow : ∀ steps way last, node.along? steps = some (way, last) →
          keep (i :: Step.members steps) = keep' (i :: Step.members steps) :=
        fun steps way last hs => h (.member i :: steps) _ last
          (along?_object_some.mpr (Or.inr ⟨i, name, node, steps, way, rfl, rfl, hi, hs⟩))
      exact ⟨hbelow [] [] node (along?_nil node), ih _ (List.mem_of_getElem? hi) hbelow⟩

end Node

end Schema

end NestedColumns

import NestedColumns.Proofs.Json.Values
import NestedColumns.Proofs.Outcome
import NestedColumns.Proofs.Schema.Growth
import NestedColumns.Schema.Merge

/-!
# Merging grows a schema

What a merge does to a shape is said once, by `Schema.Node.Extends`: the shape
grows, names stay unique, and the columns that are new are numbered from the
next number on, each once. Merging in two steps extends in one, and a field that
is extended or new extends its object. So the law holds for every value, by
induction over it, whatever the order in which parts are visited.

From the empty schema only sound schemas are reached, and each has grown out of
those before.

## Main definitions

* `Schema.Node.Extends`: What a merge does to a shape.
* `Schema.Node.Fresh`: A shape whose columns are all new.
* `Schema.Sound`: Names are unique, and columns are below the next number.
* `Schema.Reaches`: Schemas before and after merging documents.

## Theorems

* `Schema.merges`: A merge extends a shape, and infers a fresh one.
* `Schema.merge_extends`: A document extends the fields of a schema.
* `Schema.Sound.merge`: A merge keeps a schema sound.
* `Schema.Reaches.grows`: A schema that is reached has grown.
-/

namespace NestedColumns

namespace Schema

namespace Node

/-- What a merge does to a shape that is `depth` steps from the document, when the
    number of the next column goes from `n` to `n'`. -/
structure Extends (limit depth n n' : Nat) (node node' : Node) : Prop where
  next : n ≤ n'
  grows : GrowsTo n node node'
  names : node.NamesUnique → node'.NamesUnique
  within : ∀ column ∈ node'.columns, column ∈ node.columns ∨ n ≤ column ∧ column < n'
  distinct : node.columns.Nodup → (∀ column ∈ node.columns, column < n) → node'.columns.Nodup
  height : depth + node'.height ≤ max limit (depth + node.height)

/-- A shape whose columns were all given their numbers between `n` and `n'`. -/
structure Fresh (limit depth n n' : Nat) (node : Node) : Prop where
  next : n ≤ n'
  names : node.NamesUnique
  within : ∀ column ∈ node.columns, n ≤ column ∧ column < n'
  distinct : node.columns.Nodup
  height : depth + node.height ≤ limit

variable {limit depth n n' n'' : Nat} {a b c : Node}

namespace Extends

theorem refl (limit depth n : Nat) (node : Node) : Extends limit depth n n node node :=
  ⟨Nat.le_refl n, growsTo_refl n node, id, fun _ hc => Or.inl hc, fun hd _ => hd,
    Nat.le_max_right ..⟩

/-- Giving numbers away changes nothing else. -/
theorem skip (h : n ≤ n') (node : Node) : Extends limit depth n n' node node :=
  ⟨h, growsTo_refl n node, id, fun _ hc => Or.inl hc, fun hd _ => hd, Nat.le_max_right ..⟩

theorem trans (h : Extends limit depth n n' a b) (h' : Extends limit depth n' n'' b c) :
    Extends limit depth n n'' a c where
  next := Nat.le_trans h.next h'.next
  grows := growsTo_trans h.next h.grows h'.grows
  names := h'.names ∘ h.names
  within := by
    intro column hc
    have hn := h.next
    have hn' := h'.next
    rcases h'.within column hc with hc | hc
    · rcases h.within column hc with hc | hc
      · exact Or.inl hc
      · exact Or.inr (by omega)
    · exact Or.inr (by omega)
  distinct := by
    intro hd hlt
    refine h'.distinct (h.distinct hd hlt) ?_
    intro column hc
    have hn := h.next
    rcases h.within column hc with hc | hc
    · have := hlt column hc
      omega
    · exact hc.2
  height := by
    have := h.height
    have := h'.height
    omega

/-- An array whose elements extend is extended. -/
theorem array (h : Extends limit (depth + 1) n n' a b) :
    Extends limit depth n n' (.array a) (.array b) where
  next := h.next
  grows := h.grows
  names := h.names
  within := h.within
  distinct := h.distinct
  height := by
    have := h.height
    rw [Node.height, Node.height]
    omega

end Extends

/-- A fresh shape that is extended is fresh still. -/
theorem Fresh.extend (h : Fresh limit depth n n' a) (h' : Extends limit depth n' n'' a b) :
    Fresh limit depth n n'' b where
  next := Nat.le_trans h.next h'.next
  names := h'.names h.names
  within := by
    intro column hc
    have hn := h.next
    have hn' := h'.next
    rcases h'.within column hc with hc | hc
    · have := h.within column hc
      omega
    · omega
  distinct := h'.distinct h.distinct fun column hc => (h.within column hc).2
  height := by
    have := h.height
    have := h'.height
    omega

/-- What is read after some numbers were given away is as fresh. -/
theorem Fresh.after (hle : n ≤ n') (h : Fresh limit depth n' n'' a) :
    Fresh limit depth n n'' a where
  next := Nat.le_trans hle h.next
  names := h.names
  within := by
    intro column hc
    have := h.within column hc
    omega
  distinct := h.distinct
  height := h.height

theorem Fresh.array (h : Fresh limit (depth + 1) n n' a) : Fresh limit depth n n' (.array a) where
  next := h.next
  names := h.names
  within := h.within
  distinct := h.distinct
  height := by
    have := h.height
    rw [Node.height]
    omega

/-- The leaf of the next number is fresh. -/
theorem Fresh.leaf (hd : depth ≤ limit) (n : Nat) (type : DataType) :
    Fresh limit depth n (n + 1) (.leaf n type) where
  next := Nat.le_succ n
  names := trivial
  within := by
    intro column hc
    rw [columns, List.mem_singleton] at hc
    omega
  distinct := List.nodup_singleton n
  height := hd

/-- The empty object is fresh, and so is what it is extended to. -/
theorem Extends.fresh {fields : List (String × Node)} (hd : depth ≤ limit)
    (h : Extends limit depth n n' (.object []) (.object fields)) :
    Fresh limit depth n n' (.object fields) where
  next := h.next
  names := h.names ⟨List.nodup_nil, trivial⟩
  within := by
    intro column hc
    rcases h.within column hc with hc | hc
    · simp only [columns, columnsOf, List.not_mem_nil] at hc
    · exact hc
  distinct := h.distinct List.nodup_nil (by
    intro column hc
    simp only [columns, columnsOf, List.not_mem_nil] at hc)
  height := by
    have hh := h.height
    simp only [Node.height, heightOf, Nat.add_zero] at hh
    rw [Node.height]
    omega

end Node

/-! ### Fields -/

theorem map_fst_setField (name : String) (node : Node) (fields : List (String × Node)) :
    (setField name node fields).map (·.1) = fields.map (·.1) := by
  induction fields with
  | nil => rfl
  | cons f rest ih =>
      obtain ⟨m, old⟩ := f
      simp only [setField]
      split
      · rfl
      · rw [List.map_cons, List.map_cons, ih]

/-- Setting a field splits its object in what is before, the field, and what is
    behind. -/
theorem setField_split {fields : List (String × Node)} {name : String} {old : Node}
    (h : field? fields name = some old) (node : Node) :
    ∃ before rest, fields = before ++ (name, old) :: rest ∧
      setField name node fields = before ++ (name, node) :: rest := by
  induction fields with
  | nil => simp only [field?_nil, reduceCtorEq] at h
  | cons f rest ih =>
      obtain ⟨m, first⟩ := f
      rw [field?_cons] at h
      by_cases hm : m = name
      · rw [if_pos hm, Option.some.injEq] at h
        refine ⟨[], rest, ?_, ?_⟩
        · rw [List.nil_append, hm, h]
        · rw [setField, if_pos hm, hm, List.nil_append]
      · rw [if_neg hm] at h
        obtain ⟨before, rest', he, hs⟩ := ih h
        refine ⟨(m, first) :: before, rest', ?_, ?_⟩
        · rw [he, List.cons_append]
        · rw [setField, if_neg hm, hs, List.cons_append]

theorem field?_setField {fields : List (String × Node)} {name : String} {old : Node}
    (h : field? fields name = some old) (node : Node) :
    field? (setField name node fields) name = some node := by
  induction fields with
  | nil => simp only [field?_nil, reduceCtorEq] at h
  | cons f rest ih =>
      rcases f with ⟨n, first⟩
      rw [field?_cons] at h
      by_cases hn : n = name
      · rw [setField, if_pos hn, field?_cons, if_pos hn]
      · rw [if_neg hn] at h
        rw [setField, if_neg hn, field?_cons, if_neg hn, ih h]

theorem field?_setField_of_ne {name other : String} (hne : other ≠ name) (node : Node)
    (fields : List (String × Node)) :
    field? (setField name node fields) other = field? fields other := by
  induction fields with
  | nil => rfl
  | cons f rest ih =>
      rcases f with ⟨n, first⟩
      rw [setField]
      by_cases hn : n = name
      · rw [if_pos hn, field?_cons, field?_cons, if_neg (hn ▸ hne.symm), if_neg (hn ▸ hne.symm)]
      · rw [if_neg hn, field?_cons, field?_cons, ih]

theorem field?_append {fields : List (String × Node)} {name : String}
    (h : field? fields name = none) (node : Node) :
    field? (fields ++ [(name, node)]) name = some node := by
  induction fields with
  | nil => rw [List.nil_append, field?_cons, if_pos rfl]
  | cons f rest ih =>
      rcases f with ⟨n, first⟩
      rw [field?_cons] at h
      by_cases hn : n = name
      · simp only [if_pos hn, reduceCtorEq] at h
      · rw [if_neg hn] at h
        rw [List.cons_append, field?_cons, if_neg hn, ih h]

theorem field?_append_of_ne {name other : String} (hne : other ≠ name) (node : Node)
    (fields : List (String × Node)) :
    field? (fields ++ [(name, node)]) other = field? fields other := by
  induction fields with
  | nil => rw [List.nil_append, field?_cons, if_neg hne.symm]
  | cons f rest ih =>
      rcases f with ⟨n, first⟩
      rw [List.cons_append, field?_cons, field?_cons, ih]

namespace Node

theorem growsToOf_append_same {bound : Nat} (before : List (String × Node))
    {a b : List (String × Node)} (h : GrowsToOf bound a b) :
    GrowsToOf bound (before ++ a) (before ++ b) := by
  induction before with
  | nil => exact h
  | cons f rest ih =>
      obtain ⟨name, node⟩ := f
      exact ⟨rfl, growsTo_refl bound node, ih⟩

theorem heightOf_append (a b : List (String × Node)) :
    heightOf (a ++ b) = max (heightOf a) (heightOf b) := by
  induction a with
  | nil => rw [List.nil_append, heightOf, Nat.zero_max]
  | cons f rest ih => rw [List.cons_append, heightOf, heightOf, ih, Nat.max_assoc]

variable {limit depth n n' : Nat} {fields : List (String × Node)} {name : String} {old node : Node}

/-- An object with a field that is extended is extended. -/
theorem Extends.setField (hf : field? fields name = some old)
    (h : Extends limit (depth + 1) n n' old node) :
    Extends limit depth n n' (.object fields) (.object (setField name node fields)) := by
  have hnames := map_fst_setField name node fields
  obtain ⟨before, rest, hfields, hset⟩ := setField_split hf node
  refine ⟨h.next, ?_, ?_, ?_, ?_, ?_⟩
  · rw [hset, hfields, GrowsTo]
    exact growsToOf_append_same before ⟨rfl, h.grows, growsToOf_refl n rest⟩
  · intro hu
    refine ⟨by rw [hnames]; exact hu.1, ?_⟩
    have hall := namesUniqueOf_iff.mp hu.2
    rw [hset, namesUniqueOf_iff]
    intro f hfm
    rcases List.mem_append.mp hfm with hb | hr
    · exact hall f (hfields ▸ List.mem_append_left _ hb)
    · rcases List.mem_cons.mp hr with rfl | hr
      · exact h.names (hall (name, old) (hfields ▸ List.mem_append_right _ List.mem_cons_self))
      · exact hall f (hfields ▸ List.mem_append_right _ (List.mem_cons_of_mem _ hr))
  · intro column hc
    rw [columns, hset, columnsOf_append, columnsOf] at hc
    rw [columns, hfields, columnsOf_append, columnsOf]
    simp only [List.mem_append] at hc ⊢
    rcases hc with hc | hc | hc
    · exact Or.inl (Or.inl hc)
    · exact (h.within column hc).imp_left fun hc => Or.inr (Or.inl hc)
    · exact Or.inl (Or.inr (Or.inr hc))
  · intro hd hlt
    rw [columns, hfields, columnsOf_append, columnsOf] at hd hlt
    rw [columns, hset, columnsOf_append, columnsOf]
    have hpart : ∀ column ∈ old.columns, column < n := fun column hc =>
      hlt column (List.mem_append_right _ (List.mem_append_left _ hc))
    -- New columns are above those of the other fields.
    have hapart : ∀ column ∈ node.columns, column ∉ columnsOf before ∧ column ∉ columnsOf rest := by
      intro column hc
      rw [List.nodup_append, List.nodup_append] at hd
      rcases h.within column hc with hold | hnew
      · exact ⟨fun hb => hd.2.2 column hb column (List.mem_append_left _ hold) rfl,
          fun hr => hd.2.1.2.2 column hold column hr rfl⟩
      · constructor
        · intro hb
          have := hlt column (List.mem_append_left _ hb)
          omega
        · intro hr
          have := hlt column (List.mem_append_right _ (List.mem_append_right _ hr))
          omega
    rw [List.nodup_append, List.nodup_append] at hd ⊢
    refine ⟨hd.1, ⟨h.distinct hd.2.1.1 hpart, hd.2.1.2.1, ?_⟩, ?_⟩
    · intro column hc other ho he
      exact (hapart column hc).2 (he ▸ ho)
    · intro column hb other ho he
      rcases List.mem_append.mp ho with ho | ho
      · exact (hapart other ho).1 (he ▸ hb)
      · exact hd.2.2 column hb other (List.mem_append_right _ ho) he
  · have := h.height
    rw [Node.height, Node.height, hset, hfields, heightOf_append, heightOf_append, heightOf,
      heightOf]
    omega

/-- An object with a fresh field at its end is extended. -/
theorem Extends.append (hf : field? fields name = none)
    (h : Fresh limit (depth + 1) n n' node) :
    Extends limit depth n n' (.object fields) (.object (fields ++ [(name, node)])) where
  next := h.next
  grows := by
    have hnew : GrowsToOf n [] [(name, node)] := by
      intro column hc
      rw [columnsOf, columnsOf, List.append_nil] at hc
      exact (h.within column hc).1
    have happ := growsToOf_append_same fields hnew
    rw [List.append_nil] at happ
    exact happ
  names := by
    intro hu
    refine ⟨?_, ?_⟩
    · rw [List.map_append, List.map_singleton, List.nodup_append]
      refine ⟨hu.1, List.nodup_singleton _, ?_⟩
      intro other ho m hm he
      rw [he, List.mem_singleton.mp hm] at ho
      exact field?_eq_none_iff.mp hf ho
    · have hall := namesUniqueOf_iff.mp hu.2
      rw [namesUniqueOf_iff]
      intro f hfm
      rcases List.mem_append.mp hfm with hfm | hfm
      · exact hall f hfm
      · rw [List.mem_singleton.mp hfm]
        exact h.names
  within := by
    intro column hc
    rw [columns, columnsOf_append, columnsOf, columnsOf, List.append_nil, List.mem_append] at hc
    exact hc.imp_right (h.within column)
  distinct := by
    intro hd hlt
    rw [columns, columnsOf_append, columnsOf, columnsOf, List.append_nil, List.nodup_append]
    refine ⟨hd, h.distinct, ?_⟩
    intro column hc other ho he
    have h₁ := hlt column hc
    have h₂ := h.within other ho
    omega
  height := by
    have := h.height
    rw [Node.height, Node.height, heightOf_append, heightOf, heightOf]
    omega

end Node

/-! ### Values -/

open Node (Extends Fresh)

/-- Merging a value extends a shape, and the shape it gives by itself is fresh. -/
structure Merges (v : Json) : Prop where
  merge : ∀ {options : MergeOptions} {path : List String} {depth : Nat} {node node' : Node}
    {growth growth' : Growth}, mergeNode options path depth node v growth = .ok (node', growth') →
    Extends options.maxLevel depth growth.nextColumn growth'.nextColumn node node'
  infer : ∀ {options : MergeOptions} {path : List String} {depth : Nat} {node? : Option Node}
    {growth growth' : Growth}, inferNode options path depth v growth = .ok (node?, growth') →
    growth.nextColumn ≤ growth'.nextColumn ∧
      ∀ node, node? = some node →
        Fresh options.maxLevel depth growth.nextColumn growth'.nextColumn node

/-- A column of floats takes whole numbers, so only the other way is widened. -/
theorem widen_of_refused {a b wider : DataType} (hn : ¬a.accepts b = true)
    (hw : a.widen b = some wider) : a = .integer ∧ wider = .float := by
  cases a <;> cases b <;>
    simp_all only [DataType.accepts, DataType.widen, reduceCtorEq, Option.some.injEq,
      not_true_eq_false, and_self]

section

variable {options : MergeOptions} {path : List String} {depth : Nat} {growth growth' : Growth}

/-- What merging a value can do to a shape. -/
theorem mergeNode_cases {v : Json} {node node' : Node}
    (h : mergeNode options path depth node v growth = .ok (node', growth')) :
    depth ≤ options.maxLevel ∧
      ((∃ fields fields' members, node = .object fields ∧ v = .object members ∧
          node' = .object fields' ∧
          mergeMembers options path depth fields members growth = .ok (fields', growth')) ∨
        (∃ element element' items, node = .array element ∧ v = .array items ∧
          node' = .array element' ∧
          mergeItems options path (depth + 1) element items growth = .ok (element', growth')) ∨
        ∃ column type, node = .leaf column type ∧
          mergeLeaf options.policy path column type v growth = .ok (node', growth')) := by
  rw [mergeNode.eq_def] at h
  split at h
  split at h
  · simp only [reduceCtorEq] at h
  · next hd =>
    refine ⟨Nat.le_of_not_lt hd, ?_⟩
    split at h
    · next fields members =>
      obtain ⟨⟨fields', growth₁⟩, hm, h⟩ := Outcome.bind_eq_ok.mp h
      simp only [pure, Except.pure, Except.ok.injEq, Prod.mk.injEq] at h
      rcases h with ⟨rfl, rfl⟩
      exact Or.inl ⟨fields, fields', members, rfl, rfl, rfl, hm⟩
    · next element items =>
      obtain ⟨⟨element', growth₁⟩, hm, h⟩ := Outcome.bind_eq_ok.mp h
      simp only [pure, Except.pure, Except.ok.injEq, Prod.mk.injEq] at h
      rcases h with ⟨rfl, rfl⟩
      exact Or.inr (Or.inl ⟨element, element', items, rfl, rfl, rfl, hm⟩)
    · next column type => exact Or.inr (Or.inr ⟨column, type, rfl, h⟩)
    · simp only [reduceCtorEq] at h

/-- What inferring the shape of a value can give. -/
theorem inferNode_cases {v : Json} {node? : Option Node}
    (h : inferNode options path depth v growth = .ok (node?, growth')) :
    depth ≤ options.maxLevel ∧
      ((v = .null ∧ node? = none ∧ growth' = growth) ∨
        (∃ members fields, v = .object members ∧ node? = some (.object fields) ∧
          mergeMembers options path depth [] members growth = .ok (fields, growth')) ∨
        (∃ items, v = .array items ∧ node? = none ∧
          inferItems options path (depth + 1) 0 items growth = .ok (none, growth')) ∨
        (∃ items element leading element' growth₁, v = .array items ∧
          node? = some (.array element') ∧
          inferItems options path (depth + 1) 0 items growth =
            .ok (some (element, leading), growth₁) ∧
          mergeLeading options path (depth + 1) element leading items growth₁ =
            .ok (element', growth')) ∨
        ∃ x, DataValue.ofJson? v = some x ∧ node? = some (.leaf growth.nextColumn x.type) ∧
          growth' = ⟨growth.nextColumn + 1, growth.changed⟩) := by
  rw [inferNode.eq_def] at h
  split at h
  split at h
  · simp only [reduceCtorEq] at h
  · next hd =>
    refine ⟨Nat.le_of_not_lt hd, ?_⟩
    split at h
    · simp only [Except.ok.injEq, Prod.mk.injEq] at h
      exact Or.inl ⟨rfl, h.1.symm, h.2.symm⟩
    · next members =>
      obtain ⟨⟨fields, growth₁⟩, hm, h⟩ := Outcome.bind_eq_ok.mp h
      simp only [pure, Except.pure, Except.ok.injEq, Prod.mk.injEq] at h
      rcases h with ⟨rfl, rfl⟩
      exact Or.inr (Or.inl ⟨members, fields, rfl, rfl, hm⟩)
    · next items =>
      obtain ⟨⟨found, growth₁⟩, hf, h⟩ := Outcome.bind_eq_ok.mp h
      cases found with
      | none =>
          simp only [pure, Except.pure, Except.ok.injEq, Prod.mk.injEq] at h
          rcases h with ⟨rfl, rfl⟩
          exact Or.inr (Or.inr (Or.inl ⟨items, rfl, rfl, hf⟩))
      | some pair =>
          obtain ⟨element, leading⟩ := pair
          obtain ⟨⟨element', growth₂⟩, hm, h⟩ := Outcome.bind_eq_ok.mp h
          simp only [pure, Except.pure, Except.ok.injEq, Prod.mk.injEq] at h
          rcases h with ⟨rfl, rfl⟩
          exact Or.inr (Or.inr (Or.inr (Or.inl
            ⟨items, element, leading, element', growth₁, rfl, rfl, hf, hm⟩)))
    · next hnull hobject harray =>
      split at h
      · next hnone =>
        rcases DataValue.ofJson?_eq_none.mp hnone with rfl | ⟨items, rfl⟩ | ⟨members, rfl⟩
        · exact absurd rfl hnull
        · exact absurd rfl (harray items)
        · exact absurd rfl (hobject members)
      · next x hx =>
        simp only [Except.ok.injEq, Prod.mk.injEq] at h
        exact Or.inr (Or.inr (Or.inr (Or.inr ⟨x, hx, h.1.symm, h.2.symm⟩)))

theorem mergeLeaf_extends {policy : ConflictPolicy} {column : Nat} {type : DataType} {v : Json}
    {node : Node} (h : mergeLeaf policy path column type v growth = .ok (node, growth')) :
    Extends options.maxLevel depth growth.nextColumn growth'.nextColumn (.leaf column type)
      node := by
  simp only [mergeLeaf] at h
  split at h
  · split at h
    · simp only [Except.ok.injEq, Prod.mk.injEq] at h
      rw [← h.1, ← h.2]
      exact .refl ..
    · simp only [reduceCtorEq] at h
  · split at h
    · simp only [Except.ok.injEq, Prod.mk.injEq] at h
      rw [← h.1, ← h.2]
      exact .refl ..
    · next hn =>
      split at h
      · next wider hw =>
        simp only [Except.ok.injEq, Prod.mk.injEq] at h
        rw [← h.1, ← h.2]
        exact ⟨Nat.le_refl _, ⟨rfl, Or.inr (widen_of_refused hn hw)⟩, id, fun _ hc => Or.inl hc,
          fun hd _ => hd, Nat.le_max_right ..⟩
      · simp only [reduceCtorEq] at h

theorem mergeItems_extends {items : List Json} (hi : ∀ item ∈ items, Merges item)
    {element element' : Node}
    (h : mergeItems options path depth element items growth = .ok (element', growth')) :
    Extends options.maxLevel depth growth.nextColumn growth'.nextColumn element element' := by
  induction items generalizing element growth with
  | nil =>
      simp only [mergeItems, Except.ok.injEq, Prod.mk.injEq] at h
      rw [h.1, h.2]
      exact .refl ..
  | cons item rest ih =>
      have hrest := fun item hm => hi item (List.mem_cons_of_mem _ hm)
      rw [mergeItems] at h
      split at h
      · exact ih hrest h
      · obtain ⟨⟨middle, growth₁⟩, hm, h⟩ := Outcome.bind_eq_ok.mp h
        exact ((hi item List.mem_cons_self).merge hm).trans (ih hrest h)

theorem mergeLeading_extends {items : List Json} (hi : ∀ item ∈ items, Merges item)
    {count : Nat} {element element' : Node}
    (h : mergeLeading options path depth element count items growth = .ok (element', growth')) :
    Extends options.maxLevel depth growth.nextColumn growth'.nextColumn element element' := by
  induction items generalizing element growth count with
  | nil =>
      cases count <;>
        (simp only [mergeLeading, Except.ok.injEq, Prod.mk.injEq] at h
         rw [h.1, h.2]
         exact .refl ..)
  | cons item rest ih =>
      have hrest := fun item hm => hi item (List.mem_cons_of_mem _ hm)
      cases count with
      | zero =>
          simp only [mergeLeading, Except.ok.injEq, Prod.mk.injEq] at h
          rw [h.1, h.2]
          exact .refl ..
      | succ count =>
          rw [mergeLeading] at h
          split at h
          · exact ih hrest h
          · obtain ⟨⟨middle, growth₁⟩, hm, h⟩ := Outcome.bind_eq_ok.mp h
            exact ((hi item List.mem_cons_self).merge hm).trans (ih hrest h)

theorem mergeMembers_extends {members : List (String × Json)} (hm : ∀ m ∈ members, Merges m.2)
    {fields fields' : List (String × Node)}
    (h : mergeMembers options path depth fields members growth = .ok (fields', growth')) :
    Extends options.maxLevel depth growth.nextColumn growth'.nextColumn (.object fields)
      (.object fields') := by
  induction members generalizing fields growth with
  | nil =>
      simp only [mergeMembers, Except.ok.injEq, Prod.mk.injEq] at h
      rw [h.1, h.2]
      exact .refl ..
  | cons m rest ih =>
      obtain ⟨name, v⟩ := m
      have hrest := fun m hr => hm m (List.mem_cons_of_mem _ hr)
      have hfirst : Merges v := hm (name, v) List.mem_cons_self
      rw [mergeMembers] at h
      split at h
      · exact ih hrest h
      · split at h
        · next node hf =>
          obtain ⟨⟨node', growth₁⟩, hn, h⟩ := Outcome.bind_eq_ok.mp h
          exact (Extends.setField hf (hfirst.merge hn)).trans (ih hrest h)
        · next hf =>
          obtain ⟨⟨node?, growth₁⟩, hn, h⟩ := Outcome.bind_eq_ok.mp h
          obtain ⟨hle, hfresh⟩ := hfirst.infer hn
          cases node? with
          | none => exact Extends.trans (.skip hle _) (ih hrest h)
          | some node =>
              have hnext := ih hrest h
              exact (Extends.append hf (hfresh node rfl)).trans hnext

theorem inferItems_fresh {items : List Json} (hi : ∀ item ∈ items, Merges item) {seen : Nat}
    {found : Option (Node × Nat)}
    (h : inferItems options path depth seen items growth = .ok (found, growth')) :
    growth.nextColumn ≤ growth'.nextColumn ∧
      ∀ node count, found = some (node, count) →
        Fresh options.maxLevel depth growth.nextColumn growth'.nextColumn node := by
  induction items generalizing growth seen with
  | nil =>
      simp only [inferItems, Except.ok.injEq, Prod.mk.injEq] at h
      rw [← h.1, ← h.2]
      exact ⟨Nat.le_refl _, fun node count hn => by simp only [reduceCtorEq] at hn⟩
  | cons item rest ih =>
      have hrest := fun item hm => hi item (List.mem_cons_of_mem _ hm)
      rw [inferItems] at h
      split at h
      · exact ih hrest h
      · obtain ⟨⟨node?, growth₁⟩, hn, h⟩ := Outcome.bind_eq_ok.mp h
        obtain ⟨hle, hfresh⟩ := (hi item List.mem_cons_self).infer hn
        cases node? with
        | none =>
            obtain ⟨hle', hf⟩ := ih hrest h
            exact ⟨Nat.le_trans hle hle', fun node count hc => (hf node count hc).after hle⟩
        | some node =>
            obtain ⟨⟨node', growth₂⟩, hm, h⟩ := Outcome.bind_eq_ok.mp h
            simp only [pure, Except.pure, Except.ok.injEq, Prod.mk.injEq] at h
            have hext := (hfresh node rfl).extend (mergeItems_extends hrest hm)
            rw [← h.1, ← h.2]
            refine ⟨hext.next, fun m count hc => ?_⟩
            simp only [Option.some.injEq, Prod.mk.injEq] at hc
            rw [← hc.1]
            exact hext

end

/-- Merging extends and inferring is fresh, whatever the value. -/
theorem merges (v : Json) : Merges v := by
  induction v using Json.inductionParts with
  | parts v harray hobject =>
      constructor
      · intro options path depth node node' growth growth' h
        rcases (mergeNode_cases h).2 with ⟨fields, fields', ms, rfl, hv, rfl, hr⟩ |
          ⟨element, element', items, rfl, hv, rfl, hr⟩ | ⟨column, type, rfl, hr⟩
        · exact mergeMembers_extends (hobject ms hv) hr
        · exact (mergeItems_extends (harray items hv) hr).array
        · exact mergeLeaf_extends hr
      · intro options path depth node? growth growth' h
        have hd := (inferNode_cases h).1
        rcases (inferNode_cases h).2 with ⟨-, rfl, rfl⟩ | ⟨ms, fields, hv, rfl, hr⟩ |
          ⟨items, hv, rfl, hr⟩ | ⟨items, element, leading, element', growth₁, hv, rfl, hf, hl⟩ |
          ⟨x, hx, rfl, rfl⟩
        · exact ⟨Nat.le_refl _, fun node hn => by simp only [reduceCtorEq] at hn⟩
        · have hfresh := (mergeMembers_extends (hobject ms hv) hr).fresh hd
          refine ⟨hfresh.next, fun node hn => ?_⟩
          rw [Option.some.injEq] at hn
          exact hn ▸ hfresh
        · exact ⟨(inferItems_fresh (harray items hv) hr).1,
            fun node hn => by simp only [reduceCtorEq] at hn⟩
        · have hfresh := ((inferItems_fresh (harray items hv) hf).2 _ _ rfl).extend
            (mergeLeading_extends (harray items hv) hl)
          refine ⟨hfresh.next, fun node hn => ?_⟩
          rw [Option.some.injEq] at hn
          exact hn ▸ hfresh.array
        · refine ⟨Nat.le_succ _, fun node hn => ?_⟩
          rw [Option.some.injEq] at hn
          exact hn ▸ Fresh.leaf hd _ x.type

/-! ### Schemas -/

/-- A schema as a shape. -/
abbrev root (schema : Schema) : Node :=
  .object schema.fields

/-- What holds of every schema that was grown from documents: fields of one object
    have different names, columns have different numbers below the next one, and
    no way takes more than `limit` steps. -/
structure Sound (limit : Nat) (schema : Schema) : Prop where
  names : schema.root.NamesUnique
  distinct : schema.root.columns.Nodup
  below : ∀ column ∈ schema.root.columns, column < schema.nextColumn
  height : schema.root.height ≤ limit

theorem sound_empty (limit : Nat) : empty.Sound limit where
  names := ⟨List.nodup_nil, trivial⟩
  distinct := List.nodup_nil
  below := fun _ hc => absurd hc List.not_mem_nil
  height := Nat.zero_le _

/-- A document extends the fields of its schema. -/
theorem merge_extends {options : MergeOptions} {schema : Schema} {document : Json}
    {merged : Option Schema} (h : merge options schema document = .ok merged) :
    Extends options.maxLevel 0 schema.nextColumn (merged.getD schema).nextColumn schema.root
      (merged.getD schema).root := by
  cases document with
  | object members =>
      obtain ⟨⟨fields, growth⟩, hm, h⟩ := Outcome.bind_eq_ok.mp h
      simp only [pure, Except.pure, Except.ok.injEq] at h
      have hext := mergeMembers_extends (fun m _ => merges m.2) hm
      rw [← h]
      split
      · exact hext
      · exact .refl ..
  | null | bool | number | string | array => simp only [merge, reduceCtorEq] at h

/-- A merge keeps a schema sound. -/
theorem Sound.merge {limit : Nat} {options : MergeOptions} {schema : Schema} {document : Json}
    {merged : Option Schema} (hs : schema.Sound limit) (hl : options.maxLevel ≤ limit)
    (h : merge options schema document = .ok merged) : (merged.getD schema).Sound limit := by
  have hext := merge_extends h
  refine ⟨hext.names hs.names, hext.distinct hs.distinct hs.below, ?_, ?_⟩
  · intro column hc
    have hle := hext.next
    rcases hext.within column hc with hold | hnew
    · have := hs.below column hold
      omega
    · exact hnew.2
  · have := hext.height
    have := hs.height
    omega

/-- The second schema has grown out of the first. -/
structure GrownFrom (early full : Schema) : Prop where
  grows : early.root.GrowsTo early.nextColumn full.root
  next : early.nextColumn ≤ full.nextColumn

theorem GrownFrom.refl (schema : Schema) : GrownFrom schema schema :=
  ⟨Node.growsTo_refl _ _, Nat.le_refl _⟩

theorem GrownFrom.trans {a b c : Schema} (h : GrownFrom a b) (h' : GrownFrom b c) :
    GrownFrom a c :=
  ⟨Node.growsTo_trans h.next h.grows h'.grows, Nat.le_trans h.next h'.next⟩

theorem GrownFrom.merge {options : MergeOptions} {schema : Schema} {document : Json}
    {merged : Option Schema} (h : merge options schema document = .ok merged) :
    GrownFrom schema (merged.getD schema) :=
  ⟨(merge_extends h).grows, (merge_extends h).next⟩

/-- Merging documents one after another leads from the first schema to the second.
    The options may differ from one document to the next. -/
inductive Reaches : Schema → Schema → Prop where
  | refl (schema : Schema) : Reaches schema schema
  | step {early schema full : Schema} {options : MergeOptions} {document : Json}
      (reached : Reaches early schema)
      (merged : mergeInto options schema document = .ok full) : Reaches early full

/-- A schema that is reached has grown. -/
theorem Reaches.grown {early full : Schema} (h : Reaches early full) : GrownFrom early full := by
  induction h with
  | refl => exact .refl _
  | step _ hm ih =>
      obtain ⟨merged, hr, rfl⟩ := Outcome.map_eq_ok.mp hm
      exact ih.trans (.merge hr)

/-- What is reached from a sound schema is sound, up to some limit. -/
theorem Reaches.sound {early full : Schema} (h : Reaches early full) {limit : Nat}
    (hs : early.Sound limit) : ∃ limit, full.Sound limit := by
  induction h with
  | refl => exact ⟨limit, hs⟩
  | @step _ _ options _ _ hm ih =>
      obtain ⟨limit, hs⟩ := ih
      obtain ⟨merged, hr, rfl⟩ := Outcome.map_eq_ok.mp hm
      have hw : Sound (max limit options.maxLevel) _ :=
        ⟨hs.names, hs.distinct, hs.below, Nat.le_trans hs.height (Nat.le_max_left ..)⟩
      exact ⟨_, hw.merge (Nat.le_max_right ..) hr⟩

end Schema

end NestedColumns

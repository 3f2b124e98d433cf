import NestedColumns.Proofs.Documents.Fitting
import NestedColumns.Proofs.Schema.Leaves

/-!
# What a merge keeps

Data is found by the columns of a schema and by the places of their fields. So a merge may
not move anything: at each place there stays a shape of the same kind under the same name,
and a leaf stays in its column. All that can change about a leaf is that whole numbers
become floats, and only if the policy lets them.

Shapes that a merge infers on its way are new, so the induction over a document only follows
the shapes that were there. Whether a merge has changed anything is a flag that is set at
several places. It is right because there is no growing back: if a merge ends where it
began, then no step of it went anywhere.

## Main definitions

* `ConflictPolicy.Allows`: The types that a column may go on with.
* `Schema.Node.Keeps`: Every place of a shape is kept.
* `Schema.Keeps`: What readers of a schema rely on when it grows.

## Theorems

* `Schema.keptBy`: A merge keeps every place.
* `Schema.mergeMembers_idle`: A merge that ends where it began has not set its flag.
* `Schema.Reaches.only_grows`: Schemas only grow.
-/

namespace NestedColumns

/-- The types that a column of some type may go on with. -/
def ConflictPolicy.Allows (policy : ConflictPolicy) (type type' : DataType) : Prop :=
  type' = type ∨ policy = .widen ∧ type = .integer ∧ type' = .float

theorem ConflictPolicy.Allows.trans {policy : ConflictPolicy} {a b c : DataType}
    (h : policy.Allows a b) (h' : policy.Allows b c) : policy.Allows a c := by
  rcases h with rfl | ⟨hp, rfl, rfl⟩
  · exact h'
  · rcases h' with rfl | ⟨-, hb, -⟩
    · exact Or.inr ⟨hp, rfl, rfl⟩
    · cases hb

namespace Schema

namespace Node

/-- A shape of the same kind, and of the same column if it is a leaf. -/
inductive Kept (policy : ConflictPolicy) : Node → Node → Prop where
  | leaf (column : Nat) {type type' : DataType} (h : policy.Allows type type') :
      Kept policy (.leaf column type) (.leaf column type')
  | object (fields fields' : List (String × Node)) : Kept policy (.object fields) (.object fields')
  | array (element element' : Node) : Kept policy (.array element) (.array element')

/-- At every place of a shape, the other has a shape of the same kind under the same names. -/
def Keeps (policy : ConflictPolicy) (node node' : Node) : Prop :=
  ∀ steps way part, node.along? steps = some (way, part) →
    ∃ part', node'.along? steps = some (way, part') ∧ Kept policy part part'

variable {policy : ConflictPolicy} {a b c : Node}

theorem Kept.refl (policy : ConflictPolicy) (node : Node) : Kept policy node node := by
  cases node with
  | leaf column type => exact .leaf column (Or.inl rfl)
  | object fields => exact .object fields fields
  | array element => exact .array element element

theorem Kept.trans (h : Kept policy a b) (h' : Kept policy b c) : Kept policy a c := by
  cases h with
  | leaf column h =>
      cases h' with
      | leaf _ h' => exact .leaf column (h.trans h')
  | object fields _ =>
      cases h' with
      | object _ fields' => exact .object fields fields'
  | array element _ =>
      cases h' with
      | array _ element' => exact .array element element'

namespace Keeps

theorem refl (policy : ConflictPolicy) (node : Node) : Keeps policy node node :=
  fun _ _ part h => ⟨part, h, .refl policy part⟩

theorem trans (h : Keeps policy a b) (h' : Keeps policy b c) : Keeps policy a c := by
  intro steps way part hpart
  rcases h steps way part hpart with ⟨part', hpart', hkept⟩
  rcases h' steps way part' hpart' with ⟨part'', hpart'', hkept'⟩
  exact ⟨part'', hpart'', hkept.trans hkept'⟩

theorem here (h : Keeps policy a b) : Kept policy a b := by
  rcases h [] [] a (along?_nil a) with ⟨part, hpart, hkept⟩
  rw [along?_nil, Option.some.injEq, Prod.mk.injEq] at hpart
  exact hpart.2 ▸ hkept

/-! ### Arrays and objects -/

theorem array_iff : Keeps policy (.array a) b ↔ ∃ b', b = .array b' ∧ Keeps policy a b' := by
  constructor
  · intro h
    cases h.here with
    | array _ b' =>
        refine ⟨b', rfl, fun steps way part hpart => ?_⟩
        rcases h (.element :: steps) (.element :: way) part
          (by simp only [along?, hpart, Option.map_some]) with ⟨part', hpart', hkept⟩
        rcases along?_cons_some hpart' with ⟨_, _, _, _, _, hobj, -⟩ |
          ⟨_, rest, harr, -, hrest, hway⟩
        · cases hobj
        · cases harr
          cases hway
          exact ⟨part', hrest, hkept⟩
  · rintro ⟨b', rfl, h⟩ steps way part hpart
    cases steps with
    | nil =>
        rcases along?_nil_some hpart with ⟨rfl, rfl⟩
        exact ⟨_, along?_nil _, .array a b'⟩
    | cons step steps =>
        rcases along?_cons_some hpart with ⟨_, _, _, _, _, hobj, -⟩ |
          ⟨_, rest, harr, rfl, hrest, rfl⟩
        · cases hobj
        · cases harr
          rcases h steps rest part hrest with ⟨part', hpart', hkept⟩
          exact ⟨part', by simp only [along?, hpart', Option.map_some], hkept⟩

theorem object_iff {fields : List (String × Node)} :
    Keeps policy (.object fields) b ↔ ∃ fields', b = .object fields' ∧
      ∀ (index : Nat) (name : String) (node : Node), fields[index]? = some (name, node) →
        ∃ node', fields'[index]? = some (name, node') ∧ Keeps policy node node' := by
  constructor
  · intro h
    cases h.here with
    | object _ fields' =>
        refine ⟨fields', rfl, fun index name node hindex => ?_⟩
        have hbelow : ∀ steps way part, node.along? steps = some (way, part) →
            ∃ node' part', fields'[index]? = some (name, node') ∧
              node'.along? steps = some (way, part') ∧ Kept policy part part' := by
          intro steps way part hpart
          rcases h (.member index :: steps) (.member name :: way) part
            (by simp only [along?, hindex, hpart, Option.map_some]) with ⟨part', hpart', hkept⟩
          rcases along?_cons_some hpart' with ⟨_, _, _, next, rest, hobj, hstep, hf, hrest, hway⟩ |
            ⟨_, _, harr, -⟩
          · cases hobj
            cases hstep
            cases hway
            exact ⟨next, part', hf, hrest, hkept⟩
          · cases harr
        -- Whatever the steps behind it, the field that is found is the same.
        rcases hbelow [] [] node (along?_nil node) with ⟨node', _, hnode', -⟩
        refine ⟨node', hnode', fun steps way part hpart => ?_⟩
        rcases hbelow steps way part hpart with ⟨node'', part', hnode'', hpart', hkept⟩
        rw [hnode', Option.some.injEq, Prod.mk.injEq] at hnode''
        rw [hnode''.2]
        exact ⟨part', hpart', hkept⟩
  · rintro ⟨fields', rfl, h⟩ steps way part hpart
    cases steps with
    | nil =>
        rcases along?_nil_some hpart with ⟨rfl, rfl⟩
        exact ⟨_, along?_nil _, .object fields fields'⟩
    | cons step steps =>
        rcases along?_cons_some hpart with
          ⟨_, index, name, next, rest, hobj, rfl, hf, hrest, rfl⟩ | ⟨_, _, harr, -⟩
        · cases hobj
          rcases h index name next hf with ⟨node', hnode', hkeeps⟩
          rcases hkeeps steps rest part hrest with ⟨part', hpart', hkept⟩
          exact ⟨part', by simp only [along?, hnode', hpart', Option.map_some], hkept⟩
        · cases harr

variable {fields : List (String × Node)} {name : String} {old node : Node}

theorem setField (hf : field? fields name = some old) (h : Keeps policy old node) :
    Keeps policy (.object fields) (.object (setField name node fields)) := by
  rcases setField_split hf node with ⟨before, rest, hfields, hset⟩
  refine object_iff.mpr ⟨_, rfl, fun index other next hindex => ?_⟩
  rw [hset]
  rw [hfields] at hindex
  rcases Nat.lt_or_ge index before.length with hlt | hge
  · rw [List.getElem?_append_left hlt] at hindex ⊢
    exact ⟨next, hindex, .refl policy next⟩
  · rw [List.getElem?_append_right hge] at hindex ⊢
    cases hi : index - before.length with
    | zero =>
        rw [hi, List.getElem?_cons_zero, Option.some.injEq, Prod.mk.injEq] at hindex
        rcases hindex with ⟨rfl, rfl⟩
        exact ⟨node, List.getElem?_cons_zero, h⟩
    | succ i =>
        rw [hi, List.getElem?_cons_succ] at hindex
        exact ⟨next, by rw [List.getElem?_cons_succ, hindex], .refl policy next⟩

theorem append (fields added : List (String × Node)) :
    Keeps policy (.object fields) (.object (fields ++ added)) := by
  refine object_iff.mpr ⟨_, rfl, fun index other next hindex => ⟨next, ?_, .refl policy next⟩⟩
  rcases List.getElem?_eq_some_iff.mp hindex with ⟨hlt, -⟩
  rw [List.getElem?_append_left hlt, hindex]

end Keeps

end Node

open Node (Kept Keeps)

/-! ### Merging keeps every place -/

/-- Merging a value keeps every place of the shape it is merged into. -/
def KeptBy (v : Json) : Prop :=
  ∀ {options : MergeOptions} {path : List String} {depth : Nat} {node node' : Node}
    {growth growth' : Growth}, mergeNode options path depth node v growth = .ok (node', growth') →
    Node.Keeps options.policy node node'

section

variable {options : MergeOptions} {path : List String} {depth : Nat} {growth growth' : Growth}

theorem mergeLeaf_keeps {policy : ConflictPolicy} {column : Nat} {type : DataType} {v : Json}
    {node : Node} (h : mergeLeaf policy path column type v growth = .ok (node, growth')) :
    Node.Keeps policy (.leaf column type) node := by
  have hleaf : ∃ type', node = .leaf column type' ∧ policy.Allows type type' := by
    simp only [mergeLeaf] at h
    split at h
    · split at h
      · simp only [Except.ok.injEq, Prod.mk.injEq] at h
        exact ⟨type, h.1.symm, Or.inl rfl⟩
      · simp only [reduceCtorEq] at h
    · split at h
      · simp only [Except.ok.injEq, Prod.mk.injEq] at h
        exact ⟨type, h.1.symm, Or.inl rfl⟩
      · next hn =>
        split at h
        · next wider hw =>
          simp only [Except.ok.injEq, Prod.mk.injEq] at h
          exact ⟨wider, h.1.symm, Or.inr ⟨rfl, widen_of_refused hn hw⟩⟩
        · simp only [reduceCtorEq] at h
  rcases hleaf with ⟨type', rfl, hallows⟩
  intro steps way part hpart
  cases steps with
  | nil =>
      rcases Node.along?_nil_some hpart with ⟨rfl, rfl⟩
      exact ⟨_, Node.along?_nil _, .leaf column hallows⟩
  | cons step steps => cases step <;> simp only [Node.along?, reduceCtorEq] at hpart

theorem mergeItems_keeps {items : List Json} (hi : ∀ item ∈ items, KeptBy item)
    {element element' : Node}
    (h : mergeItems options path depth element items growth = .ok (element', growth')) :
    Node.Keeps options.policy element element' := by
  induction items generalizing element growth with
  | nil =>
      simp only [mergeItems, Except.ok.injEq, Prod.mk.injEq] at h
      exact h.1 ▸ Keeps.refl _ _
  | cons item rest ih =>
      have hrest := fun item hm => @hi item (List.mem_cons_of_mem _ hm)
      rw [mergeItems] at h
      split at h
      · exact ih hrest h
      · rcases Outcome.bind_eq_ok.mp h with ⟨⟨middle, growth₁⟩, hm, hr⟩
        exact (hi item List.mem_cons_self hm).trans (ih hrest hr)

theorem mergeMembers_keeps {members : List (String × Json)} (hm : ∀ m ∈ members, KeptBy m.2)
    {fields fields' : List (String × Node)}
    (h : mergeMembers options path depth fields members growth = .ok (fields', growth')) :
    Node.Keeps options.policy (.object fields) (.object fields') := by
  induction members generalizing fields growth with
  | nil =>
      simp only [mergeMembers, Except.ok.injEq, Prod.mk.injEq] at h
      exact h.1 ▸ Keeps.refl _ _
  | cons m rest ih =>
      rcases m with ⟨name, v⟩
      have hrest := fun m hr => @hm m (List.mem_cons_of_mem _ hr)
      have hfirst : KeptBy v := @hm (name, v) List.mem_cons_self
      rw [mergeMembers] at h
      split at h
      · exact ih hrest h
      · split at h
        · next node hf =>
          rcases Outcome.bind_eq_ok.mp h with ⟨⟨node', growth₁⟩, hn, hr⟩
          exact (Keeps.setField hf (hfirst hn)).trans (ih hrest hr)
        · next hf =>
          rcases Outcome.bind_eq_ok.mp h with ⟨⟨node?, growth₁⟩, hn, hr⟩
          cases node? with
          | none => exact ih hrest hr
          | some node => exact (Keeps.append fields _).trans (ih hrest hr)

end

/-- Merging keeps every place, whatever the value. -/
theorem keptBy (v : Json) : KeptBy v := by
  induction v using Json.inductionParts with
  | parts v harray hobject =>
      intro options path depth node node' growth growth' h
      rcases (mergeNode_cases h).2 with ⟨fields, fields', members, rfl, hv, rfl, hr⟩ |
        ⟨element, element', items, rfl, hv, rfl, hr⟩ | ⟨column, type, rfl, hr⟩
      · exact mergeMembers_keeps (hobject members hv) hr
      · exact Keeps.array_iff.mpr ⟨element', rfl, mergeItems_keeps (harray items hv) hr⟩
      · exact mergeLeaf_keeps hr

/-! ### Leaves that are listed -/

theorem mem_columnsOfFields {fields : List (String × Node)} {path : String} {steps : List Step}
    {start : Nat} {c : ProjectedColumn} :
    c ∈ Projection.columnsOfFields fields path steps start ↔
      ∃ (index : Nat) (name : String) (node : Node), fields[index]? = some (name, node) ∧
        c ∈ Projection.columnsBelow node (Projection.joinPath path name)
          (steps ++ [.member (start + index)]) := by
  induction fields generalizing start with
  | nil => simp only [Projection.columnsOfFields, List.not_mem_nil, List.getElem?_nil,
      reduceCtorEq, false_and, exists_false]
  | cons f rest ih =>
      rcases f with ⟨name, node⟩
      rw [Projection.columnsOfFields, List.mem_append, ih]
      constructor
      · rintro (hc | ⟨index, other, next, hindex, hc⟩)
        · exact ⟨0, name, node, rfl, hc⟩
        · refine ⟨index + 1, other, next, hindex, ?_⟩
          rwa [Nat.add_assoc, Nat.add_comm 1] at hc
      · rintro ⟨index, other, next, hindex, hc⟩
        cases index with
        | zero =>
            cases hindex
            exact Or.inl hc
        | succ index =>
            refine Or.inr ⟨index, other, next, hindex, ?_⟩
            rwa [Nat.add_assoc, Nat.add_comm 1]

variable {policy : ConflictPolicy} {a b : Node}

theorem mem_leavesBelow_of_keeps (h : Node.Keeps policy a b) {path : String} {rep depth : Nat}
    {l : LeafColumn} (hl : l ∈ leavesBelow a path rep depth) :
    ∃ type, { l with type := type } ∈ leavesBelow b path rep depth ∧ policy.Allows l.type type := by
  induction a using Node.inductionOn generalizing b path rep depth with
  | leaf column type =>
      rw [leavesBelow, List.mem_singleton] at hl
      subst hl
      cases h.here with
      | @leaf _ _ type' hallows => exact ⟨type', List.mem_singleton_self _, hallows⟩
  | array element ih =>
      rcases Keeps.array_iff.mp h with ⟨element', rfl, hkeeps⟩
      rw [leavesBelow] at hl ⊢
      exact ih hkeeps hl
  | object fields ih =>
      rcases Keeps.object_iff.mp h with ⟨fields', rfl, hkeeps⟩
      rw [leavesBelow, mem_leavesOfFields] at hl
      rcases hl with ⟨f, hf, hl⟩
      rcases List.getElem?_of_mem hf with ⟨index, hindex⟩
      rcases hkeeps index f.1 f.2 hindex with ⟨node', hnode', hfield⟩
      rcases ih f hf hfield hl with ⟨type, htype, hallows⟩
      refine ⟨type, ?_, hallows⟩
      rw [leavesBelow, mem_leavesOfFields]
      exact ⟨_, List.mem_of_getElem? hnode', htype⟩

theorem mem_columnsBelow_of_keeps (h : Node.Keeps policy a b) {path : String} {steps : List Step}
    {c : ProjectedColumn} (hc : c ∈ Projection.columnsBelow a path steps) :
    ∃ type, { c with type := type } ∈ Projection.columnsBelow b path steps ∧
      policy.Allows c.type type := by
  induction a using Node.inductionOn generalizing b path steps with
  | leaf column type =>
      rw [Projection.columnsBelow, List.mem_singleton] at hc
      subst hc
      cases h.here with
      | @leaf _ _ type' hallows => exact ⟨type', List.mem_singleton_self _, hallows⟩
  | array element ih =>
      rcases Keeps.array_iff.mp h with ⟨element', rfl, hkeeps⟩
      rw [Projection.columnsBelow] at hc ⊢
      exact ih hkeeps hc
  | object fields ih =>
      rcases Keeps.object_iff.mp h with ⟨fields', rfl, hkeeps⟩
      rw [Projection.columnsBelow, mem_columnsOfFields] at hc
      rcases hc with ⟨index, name, node, hindex, hc⟩
      rcases hkeeps index name node hindex with ⟨node', hnode', hfield⟩
      rcases ih _ (List.mem_of_getElem? hindex) hfield hc with ⟨type, htype, hallows⟩
      refine ⟨type, ?_, hallows⟩
      rw [Projection.columnsBelow, mem_columnsOfFields]
      exact ⟨index, name, node', hnode', htype⟩

/-! ### The flag of a merge -/

/-- A merge of a value that gives the shape it began with has changed nothing else either. -/
def IdleBy (v : Json) : Prop :=
  ∀ {options : MergeOptions} {path : List String} {depth : Nat} {node : Node}
    {growth growth' : Growth}, mergeNode options path depth node v growth = .ok (node, growth') →
    growth' = growth

section

variable {options : MergeOptions} {path : List String} {depth : Nat} {growth growth' : Growth}

theorem mergeLeaf_idle {policy : ConflictPolicy} {column : Nat} {type : DataType} {v : Json}
    (h : mergeLeaf policy path column type v growth = .ok (.leaf column type, growth')) :
    growth' = growth := by
  simp only [mergeLeaf] at h
  split at h
  · split at h
    · simp only [Except.ok.injEq, Prod.mk.injEq, true_and] at h
      exact h.symm
    · simp only [reduceCtorEq] at h
  · split at h
    · simp only [Except.ok.injEq, Prod.mk.injEq, true_and] at h
      exact h.symm
    · next hn =>
      split at h
      · next wider hw =>
        simp only [Except.ok.injEq, Prod.mk.injEq, Node.leaf.injEq, true_and] at h
        rcases widen_of_refused hn hw with ⟨rfl, rfl⟩
        cases h.1
      · simp only [reduceCtorEq] at h

theorem mergeItems_idle {items : List Json} (hi : ∀ item ∈ items, IdleBy item) {element : Node}
    (h : mergeItems options path depth element items growth = .ok (element, growth')) :
    growth' = growth := by
  induction items generalizing growth with
  | nil =>
      simp only [mergeItems, Except.ok.injEq, Prod.mk.injEq, true_and] at h
      exact h.symm
  | cons item rest ih =>
      have hrest := fun item hm => @hi item (List.mem_cons_of_mem _ hm)
      rw [mergeItems] at h
      split at h
      · exact ih hrest h
      · rcases Outcome.bind_eq_ok.mp h with ⟨⟨middle, growth₁⟩, hm, hr⟩
        have hforth := ((merges item).merge hm).grows
        have hback := (mergeItems_extends (fun item _ => merges item) hr).grows
        have hsame : middle = element := Node.growsTo_antisymm hback hforth
        subst hsame
        rw [ih hrest hr, hi item List.mem_cons_self hm]

theorem mergeMembers_idle {members : List (String × Json)} (hm : ∀ m ∈ members, IdleBy m.2)
    {fields : List (String × Node)}
    (h : mergeMembers options path depth fields members growth = .ok (fields, growth')) :
    growth' = growth := by
  induction members generalizing growth with
  | nil =>
      simp only [mergeMembers, Except.ok.injEq, Prod.mk.injEq, true_and] at h
      exact h.symm
  | cons m rest ih =>
      rcases m with ⟨name, v⟩
      have hrest := fun m hr => @hm m (List.mem_cons_of_mem _ hr)
      have hfirst : IdleBy v := @hm (name, v) List.mem_cons_self
      rw [mergeMembers] at h
      split at h
      · exact ih hrest h
      · split at h
        · next node hf =>
          rcases Outcome.bind_eq_ok.mp h with ⟨⟨node', growth₁⟩, hn, hr⟩
          have hforth := (Node.Extends.setField hf ((merges v).merge hn)).grows
          have hback := (mergeMembers_extends (fun m _ => merges m.2) hr).grows
          have hsame := Node.growsTo_antisymm hback hforth
          rw [Node.object.injEq] at hsame
          have hnode : node' = node := by
            have hset := field?_setField hf node'
            rw [hsame, hf, Option.some.injEq] at hset
            exact hset.symm
          subst hnode
          simp only [hsame] at hr
          rw [ih hrest hr, hfirst hn]
        · next hf =>
          rcases Outcome.bind_eq_ok.mp h with ⟨⟨node?, growth₁⟩, hn, hr⟩
          cases node? with
          | none => rw [ih hrest hr, (((Json.fitsUnchanged v).infer hn).2 rfl).1]
          | some node =>
              -- A field that was added would have to go again.
              have hforth := (Node.Extends.append hf (((merges v).infer hn).2 node rfl)).grows
              have hback := (mergeMembers_extends (fun m _ => merges m.2) hr).grows
              have hsame := Node.growsTo_antisymm hback hforth
              rw [Node.object.injEq] at hsame
              have hlength := congrArg List.length hsame
              simp only [List.length_append, List.length_singleton] at hlength
              omega

end

theorem idleBy (v : Json) : IdleBy v := by
  induction v using Json.inductionParts with
  | parts v harray hobject =>
      intro options path depth node growth growth' h
      rcases (mergeNode_cases h).2 with ⟨fields, fields', members, rfl, hv, hsame, hr⟩ |
        ⟨element, element', items, rfl, hv, hsame, hr⟩ | ⟨column, type, rfl, hr⟩
      · cases hsame
        exact mergeMembers_idle (hobject members hv) hr
      · cases hsame
        exact mergeItems_idle (harray items hv) hr
      · exact mergeLeaf_idle hr

/-! ### Schemas -/

/-- What readers of a schema rely on when it has become a later one. -/
structure Keeps (policy : ConflictPolicy) (schema later : Schema) : Prop where
  /-- Fields stay where they were, with shapes of the same kinds. -/
  places : Node.Keeps policy schema.root later.root
  /-- A leaf has the same column, path and levels. -/
  leaves : ∀ l ∈ schema.leaves, ∃ type, { l with type := type } ∈ later.leaves ∧
    policy.Allows l.type type
  /-- A column is read by the same steps. -/
  columns : ∀ c ∈ (Projection.ofSchema schema).columns,
    ∃ type, { c with type := type } ∈ (Projection.ofSchema later).columns ∧
      policy.Allows c.type type
  /-- A leaf at a place that had none has a new number. -/
  fresh : ∀ steps way column type, later.root.along? steps = some (way, .leaf column type) →
    (∃ type', schema.root.along? steps = some (way, .leaf column type')) ∨
      schema.nextColumn ≤ column
  next : schema.nextColumn ≤ later.nextColumn

variable {options : MergeOptions} {schema : Schema} {document : Json} {merged : Option Schema}

theorem mem_leaves_of_keeps {later : Schema} (h : Node.Keeps policy schema.root later.root)
    {l : LeafColumn} (hl : l ∈ schema.leaves) :
    ∃ type, { l with type := type } ∈ later.leaves ∧ policy.Allows l.type type := by
  rcases Keeps.object_iff.mp h with ⟨fields', hfields', hkeeps⟩
  cases hfields'
  rcases List.mem_flatMap.mp hl with ⟨f, hf, hl⟩
  rcases List.getElem?_of_mem hf with ⟨index, hindex⟩
  rcases hkeeps index f.1 f.2 hindex with ⟨node', hnode', hfield⟩
  rcases mem_leavesBelow_of_keeps hfield hl with ⟨type, htype, hallows⟩
  exact ⟨type, List.mem_flatMap.mpr ⟨_, List.mem_of_getElem? hnode', htype⟩, hallows⟩

/-- A merge that succeeds gives the schema that its walk over the members has led to, and says
    that nothing has changed exactly if that is the schema it began with. -/
theorem merge_eq_ok (hn : schema.root.NamesUnique)
    (h : merge options schema document = .ok merged) :
    ∃ members fields growth, document = .object members ∧
      mergeMembers options [] 0 schema.fields members ⟨schema.nextColumn, false⟩ =
        .ok (fields, growth) ∧
      merged.getD schema = ⟨fields, growth.nextColumn⟩ ∧
      (merged = none ↔ ⟨fields, growth.nextColumn⟩ = schema) := by
  cases document with
  | object members =>
      rcases Outcome.bind_eq_ok.mp h with ⟨⟨fields, growth⟩, hm, hr⟩
      simp only [pure, Except.pure, Except.ok.injEq] at hr
      refine ⟨members, fields, growth, rfl, hm, ?_⟩
      cases hc : growth.changed with
      | false =>
          rcases Json.mergeMembers_unchanged (fun m _ => Json.fitsUnchanged m.2) hm hc with
            ⟨hgrowth, hsame⟩
          rw [hc, if_neg Bool.false_ne_true] at hr
          rw [← hr, (hsame hn).1, hgrowth]
          exact ⟨rfl, fun _ => rfl, fun _ => rfl⟩
      | true =>
          rw [hc, if_pos rfl] at hr
          rw [← hr]
          refine ⟨rfl, ⟨fun hnone => (Option.some_ne_none _ hnone).elim, fun hsame => ?_⟩⟩
          have hfields : fields = schema.fields := congrArg Schema.fields hsame
          subst hfields
          rw [mergeMembers_idle (fun m _ => idleBy m.2) hm] at hc
          cases hc
  | null | bool | number | string | array => simp only [merge, reduceCtorEq] at h

theorem merge_keeps (hn : schema.root.NamesUnique)
    (h : merge options schema document = .ok merged) :
    schema.Keeps options.policy (merged.getD schema) := by
  rcases merge_eq_ok hn h with ⟨members, fields, growth, rfl, hm, hlater, -⟩
  have hgrown := GrownFrom.merge h
  have hplaces : Node.Keeps options.policy schema.root (merged.getD schema).root := by
    rw [hlater]
    exact mergeMembers_keeps (fun m _ => keptBy m.2) hm
  exact ⟨hplaces, fun l hl => mem_leaves_of_keeps hplaces hl,
    fun c hc => mem_columnsBelow_of_keeps hplaces hc,
    fun steps way column type hw => hgrown.grows.along?_old_or_new hw, hgrown.next⟩

/-- Schemas only grow. Whatever documents have led to a schema, by whatever options, its names
    and its columns are told apart. A further document moves nothing, takes new numbers for
    what is new, and is said to change nothing exactly if it does. -/
theorem Reaches.only_grows (h : Reaches .empty schema) :
    schema.root.NamesUnique ∧ (schema.leaves.map (·.column)).Nodup ∧
      (∀ l ∈ schema.leaves, l.column < schema.nextColumn) ∧
      ∀ options document merged, merge options schema document = .ok merged →
        schema.Keeps options.policy (merged.getD schema) ∧
        ∃ members fields growth, document = .object members ∧
          mergeMembers options [] 0 schema.fields members ⟨schema.nextColumn, false⟩ =
            .ok (fields, growth) ∧
          merged.getD schema = ⟨fields, growth.nextColumn⟩ ∧
          (merged = none ↔ ⟨fields, growth.nextColumn⟩ = schema) := by
  rcases h.sound (sound_empty 0) with ⟨limit, hs⟩
  refine ⟨hs.names, ?_, fun l hl => ?_, fun options document merged hm => ?_⟩
  · rw [map_column_leaves]
    exact hs.distinct
  · refine hs.below l.column ?_
    rw [← map_column_leaves]
    exact List.mem_map_of_mem hl
  · exact ⟨merge_keeps hs.names hm, merge_eq_ok hs.names hm⟩

/-- A column of whole numbers, and one column in an array of objects. -/
def earlySchema : Schema :=
  ⟨[("a", .leaf 0 .integer), ("b", .array (.object [("c", .leaf 1 .boolean)]))], 2⟩

-- The first column gets a float, and the objects get a second member.
theorem only_grows_widened :
    earlySchema.Keeps .widen
      ⟨[("a", .leaf 0 .float),
        ("b", .array (.object [("c", .leaf 1 .boolean), ("d", .leaf 2 .string)]))], 3⟩ := by
  have hreached : Reaches .empty earlySchema :=
    .step (.refl _) (show mergeInto ⟨.strict, 32⟩ .empty
      (.object [("a", .number (.whole 1)), ("b", .array [.object [("c", .bool true)]])]) =
        .ok earlySchema from rfl)
  have hmerge : merge ⟨.widen, 32⟩ earlySchema
      (.object [("a", .number (.double (.ofInt 1))),
        ("b", .array [.null, .object [("d", .string "x")]])]) = .ok (some _) := rfl
  exact (hreached.only_grows.2.2.2 _ _ _ hmerge).1

end Schema

end NestedColumns

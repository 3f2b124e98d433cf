import NestedColumns.Proofs.Json.Values
import NestedColumns.Proofs.Schema.Growth
import NestedColumns.Proofs.Schema.Parts

/-!
# What is kept of a document

A document is stored by the leaves of its schema. What has no leaf below it in
that schema leaves no trace, and neither do members and items that are `null`.
The rest can be read back, by whatever the schema has become since then: members
come in the order of its fields, and scalars in the form their columns give them.

So a record is what a schema shows of the part of a document that another schema
has kept.

## Main definitions

* `Json.present?`: A member that is not `null`.
* `Json.kept`: What a shape stores of a value.
* `Json.shown`: What a shape gives back of a stored value.
* `Json.normalForm`: Both at once, for the shape of a store and one of the past.
* `Json.restrict`: The part of a record that belongs to some of its fields.

## Theorems

* `Json.present?_keptMembers`: The members that are kept.
* `Json.shown_kept`: What is shown of what was kept is the normal form.
* `Json.restrict_shown`: A part of a record is shown by the part of its shape.
-/

namespace NestedColumns

namespace Json

open Schema (Node field?)

/-- The member of a name, unless it is `null`. -/
def present? (members : List (String × Json)) (name : String) : Option Json :=
  (member? members name).filter (!·.isNull)

/-- The items that are not `null`. -/
def presentItems (items : List Json) : List Json :=
  items.filter (!·.isNull)

/-- The JSON form of the value that a column has of a scalar. -/
def scalar (v : Json) : Json :=
  match DataValue.ofJson? v with
  | some x => x.toJson
  | none => .null

mutual

/-- What a shape stores of a value: members that are there and have a leaf below
    them in the shape. -/
def kept : Node → Json → Json
  | .object fields, .object members => .object (keptMembers fields members)
  | .array element, .array items => .array ((presentItems items).map fun v => kept element v)
  | _, v => v

/-- The members that are stored, in the order of the fields. -/
def keptMembers : List (String × Node) → List (String × Json) → List (String × Json)
  | [], _ => []
  | (name, node) :: rest, members =>
    match node.hasLeaf, present? members name with
    | true, some v => (name, kept node v) :: keptMembers rest members
    | _, _ => keptMembers rest members

end

mutual

/-- What a shape gives back of a stored value. -/
def shown : Node → Json → Json
  | .leaf _ _, v => scalar v
  | .object fields, .object members => .object (shownMembers fields members)
  | .array element, .array items => .array ((presentItems items).map fun v => shown element v)
  | _, _ => .null

/-- The members that are given back, in the order of the fields. -/
def shownMembers : List (String × Node) → List (String × Json) → List (String × Json)
  | [], _ => []
  | (name, node) :: rest, members =>
    match node.hasLeaf, present? members name with
    | true, some v => (name, shown node v) :: shownMembers rest members
    | _, _ => shownMembers rest members

end

mutual

/-- The normal form of a document: the first shape is that of its table now, the
    second the one it was stored under. Members and items that are `null` are
    gone, scalars have the form their columns give them, members are in the
    order of the fields, and a member is there if the shape of the past has its
    field, with a leaf below it. -/
def normalForm : Node → Node → Json → Json
  | .object fields, .object stored, .object members =>
    .object (normalMembers fields stored members)
  | .array element, .array stored, .array items =>
    .array ((presentItems items).map fun v => normalForm element stored v)
  | .leaf _ _, _, v => scalar v
  | _, _, _ => .null

/-- The members of the normal form of an object. -/
def normalMembers : List (String × Node) → List (String × Node) → List (String × Json) →
    List (String × Json)
  | [], _, _ => []
  | (name, node) :: rest, stored, members =>
    match field? stored name, present? members name with
    | some past, some v =>
      if past.hasLeaf then (name, normalForm node past v) :: normalMembers rest stored members
      else normalMembers rest stored members
    | _, _ => normalMembers rest stored members

end

mutual

/-- The part of a record that belongs to a shape: members that the shape has, in
    its order, and all elements of every array. -/
def restrict : Node → Json → Json
  | .object fields, .object members => .object (restrictMembers fields members)
  | .array element, .array items => .array (items.map fun v => restrict element v)
  | _, v => v

/-- The members that the fields have. -/
def restrictMembers : List (String × Node) → List (String × Json) → List (String × Json)
  | [], _ => []
  | (name, node) :: rest, members =>
    match member? members name with
    | some v => (name, restrict node v) :: restrictMembers rest members
    | none => restrictMembers rest members

end

/-! ### Members by fields -/

/-- Members by the fields of an object, in their order: what `take` gives for each. -/
def gather (take : String × Node → Option Json) (fields : List (String × Node)) :
    List (String × Json) :=
  fields.filterMap fun f => (take f).map (f.1, ·)

variable {fields : List (String × Node)} {members : List (String × Json)} {name : String}

theorem gather_cons (take : String × Node → Option Json) (f : String × Node)
    (rest : List (String × Node)) :
    gather take (f :: rest) = ((take f).map (f.1, ·)).toList ++ gather take rest := by
  rw [gather, List.filterMap_cons]
  cases take f <;> rfl

/-- What is taken of one object is taken of another if it is so field by field. -/
theorem gather_congr {take take' : String × Node → Option Json}
    (h : ∀ f ∈ fields, take f = take' f) : gather take fields = gather take' fields :=
  List.filterMap_congr fun f hf => by rw [h f hf]

theorem member?_gather (take : String × Node → Option Json) (hd : (fields.map (·.1)).Nodup)
    (name : String) :
    member? (gather take fields) name =
      (field? fields name).bind fun node => take (name, node) := by
  induction fields with
  | nil => rfl
  | cons f rest ih =>
      rcases f with ⟨n, node⟩
      rw [List.map_cons, List.nodup_cons] at hd
      rw [Schema.field?_cons, gather_cons]
      by_cases hn : n = name
      · subst hn
        -- No later field has the name, so nothing but this one can give the member.
        have hnone : field? rest n = none := Schema.field?_eq_none_iff.mpr hd.1
        rw [if_pos rfl, Option.bind_some]
        cases htake : take (n, node) with
        | none =>
            have hrest := ih hd.2
            rw [hnone, Option.bind_none] at hrest
            exact hrest
        | some v =>
            rw [Option.map_some, Option.toList_some, List.singleton_append, member?_cons,
              if_pos rfl]
      · rw [if_neg hn, ← ih hd.2]
        cases take (n, node) with
        | none => rfl
        | some v =>
            rw [Option.map_some, Option.toList_some, List.singleton_append, member?_cons,
              if_neg hn]

theorem present?_gather {take : String × Node → Option Json} (hd : (fields.map (·.1)).Nodup)
    (ht : ∀ f v, take f = some v → v.isNull = false) (name : String) :
    present? (gather take fields) name =
      (field? fields name).bind fun node => take (name, node) := by
  rw [present?, member?_gather take hd]
  cases field? fields name with
  | none => rfl
  | some node =>
      rw [Option.bind_some]
      cases htake : take (name, node) with
      | none => rfl
      | some v => rw [Option.filter_some, ht _ v htake, Bool.not_false, if_pos rfl]

theorem isNull_of_present? {v : Json} (h : present? members name = some v) : v.isNull = false := by
  rw [present?, Option.filter_eq_some_iff] at h
  simpa only [Bool.not_eq_true'] using h.2

theorem present?_mem {v : Json} (h : present? members name = some v) : (name, v) ∈ members :=
  member?_eq_some (Option.filter_eq_some_iff.mp h).1

theorem mem_presentItems {items : List Json} {v : Json} :
    v ∈ presentItems items ↔ v ∈ items ∧ v.isNull = false := by
  rw [presentItems, List.mem_filter, Bool.not_eq_true']

/-! ### What is kept -/

theorem isNull_kept (node : Node) (v : Json) : (kept node v).isNull = v.isNull := by
  cases node <;> cases v <;> rfl

theorem keptMembers_eq (fields : List (String × Node)) (members : List (String × Json)) :
    keptMembers fields members = gather (fun f =>
      if f.2.hasLeaf then (present? members f.1).map (kept f.2) else none) fields := by
  induction fields with
  | nil => rfl
  | cons f rest ih =>
      rcases f with ⟨n, node⟩
      rw [gather_cons, ← ih, keptMembers]
      cases node.hasLeaf <;> cases present? members n <;> rfl

theorem shownMembers_eq (fields : List (String × Node)) (members : List (String × Json)) :
    shownMembers fields members = gather (fun f =>
      if f.2.hasLeaf then (present? members f.1).map (shown f.2) else none) fields := by
  induction fields with
  | nil => rfl
  | cons f rest ih =>
      rcases f with ⟨n, node⟩
      rw [gather_cons, ← ih, shownMembers]
      cases node.hasLeaf <;> cases present? members n <;> rfl

theorem normalMembers_eq (fields stored : List (String × Node)) (members : List (String × Json)) :
    normalMembers fields stored members = gather (fun f =>
      (field? stored f.1).bind fun past =>
        if past.hasLeaf then (present? members f.1).map (normalForm f.2 past) else none) fields := by
  induction fields with
  | nil => rfl
  | cons f rest ih =>
      rcases f with ⟨n, node⟩
      rw [gather_cons, ← ih, normalMembers]
      cases field? stored n with
      | none => cases present? members n <;> rfl
      | some past => cases present? members n <;> cases h : past.hasLeaf <;> simp [h]

theorem restrictMembers_eq (fields : List (String × Node)) (members : List (String × Json)) :
    restrictMembers fields members =
      gather (fun f => (member? members f.1).map (restrict f.2)) fields := by
  induction fields with
  | nil => rfl
  | cons f rest ih =>
      rcases f with ⟨n, node⟩
      rw [gather_cons, ← ih, restrictMembers]
      cases member? members n <;> rfl

/-- The members that are kept: those that are there and whose field has a leaf. -/
theorem present?_keptMembers (hd : (fields.map (·.1)).Nodup) (members : List (String × Json))
    (name : String) :
    present? (keptMembers fields members) name = (field? fields name).bind fun node =>
      if node.hasLeaf then (present? members name).map (kept node) else none := by
  rw [keptMembers_eq, present?_gather hd]
  intro f v hv
  split at hv
  · rcases Option.map_eq_some_iff.mp hv with ⟨w, hw, rfl⟩
    rw [isNull_kept, isNull_of_present? hw]
  · cases hv

theorem presentItems_map_kept (node : Node) (items : List Json) :
    presentItems ((presentItems items).map fun v => kept node v) =
      (presentItems items).map fun v => kept node v := by
  rw [presentItems, List.filter_eq_self]
  intro v hv
  rcases List.mem_map.mp hv with ⟨w, hw, rfl⟩
  rw [isNull_kept, (mem_presentItems.mp hw).2, Bool.not_false]

/-- What is shown of what was kept is the normal form. -/
theorem shown_kept {bound : Nat} {past now : Node} (hg : past.GrowsTo bound now)
    (hp : past.NamesUnique) (hn : now.NamesUnique) (v : Json) :
    shown now (kept past v) = normalForm now past v := by
  induction now using Node.inductionOn generalizing past v with
  | leaf column type =>
      rcases Node.growsTo_leaf_right.mp hg with ⟨type', rfl, -⟩
      cases v <;> rfl
  | array element ih =>
      rcases Node.growsTo_array_right.mp hg with ⟨stored, rfl, hg⟩
      cases v with
      | array items =>
          rw [kept, shown, normalForm, presentItems_map_kept, List.map_map, array.injEq]
          exact List.map_congr_left fun w _ => ih hg hp hn w
      | null | bool | number | string | object => rfl
  | object fields ih =>
      rcases Node.growsTo_object_right.mp hg with ⟨stored, rfl, hg⟩
      cases v with
      | object members =>
          rw [kept, shown, normalForm, object.injEq, shownMembers_eq, normalMembers_eq]
          refine gather_congr fun f hf => ?_
          rw [present?_keptMembers hp.1]
          cases hpast : field? stored f.1 with
          | none => simp only [Option.bind_none, Option.map_none, ite_self]
          | some past =>
              rcases hg.field? hpast with ⟨node, hnode, hgrow⟩
              have hfield := Schema.field?_of_mem hn.1 hf
              rw [hfield, Option.some.injEq] at hnode
              subst hnode
              rw [Option.bind_some, Option.bind_some]
              cases hleaf : past.hasLeaf with
              | false => simp only [Bool.false_eq_true, if_false, Option.map_none, ite_self]
              | true =>
                  have hkept := ih f hf hgrow
                    (Node.namesUniqueOf_iff.mp hp.2 _ (Schema.mem_of_field? hpast))
                    (Node.namesUniqueOf_iff.mp hn.2 f hf)
                  rw [hgrow.hasLeaf hleaf, if_pos rfl, if_pos rfl, Option.map_map]
                  exact Option.map_congr fun w _ => hkept w
      | null | bool | number | string | array => rfl

/-- A part of a record is shown by the part of its shape. -/
theorem restrict_shown {part whole : Node} (h : part.PartOf whole) (hl : part.Leafy)
    (hu : whole.NamesUnique) (v : Json) : restrict part (shown whole v) = shown part v := by
  induction part using Node.inductionOn generalizing whole v with
  | leaf column type =>
      rw [Node.partOf_leaf.mp h]
      rfl
  | array element ih =>
      rcases Node.partOf_array.mp h with ⟨all, rfl, hall⟩
      cases v with
      | array items =>
          rw [shown, shown, restrict, List.map_map, array.injEq]
          exact List.map_congr_left fun w _ => ih hall hl.2 hu w
      | null | bool | number | string | object => rfl
  | object fields ih =>
      rcases Node.partOf_object.mp h with ⟨all, rfl, hall⟩
      cases v with
      | object members =>
          rw [shown, shown, restrict, object.injEq, restrictMembers_eq, shownMembers_eq,
            shownMembers_eq]
          refine gather_congr fun f hf => ?_
          rcases Node.partOfFields_iff.mp hall f hf with ⟨node, hnode, hpart⟩
          have hleafy := Node.leafyFields_iff.mp hl.2 f hf
          rw [member?_gather _ hu.1, hnode, Option.bind_some, if_pos hleafy.hasLeaf,
            if_pos (hpart.hasLeaf hleafy.hasLeaf), Option.map_map]
          exact Option.map_congr fun w _ => ih f hf hpart hleafy
            (Node.namesUniqueOf_iff.mp hu.2 _ (Schema.mem_of_field? hnode)) w
      | null | bool | number | string | array => rfl

end Json

end NestedColumns

import NestedColumns.Proofs.Documents.Known
import NestedColumns.Proofs.Json.Names

/-!
# What a merge covers

A merge that succeeds has a shape for everything in its document that says something, and
that fits. What says nothing, an array without data, fits if an array of the same kind is at
its place in the end. A merge sees to that only where the array is an item before the one
that gives the shape, and not where it is a member of such an item.

## Main definitions

* `Json.At`: What a document holds at the end of a way.
* `Json.Near`: What says something fits.
* `Json.Placed`: What says nothing fits where it is.

## Theorems

* `Json.Near.fits_iff`: A document fits if what says nothing does.
* `Json.nears`, `Schema.merge_near`: After a merge what says something fits.
-/

namespace NestedColumns

namespace Json

open Schema (Node field? Growth)

/-! ### Places in a document -/

theorem present?_of_mem {members : List (String × Json)} (hd : (members.map (·.1)).Nodup)
    {m : String × Json} (hm : m ∈ members) (hnull : m.2.isNull = false) :
    present? members m.1 = some m.2 := by
  have hmember : member? members m.1 = some m.2 := by
    induction members with
    | nil => exact absurd hm List.not_mem_nil
    | cons first rest ih =>
        rw [List.map_cons, List.nodup_cons] at hd
        rw [member?_cons]
        rcases List.mem_cons.mp hm with rfl | hm
        · rw [if_pos rfl]
        · have hne : first.1 ≠ m.1 := fun heq => hd.1 (heq ▸ List.mem_map.mpr ⟨m, hm, rfl⟩)
          rw [if_neg hne, ih hd.2 hm]
  rw [present?, hmember, Option.filter_some, hnull]
  rfl

/-- A document holds a value at the end of a way. -/
inductive At : Json → Way → Json → Prop where
  | here (v : Json) : At v [] v
  | member {members : List (String × Json)} {name : String} {v w : Json} {way : Way}
      (present : present? members name = some v) (further : At v way w) :
      At (.object members) (.member name :: way) w
  | item {items : List Json} {v w : Json} {way : Way} (present : v ∈ presentItems items)
      (further : At v way w) : At (.array items) (.element :: way) w

/-- Each array without data fits the shape at its place, if there is one. -/
def Placed (node : Node) (v : Json) : Prop :=
  ∀ way items place, At v way (.array items) → anyHasData items = false →
    node.at? way = some place → Fits place (.array items)

-- What is in a document that fits does so where it is.
theorem Fits.at {node place : Node} {v w : Json} {way : Way} (h : Fits node v)
    (hat : At v way w) (hplace : node.at? way = some place) : Fits place w := by
  induction hat generalizing node with
  | here v =>
      rw [Node.at?_nil, Option.some.injEq] at hplace
      exact hplace ▸ h
  | member hpresent _ ih =>
      rcases Node.at?_cons_some hplace with ⟨fields, name, next, rfl, hname, hf, hrest⟩ |
        ⟨_, _, hname, -⟩
      · cases hname
        rcases fits_object.mp h with ⟨members, hv, -, hfits⟩
        cases hv
        exact ih (fitsFields_iff.mp hfits _ (Schema.mem_of_field? hf) _ hpresent) hrest
      · cases hname
  | item hpresent _ ih =>
      rcases Node.at?_cons_some hplace with ⟨_, _, _, _, hname, -⟩ | ⟨element, rfl, -, hrest⟩
      · cases hname
      · rcases fits_array.mp h with ⟨items, hv, hfits⟩
        cases hv
        exact ih (hfits _ hpresent) hrest

theorem hasData_eq_false {v : Json} (h : v.hasData = false) :
    v = .null ∨ ∃ items, v = .array items ∧ anyHasData items = false := by
  cases v with
  | null => exact Or.inl rfl
  | array items => exact Or.inr ⟨items, rfl, h⟩
  | bool | number | string | object => cases h

theorem hasData_of_isNull {v : Json} (h : v.isNull = true) : v.hasData = false := by
  cases v <;> first | rfl | cases h

/-! ### What says something -/

/-- What says something in a value fits a shape. -/
inductive Near : Node → Json → Prop where
  | silent (node : Node) {v : Json} (h : v.hasData = false) : Near node v
  | leaf (column : Nat) {type : DataType} {v : Json} {x : DataValue}
      (h : DataValue.ofJson? v = some x) (accepts : type.accepts x.type = true) :
      Near (.leaf column type) v
  | object {fields : List (String × Node)} {members : List (String × Json)}
      (covered : ∀ m ∈ members, m.2.hasData = true → (field? fields m.1).isSome = true)
      (fit : ∀ m ∈ members, ∀ node, field? fields m.1 = some node → Near node m.2) :
      Near (.object fields) (.object members)
  | array {element : Node} {items : List Json} (fit : ∀ item ∈ items, Near element item) :
      Near (.array element) (.array items)

theorem near_object_iff {fields : List (String × Node)} {members : List (String × Json)} :
    Near (.object fields) (.object members) ↔
      ∀ m ∈ members, Near (.object fields) (.object [m]) := by
  constructor
  · intro h m hm
    cases h with
    | silent _ h => cases h
    | object covered fit =>
        refine .object (fun m' hm' => ?_) fun m' hm' => ?_
        · rw [List.mem_singleton.mp hm']
          exact covered m hm
        · rw [List.mem_singleton.mp hm']
          exact fit m hm
  · intro h
    refine .object (fun m hm => ?_) fun m hm => ?_
    · cases h m hm with
      | silent _ h => cases h
      | object covered _ => exact covered m List.mem_cons_self
    · cases h m hm with
      | silent _ h => cases h
      | object _ fit => exact fit m List.mem_cons_self

theorem near_member {fields : List (String × Node)} {name : String} {node : Node} {v : Json}
    (hf : field? fields name = some node) (h : Near node v) :
    Near (.object fields) (.object [(name, v)]) := by
  refine .object (fun m hm _ => ?_) fun m hm node' hnode' => ?_
  · rw [List.mem_singleton.mp hm, hf]
    rfl
  · rw [List.mem_singleton.mp hm] at hnode' ⊢
    rw [hf, Option.some.injEq] at hnode'
    exact hnode' ▸ h

theorem near_member_silent (fields : List (String × Node)) (name : String) {v : Json}
    (h : v.hasData = false) : Near (.object fields) (.object [(name, v)]) := by
  refine .object (fun m hm hsays => ?_) fun m hm node _ => ?_
  · rw [List.mem_singleton.mp hm, h] at hsays
    cases hsays
  · rw [List.mem_singleton.mp hm]
    exact .silent node h

theorem Near.grow {bound : Nat} {node node' : Node} {v : Json} (h : Near node v)
    (hg : node.GrowsTo bound node') : Near node' v := by
  induction h generalizing node' with
  | silent node h => exact .silent node' h
  | @leaf column type v x h accepts =>
      rcases Node.growsTo_leaf.mp hg with ⟨type', rfl, rfl | ⟨rfl, rfl⟩⟩
      · exact .leaf column h accepts
      · refine .leaf column h ?_
        cases hx : x.type <;> rw [hx] at accepts <;> first | rfl | cases accepts
  | @object fields members covered _ ih =>
      rcases Node.growsTo_object.mp hg with ⟨fields', rfl, hg⟩
      refine .object (fun m hm hdata => ?_) fun m hm node' hnode' => ?_
      · rcases Option.isSome_iff_exists.mp (covered m hm hdata) with ⟨node, hnode⟩
        rcases hg.field? hnode with ⟨node', hnode', -⟩
        rw [hnode']
        rfl
      · cases hnode : field? fields m.1 with
        | some node =>
            rcases hg.field? hnode with ⟨later, hlater, hgrow⟩
            rw [hnode', Option.some.injEq] at hlater
            exact ih m hm node hnode (hlater ▸ hgrow)
        | none =>
            -- The field is new, so the member had nothing to say.
            refine .silent node' (Bool.eq_false_iff.mpr fun hdata => ?_)
            have hsome := covered m hm hdata
            rw [hnode] at hsome
            cases hsome
  | array _ ih =>
      rcases Node.growsTo_array.mp hg with ⟨element', rfl, hg⟩
      exact .array fun item hm => ih item hm hg

-- What says something fits, so the value does if what says nothing does.
theorem Near.fits_iff {node : Node} {v : Json} (h : Near node v) (hn : node.NamesUnique)
    (hu : v.NamesUnique) (hnull : v.isNull = false) : Fits node v ↔ Placed node v := by
  refine ⟨fun hfits way items place hat _ hplace => hfits.at hat hplace, fun hplaced => ?_⟩
  induction h with
  | silent node h =>
      rcases hasData_eq_false h with rfl | ⟨items, rfl, hitems⟩
      · cases hnull
      · exact hplaced [] items node (.here _) hitems (Node.at?_nil node)
  | leaf column h accepts => exact fits_leaf.mpr ⟨_, h, accepts⟩
  | @object fields members covered _ ih =>
      refine fits_object.mpr ⟨members, rfl, covered, fitsFields_iff.mpr fun f hf w hw => ?_⟩
      have hfield := Schema.field?_of_mem hn.1 hf
      refine ih _ (present?_mem hw) f.2 hfield (Node.namesUniqueOf_iff.mp hn.2 f hf)
        (namesUniqueMembers_iff.mp hu.2 _ (present?_mem hw)) (isNull_of_present? hw) ?_
      intro way items place hat hitems hplace
      refine hplaced (.member f.1 :: way) items place (.member hw hat) hitems ?_
      rw [Node.at?_member, hfield, Option.bind_some, hplace]
  | @array element items _ ih =>
      refine fits_array.mpr ⟨items, rfl, fun w hw => ?_⟩
      rcases mem_presentItems.mp hw with ⟨hmem, hpresent⟩
      refine ih w hmem hn (namesUniqueItems_iff.mp hu w hmem) hpresent ?_
      intro way items' place hat hitems hplace
      exact hplaced (.element :: way) items' place (.item hw hat) hitems hplace

/-! ### What a merge does for its document -/

/-- After a merge what says something in a value fits the shape it was merged into, and the
    shape that was inferred from it. -/
structure Nears (v : Json) : Prop where
  merge : ∀ {options : MergeOptions} {path : List String} {depth : Nat} {node node' : Node}
    {growth growth' : Growth},
    Schema.mergeNode options path depth node v growth = .ok (node', growth') → Near node' v
  infer : ∀ {options : MergeOptions} {path : List String} {depth : Nat} {node : Node}
    {growth growth' : Growth},
    Schema.inferNode options path depth v growth = .ok (some node, growth') → Near node v

section

variable {options : MergeOptions} {path : List String} {depth : Nat} {growth growth' : Growth}

theorem mergeItems_near {items : List Json} (hi : ∀ item ∈ items, Nears item)
    {element element' : Node}
    (h : Schema.mergeItems options path depth element items growth = .ok (element', growth')) :
    ∀ item ∈ items, Near element' item := by
  induction items generalizing element growth with
  | nil => exact fun item hm => absurd hm List.not_mem_nil
  | cons item rest ih =>
      have hrest := fun item hm => hi item (List.mem_cons_of_mem _ hm)
      rw [Schema.mergeItems] at h
      split at h
      · next hnull =>
        exact List.forall_mem_cons.mpr ⟨.silent _ (hasData_of_isNull hnull), ih hrest h⟩
      · rcases Outcome.bind_eq_ok.mp h with ⟨⟨middle, growth₁⟩, hm, hr⟩
        have hext := Schema.mergeItems_extends (fun item _ => Schema.merges item) hr
        exact List.forall_mem_cons.mpr
          ⟨((hi item List.mem_cons_self).merge hm).grow hext.grows, ih hrest hr⟩

-- The items before the one that gives the shape say nothing.
theorem inferItems_near {items : List Json} (hi : ∀ item ∈ items, Nears item) {seen count : Nat}
    {node : Node}
    (h : Schema.inferItems options path depth seen items growth =
      .ok (some (node, count), growth')) : ∀ item ∈ items, Near node item := by
  induction items generalizing growth seen with
  | nil => simp only [Schema.inferItems, Except.ok.injEq, Prod.mk.injEq, reduceCtorEq,
      false_and] at h
  | cons item rest ih =>
      have hrest := fun item hm => hi item (List.mem_cons_of_mem _ hm)
      rw [Schema.inferItems] at h
      split at h
      · next hnull =>
        exact List.forall_mem_cons.mpr ⟨.silent _ (hasData_of_isNull hnull), ih hrest h⟩
      · rcases Outcome.bind_eq_ok.mp h with ⟨⟨node?, growth₁⟩, hn, hr⟩
        cases node? with
        | none =>
            have hsilent := (((fitsUnchanged item).infer hn).2 rfl).2
            exact List.forall_mem_cons.mpr ⟨.silent _ hsilent, ih hrest hr⟩
        | some first =>
            rcases Outcome.bind_eq_ok.mp hr with ⟨⟨node', growth₂⟩, hm, hr⟩
            simp only [pure, Except.pure, Except.ok.injEq, Prod.mk.injEq, Option.some.injEq] at hr
            rcases hr with ⟨⟨rfl, -⟩, -⟩
            have hext := Schema.mergeItems_extends (fun item _ => Schema.merges item) hm
            exact List.forall_mem_cons.mpr
              ⟨((hi item List.mem_cons_self).infer hn).grow hext.grows, mergeItems_near hrest hm⟩

-- Each member is near the field it has left behind, and fields only grow afterwards.
theorem mergeMembers_near {members : List (String × Json)} (hm : ∀ m ∈ members, Nears m.2)
    {fields fields' : List (String × Node)}
    (h : Schema.mergeMembers options path depth fields members growth =
      .ok (fields', growth')) : Near (.object fields') (.object members) := by
  refine near_object_iff.mpr ?_
  induction members generalizing fields growth with
  | nil => exact fun m hm => absurd hm List.not_mem_nil
  | cons m rest ih =>
      rcases m with ⟨name, v⟩
      have hrest := fun m hr => hm m (List.mem_cons_of_mem _ hr)
      have hfirst : Nears v := hm (name, v) List.mem_cons_self
      rw [Schema.mergeMembers] at h
      refine List.forall_mem_cons.mpr ?_
      split at h
      · next hnull => exact ⟨near_member_silent _ _ (hasData_of_isNull hnull), ih hrest h⟩
      · split at h
        · next node hf =>
          rcases Outcome.bind_eq_ok.mp h with ⟨⟨node', growth₁⟩, hn, hr⟩
          have hext := Schema.mergeMembers_extends (fun m _ => Schema.merges m.2) hr
          exact ⟨(near_member (Schema.field?_setField hf node') (hfirst.merge hn)).grow hext.grows,
            ih hrest hr⟩
        · next hf =>
          rcases Outcome.bind_eq_ok.mp h with ⟨⟨node?, growth₁⟩, hn, hr⟩
          cases node? with
          | none =>
              exact ⟨near_member_silent _ _ (((fitsUnchanged v).infer hn).2 rfl).2, ih hrest hr⟩
          | some node =>
              have hext := Schema.mergeMembers_extends (fun m _ => Schema.merges m.2) hr
              exact ⟨(near_member (Schema.field?_append hf node) (hfirst.infer hn)).grow hext.grows,
                ih hrest hr⟩

theorem mergeLeaf_near {policy : ConflictPolicy} {column : Nat} {type : DataType} {v : Json}
    {node : Node} (h : Schema.mergeLeaf policy path column type v growth = .ok (node, growth')) :
    Near node v := by
  simp only [Schema.mergeLeaf] at h
  split at h
  · split at h
    · next hnull => exact .silent node (hasData_of_isNull hnull)
    · simp only [reduceCtorEq] at h
  · next x hx =>
    split at h
    · next ha =>
      simp only [Except.ok.injEq, Prod.mk.injEq] at h
      rw [← h.1]
      exact .leaf column hx ha
    · next hn =>
      split at h
      · next wider hw =>
        simp only [Except.ok.injEq, Prod.mk.injEq] at h
        rw [← h.1]
        rcases Schema.widen_of_refused hn hw with ⟨rfl, rfl⟩
        refine .leaf column hx ?_
        cases hx' : x.type <;> rw [hx'] at hn hw <;> first | rfl | cases hw
      · simp only [reduceCtorEq] at h

end

/-- After a merge what says something fits. -/
theorem nears (v : Json) : Nears v := by
  induction v using inductionParts with
  | parts v harray hobject =>
      constructor
      · intro options path depth node node' growth growth' h
        rcases (Schema.mergeNode_cases h).2 with ⟨fields, fields', ms, rfl, rfl, rfl, hr⟩ |
          ⟨element, element', items, rfl, rfl, rfl, hr⟩ | ⟨column, type, rfl, hr⟩
        · exact mergeMembers_near (hobject ms rfl) hr
        · exact .array (mergeItems_near (harray items rfl) hr)
        · exact mergeLeaf_near hr
      · intro options path depth node growth growth' h
        rcases (Schema.inferNode_cases h).2 with ⟨-, hn, -⟩ | ⟨ms, fields, rfl, hn, hr⟩ |
          ⟨items, -, hn, -⟩ | ⟨items, element, leading, element', growth₁, rfl, hn, hf, hl⟩ |
          ⟨x, hx, hn, -⟩
        · cases hn
        · cases hn
          exact mergeMembers_near (hobject ms rfl) hr
        · cases hn
        · cases hn
          have hext := Schema.mergeLeading_extends (fun item _ => Schema.merges item) hl
          exact .array fun item hm =>
            (inferItems_near (harray items rfl) hf item hm).grow hext.grows
        · cases hn
          refine .leaf _ hx ?_
          cases x.type <;> rfl

end Json

namespace Schema

variable {options : MergeOptions} {schema : Schema} {document : Json} {merged : Option Schema}

-- What says something in a document fits the schema that its merge has led to.
theorem merge_near (hs : schema.root.NamesUnique)
    (h : merge options schema document = .ok merged) :
    Json.Near (merged.getD schema).root document := by
  cases document with
  | object members =>
      rcases Outcome.bind_eq_ok.mp h with ⟨⟨fields, growth⟩, hm, hr⟩
      simp only [pure, Except.pure, Except.ok.injEq] at hr
      have hnear := Json.mergeMembers_near (fun m _ => Json.nears m.2) hm
      split at hr
      · rw [← hr]
        exact hnear
      · next hc =>
        rw [Bool.not_eq_true] at hc
        have hsame := ((Json.mergeMembers_unchanged (fun m _ => Json.fitsUnchanged m.2) hm hc).2
          hs).1
        rw [hsame] at hnear
        rw [← hr]
        exact hnear
  | null | bool | number | string | array => simp only [merge, reduceCtorEq] at h

end Schema

end NestedColumns

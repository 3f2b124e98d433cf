import NestedColumns.Proofs.Documents.Shredding
import NestedColumns.Proofs.Schema.Merging

/-!
# Documents that fit

A document that fits a schema can be followed along every way of what the schema
grows into: where it goes on, it does so in a value of the right kind.

A document that a merge leaves a schema unchanged for fits it, since whatever
the schema does not know would have been added.

## Theorems

* `Json.Fits.conforms`: What is kept can be followed along later ways.
* `Json.fits_of_merge`: A document that changes nothing fits.
-/

namespace NestedColumns

namespace Json

open Schema (Node field? Growth)

/-- What is kept of a value that fits can be followed along the ways of a shape that
    has grown out of its own. -/
theorem Fits.conforms {bound : Nat} {past now : Node} {v : Json} (h : Fits past v)
    (hg : past.GrowsTo bound now) (hu : past.NamesUnique) {way : Way} {column : Nat}
    {type : DataType} (hw : now.at? way = some (.leaf column type)) :
    Conforms way (kept past v) := by
  induction way generalizing past now v with
  | nil =>
      rw [Node.at?_nil, Option.some.injEq] at hw
      subst hw
      rcases Node.growsTo_leaf_right.mp hg with ⟨type', rfl, -⟩
      rcases fits_leaf.mp h with ⟨x, hx, -⟩
      have hkept : kept (.leaf column type') v = v := by cases v <;> rfl
      rw [hkept, Conforms, hx]
      exact Option.isSome_some
  | cons hop way ih =>
      rcases Node.at?_cons_some hw with ⟨fields, name, next, rfl, rfl, hf, hr⟩ |
        ⟨element, rfl, rfl, hr⟩
      · rcases Node.growsTo_object_right.mp hg with ⟨stored, rfl, hg⟩
        rcases fits_object.mp h with ⟨members, rfl, -, hfits⟩
        intro w hkept
        rw [present?_keptMembers hu.1, Option.bind_eq_some_iff] at hkept
        rcases hkept with ⟨past, hpast, hkept⟩
        split at hkept
        · rcases Option.map_eq_some_iff.mp hkept with ⟨x, hx, rfl⟩
          rcases hg.field? hpast with ⟨next', hnext, hgrow⟩
          rw [hf, Option.some.injEq] at hnext
          subst hnext
          have hmem := Schema.mem_of_field? hpast
          exact ih (fitsFields_iff.mp hfits _ hmem x hx) hgrow
            (Node.namesUniqueOf_iff.mp hu.2 _ hmem) hr
        · cases hkept
      · rcases Node.growsTo_array_right.mp hg with ⟨stored, rfl, hg⟩
        rcases fits_array.mp h with ⟨items, rfl, hfits⟩
        intro w hkept
        rw [presentItems_map_kept] at hkept
        rcases List.mem_map.mp hkept with ⟨x, hx, rfl⟩
        exact ih (hfits x hx) hg hu hr

/-! ### Documents that change nothing -/

theorem setField_same {fields : List (String × Node)} {name : String} {node : Node}
    (h : field? fields name = some node) : Schema.setField name node fields = fields := by
  induction fields with
  | nil => rfl
  | cons f rest ih =>
      rcases f with ⟨n, old⟩
      rw [Schema.field?_cons] at h
      by_cases hn : n = name
      · rw [if_pos hn, Option.some.injEq] at h
        rw [Schema.setField, if_pos hn, h]
      · rw [if_neg hn] at h
        rw [Schema.setField, if_neg hn, ih h]

/-- A value that a merge leaves a shape unchanged for fits it, and one from which no
    shape can be inferred has no data. Neither takes a number for a column. -/
structure FitsUnchanged (v : Json) : Prop where
  merge : ∀ {options : MergeOptions} {path : List String} {depth : Nat} {node node' : Node}
    {growth growth' : Growth},
    Schema.mergeNode options path depth node v growth = .ok (node', growth') → v.isNull = false →
    growth'.changed = false → growth' = growth ∧ (node.NamesUnique → node' = node ∧ Fits node v)
  infer : ∀ {options : MergeOptions} {path : List String} {depth : Nat} {node? : Option Node}
    {growth growth' : Growth},
    Schema.inferNode options path depth v growth = .ok (node?, growth') →
    (growth'.changed = false → growth.changed = false) ∧
      (node? = none → growth' = growth ∧ v.hasData = false)

section

variable {options : MergeOptions} {path : List String} {depth : Nat} {growth growth' : Growth}

theorem mergeItems_unchanged {items : List Json} (hi : ∀ item ∈ items, FitsUnchanged item)
    {element element' : Node}
    (h : Schema.mergeItems options path depth element items growth = .ok (element', growth'))
    (hc : growth'.changed = false) :
    growth' = growth ∧
      (element.NamesUnique → element' = element ∧ ∀ v ∈ presentItems items, Fits element v) := by
  induction items generalizing element growth with
  | nil =>
      simp only [Schema.mergeItems, Except.ok.injEq, Prod.mk.injEq] at h
      rw [h.1, h.2]
      exact ⟨rfl, fun _ => ⟨rfl, fun v hv => absurd hv List.not_mem_nil⟩⟩
  | cons item rest ih =>
      have hrest := fun item hm => hi item (List.mem_cons_of_mem _ hm)
      rw [Schema.mergeItems] at h
      split at h
      · next hnull =>
        rcases ih hrest h with ⟨hg, hall⟩
        refine ⟨hg, fun hu => ⟨(hall hu).1, fun v hv => ?_⟩⟩
        rw [presentItems, List.filter_cons_of_neg (by simp only [hnull, Bool.not_true,
          Bool.false_eq_true, not_false_eq_true])] at hv
        exact (hall hu).2 v hv
      · next hnull =>
        rw [Bool.not_eq_true] at hnull
        rcases Outcome.bind_eq_ok.mp h with ⟨⟨middle, growth₁⟩, hm, hr⟩
        rcases ih hrest hr with ⟨rfl, hall⟩
        rcases (hi item List.mem_cons_self).merge hm hnull hc with ⟨hg, hfirst⟩
        refine ⟨hg, fun hu => ?_⟩
        rcases hfirst hu with ⟨rfl, hfits⟩
        refine ⟨(hall hu).1, fun v hv => ?_⟩
        rw [presentItems, List.filter_cons_of_pos (by rw [hnull, Bool.not_false])] at hv
        rcases List.mem_cons.mp hv with rfl | hv
        · exact hfits
        · exact (hall hu).2 v hv

theorem mergeLeading_unchanged {items : List Json} (hi : ∀ item ∈ items, FitsUnchanged item)
    {count : Nat} {element element' : Node}
    (h : Schema.mergeLeading options path depth element count items growth =
      .ok (element', growth')) (hc : growth'.changed = false) : growth' = growth := by
  induction items generalizing element growth count with
  | nil =>
      cases count <;>
        (simp only [Schema.mergeLeading, Except.ok.injEq, Prod.mk.injEq] at h
         exact h.2.symm)
  | cons item rest ih =>
      have hrest := fun item hm => hi item (List.mem_cons_of_mem _ hm)
      cases count with
      | zero =>
          simp only [Schema.mergeLeading, Except.ok.injEq, Prod.mk.injEq] at h
          exact h.2.symm
      | succ count =>
          rw [Schema.mergeLeading] at h
          split at h
          · exact ih hrest h
          · next hnull =>
            rw [Bool.not_eq_true] at hnull
            rcases Outcome.bind_eq_ok.mp h with ⟨⟨middle, growth₁⟩, hm, hr⟩
            rcases ih hrest hr with rfl
            exact ((hi item List.mem_cons_self).merge hm hnull hc).1

theorem mergeMembers_unchanged {members : List (String × Json)}
    (hm : ∀ m ∈ members, FitsUnchanged m.2) {fields fields' : List (String × Node)}
    (h : Schema.mergeMembers options path depth fields members growth = .ok (fields', growth'))
    (hc : growth'.changed = false) :
    growth' = growth ∧ ((Node.object fields).NamesUnique → fields' = fields ∧
      ∀ m ∈ members, m.2.isNull = false →
        (∃ node, field? fields m.1 = some node ∧ Fits node m.2) ∨
          field? fields m.1 = none ∧ m.2.hasData = false) := by
  induction members generalizing fields growth with
  | nil =>
      simp only [Schema.mergeMembers, Except.ok.injEq, Prod.mk.injEq] at h
      rw [h.1, h.2]
      exact ⟨rfl, fun _ => ⟨rfl, fun m hm => absurd hm List.not_mem_nil⟩⟩
  | cons m rest ih =>
      rcases m with ⟨name, v⟩
      have hrest := fun m hr => hm m (List.mem_cons_of_mem _ hr)
      have hfirst : FitsUnchanged v := hm (name, v) List.mem_cons_self
      rw [Schema.mergeMembers] at h
      split at h
      · next hnull =>
        rcases ih hrest h with ⟨hg, hall⟩
        refine ⟨hg, fun hu => ⟨(hall hu).1, fun m hr hn => ?_⟩⟩
        rcases List.mem_cons.mp hr with rfl | hr
        · rw [hnull] at hn
          cases hn
        · exact (hall hu).2 m hr hn
      · next hnull =>
        rw [Bool.not_eq_true] at hnull
        split at h
        · next node hf =>
          rcases Outcome.bind_eq_ok.mp h with ⟨⟨node', growth₁⟩, hn, hr⟩
          rcases ih hrest hr with ⟨rfl, hall⟩
          rcases hfirst.merge hn hnull hc with ⟨hg, hsame⟩
          refine ⟨hg, fun hu => ?_⟩
          rcases hsame (Node.namesUniqueOf_iff.mp hu.2 _ (Schema.mem_of_field? hf)) with
            ⟨rfl, hfits⟩
          simp only [setField_same hf] at hall
          refine ⟨(hall hu).1, fun m hr hn => ?_⟩
          rcases List.mem_cons.mp hr with rfl | hr
          · exact Or.inl ⟨node', hf, hfits⟩
          · exact (hall hu).2 m hr hn
        · next hf =>
          rcases Outcome.bind_eq_ok.mp h with ⟨⟨node?, growth₁⟩, hn, hr⟩
          cases node? with
          | some node =>
              -- A field was added, and that is a change.
              rw [(ih hrest hr).1] at hc
              cases hc
          | none =>
              rcases ih hrest hr with ⟨rfl, hall⟩
              rcases (hfirst.infer hn).2 rfl with ⟨hg, hdata⟩
              refine ⟨hg, fun hu => ⟨(hall hu).1, fun m hr hn => ?_⟩⟩
              rcases List.mem_cons.mp hr with rfl | hr
              · exact Or.inr ⟨hf, hdata⟩
              · exact (hall hu).2 m hr hn

theorem inferItems_unchanged {items : List Json} (hi : ∀ item ∈ items, FitsUnchanged item)
    {seen : Nat} {found : Option (Node × Nat)}
    (h : Schema.inferItems options path depth seen items growth = .ok (found, growth')) :
    (growth'.changed = false → growth.changed = false) ∧
      (found = none → growth' = growth ∧ anyHasData items = false) := by
  induction items generalizing growth seen with
  | nil =>
      simp only [Schema.inferItems, Except.ok.injEq, Prod.mk.injEq] at h
      rw [h.2]
      exact ⟨id, fun _ => ⟨rfl, rfl⟩⟩
  | cons item rest ih =>
      have hrest := fun item hm => hi item (List.mem_cons_of_mem _ hm)
      rw [Schema.inferItems] at h
      split at h
      · next hnull =>
        have hdata : item.hasData = false := by cases item <;> first | rfl | cases hnull
        refine ⟨(ih hrest h).1, fun hf => ?_⟩
        rw [anyHasData, hdata, Bool.false_or]
        exact (ih hrest h).2 hf
      · rcases Outcome.bind_eq_ok.mp h with ⟨⟨node?, growth₁⟩, hn, hr⟩
        rcases (hi item List.mem_cons_self).infer hn with ⟨hg, hdata⟩
        cases node? with
        | none =>
            rcases ih hrest hr with ⟨hg', hdata'⟩
            refine ⟨fun hc => hg (hg' hc), fun hf => ?_⟩
            rw [anyHasData, (hdata rfl).2, Bool.false_or, (hdata' hf).1]
            exact ⟨(hdata rfl).1, (hdata' hf).2⟩
        | some node =>
            rcases Outcome.bind_eq_ok.mp hr with ⟨⟨node', growth₂⟩, hm, hr⟩
            simp only [pure, Except.pure, Except.ok.injEq, Prod.mk.injEq] at hr
            rcases hr with ⟨rfl, rfl⟩
            refine ⟨fun hc => hg ?_, fun hf => by cases hf⟩
            rw [← (mergeItems_unchanged hrest hm hc).1]
            exact hc

theorem mergeLeaf_unchanged {policy : ConflictPolicy} {column : Nat} {type : DataType} {v : Json}
    {node : Node} (h : Schema.mergeLeaf policy path column type v growth = .ok (node, growth'))
    (hnull : v.isNull = false) (hc : growth'.changed = false) :
    growth' = growth ∧ node = .leaf column type ∧ Fits (.leaf column type) v := by
  simp only [Schema.mergeLeaf] at h
  split at h
  · rw [hnull] at h
    simp only [Bool.false_eq_true, if_false, reduceCtorEq] at h
  · next x hx =>
    split at h
    · next ha =>
      simp only [Except.ok.injEq, Prod.mk.injEq] at h
      exact ⟨h.2.symm, h.1.symm, fits_leaf.mpr ⟨x, hx, ha⟩⟩
    · split at h
      · simp only [Except.ok.injEq, Prod.mk.injEq] at h
        rw [← h.2] at hc
        cases hc
      · simp only [reduceCtorEq] at h

end

/-- An object fits if each of its members fits its field or says nothing. -/
theorem fits_of_members {fields : List (String × Node)} {members : List (String × Json)}
    (hu : (Node.object fields).NamesUnique)
    (hm : ∀ m ∈ members, m.2.isNull = false →
      (∃ node, field? fields m.1 = some node ∧ Fits node m.2) ∨
        field? fields m.1 = none ∧ m.2.hasData = false) :
    Fits (.object fields) (.object members) := by
  refine fits_object.mpr ⟨members, rfl, ?_, ?_⟩
  · intro m hmem hdata
    have hpresent : m.2.isNull = false := by
      cases hv : m.2 <;> first | rfl | (rw [hv] at hdata; cases hdata)
    rcases hm m hmem hpresent with ⟨node, hf, -⟩ | ⟨-, hno⟩
    · rw [hf]
      rfl
    · rw [hno] at hdata
      cases hdata
  · rw [fitsFields_iff]
    intro f hf w hw
    have hfield := Schema.field?_of_mem hu.1 hf
    rcases hm _ (present?_mem hw) (isNull_of_present? hw) with ⟨node, hnode, hfits⟩ | ⟨hno, -⟩
    · rw [hfield, Option.some.injEq] at hnode
      rw [hnode]
      exact hfits
    · rw [hfield] at hno
      cases hno

theorem fitsUnchanged (v : Json) : FitsUnchanged v := by
  induction v using inductionParts with
  | parts v harray hobject =>
      constructor
      · intro options path depth node node' growth growth' h hnull hc
        rcases (Schema.mergeNode_cases h).2 with ⟨fields, fields', ms, rfl, rfl, rfl, hr⟩ |
          ⟨element, element', items, rfl, rfl, rfl, hr⟩ | ⟨column, type, rfl, hr⟩
        · rcases mergeMembers_unchanged (hobject ms rfl) hr hc with ⟨hg, hall⟩
          refine ⟨hg, fun hu => ?_⟩
          rcases hall hu with ⟨rfl, hfit⟩
          exact ⟨rfl, fits_of_members hu hfit⟩
        · rcases mergeItems_unchanged (harray items rfl) hr hc with ⟨hg, hall⟩
          refine ⟨hg, fun hu => ?_⟩
          rcases hall hu with ⟨rfl, hfit⟩
          exact ⟨rfl, fits_array.mpr ⟨_, rfl, hfit⟩⟩
        · rcases mergeLeaf_unchanged hr hnull hc with ⟨hg, hsame⟩
          exact ⟨hg, fun _ => hsame⟩
      · intro options path depth node? growth growth' h
        rcases (Schema.inferNode_cases h).2 with ⟨rfl, rfl, rfl⟩ | ⟨ms, fields, hv, rfl, hr⟩ |
          ⟨items, rfl, rfl, hr⟩ | ⟨items, element, leading, element', growth₁, hv, rfl, hf, hl⟩ |
          ⟨x, hx, rfl, rfl⟩
        · exact ⟨id, fun _ => ⟨rfl, rfl⟩⟩
        · refine ⟨fun hc => ?_, fun hn => by cases hn⟩
          rw [← (mergeMembers_unchanged (hobject ms hv) hr hc).1]
          exact hc
        · rcases inferItems_unchanged (harray items rfl) hr with ⟨hg, hdata⟩
          exact ⟨hg, fun _ => hdata rfl⟩
        · refine ⟨fun hc => (inferItems_unchanged (harray items hv) hf).1 ?_, fun hn => by cases hn⟩
          rw [← mergeLeading_unchanged (harray items hv) hl hc]
          exact hc
        · exact ⟨id, fun hn => by cases hn⟩

/-- A document that changes nothing fits. -/
theorem fits_of_merge {options : MergeOptions} {schema : Schema} {document : Json}
    (hu : schema.root.NamesUnique) (h : Schema.merge options schema document = .ok none) :
    Fits schema.root document := by
  cases document with
  | object members =>
      rcases Outcome.bind_eq_ok.mp h with ⟨⟨fields, growth⟩, hm, hr⟩
      simp only [pure, Except.pure, Except.ok.injEq] at hr
      split at hr
      · cases hr
      · next hc =>
        rw [Bool.not_eq_true] at hc
        exact fits_of_members hu
          ((mergeMembers_unchanged (fun m _ => fitsUnchanged m.2) hm hc).2 hu).2
  | null | bool | number | string | array => simp only [Schema.merge, reduceCtorEq] at h

end Json

end NestedColumns

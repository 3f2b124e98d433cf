import NestedColumns.Proofs.Documents.Covering
import NestedColumns.Proofs.Levels

/-!
# Documents that are merged again

A document that was merged is not too deep. So if the schema covers it, merging it again
goes through and finds nothing to do; and if that finds nothing to do, the schema covers it.
Both are so exactly if each array without data fits where it is.

## Main definitions

* `Json.Visited`: A part of a document that was merged.

## Theorems

* `Json.Visited.levels_le`: What was merged is not too deep.
* `Json.stays`: A value that is not too deep and fits leaves its shape as it is.
* `Schema.merge_covers_iff`: When a schema covers the document it was made for.
-/

namespace NestedColumns

namespace Json

open Schema (Node field? Growth)

/-! ### What was merged -/

/-- A value was merged or had its shape inferred, so it is not too deep. -/
def Visited (options : MergeOptions) (path : List String) (depth : Nat) (v : Json) : Prop :=
  (∃ node growth result, Schema.mergeNode options path depth node v growth = .ok result) ∨
    ∃ growth result, Schema.inferNode options path depth v growth = .ok result

section

variable {options : MergeOptions} {path : List String} {depth : Nat} {growth growth' : Growth}

theorem visited_of_mergeMembers {members : List (String × Json)}
    {fields fields' : List (String × Node)}
    (h : Schema.mergeMembers options path depth fields members growth =
      .ok (fields', growth')) :
    ∀ m ∈ members, m.2.isNull = false → Visited options (path ++ [m.1]) (depth + 1) m.2 := by
  induction members generalizing fields growth with
  | nil => exact fun m hm => absurd hm List.not_mem_nil
  | cons m rest ih =>
      rcases m with ⟨name, v⟩
      rw [Schema.mergeMembers] at h
      refine List.forall_mem_cons.mpr ?_
      split at h
      · next hnull =>
        refine ⟨fun hpresent => ?_, ih h⟩
        rw [hnull] at hpresent
        cases hpresent
      · split at h
        · next node hf =>
          rcases Outcome.bind_eq_ok.mp h with ⟨⟨node', growth₁⟩, hn, hr⟩
          exact ⟨fun _ => Or.inl ⟨_, _, _, hn⟩, ih hr⟩
        · next hf =>
          rcases Outcome.bind_eq_ok.mp h with ⟨⟨node?, growth₁⟩, hn, hr⟩
          cases node? with
          | none => exact ⟨fun _ => Or.inr ⟨_, _, hn⟩, ih hr⟩
          | some node => exact ⟨fun _ => Or.inr ⟨_, _, hn⟩, ih hr⟩

theorem visited_of_mergeItems {items : List Json} {element element' : Node}
    (h : Schema.mergeItems options path depth element items growth = .ok (element', growth')) :
    ∀ item ∈ items, item.isNull = false → Visited options path depth item := by
  induction items generalizing element growth with
  | nil => exact fun item hm => absurd hm List.not_mem_nil
  | cons item rest ih =>
      rw [Schema.mergeItems] at h
      refine List.forall_mem_cons.mpr ?_
      split at h
      · next hnull =>
        refine ⟨fun hpresent => ?_, ih h⟩
        rw [hnull] at hpresent
        cases hpresent
      · rcases Outcome.bind_eq_ok.mp h with ⟨⟨middle, growth₁⟩, hm, hr⟩
        exact ⟨fun _ => Or.inl ⟨_, _, _, hm⟩, ih hr⟩

theorem visited_of_inferItems {items : List Json} {seen : Nat} {found : Option (Node × Nat)}
    (h : Schema.inferItems options path depth seen items growth = .ok (found, growth')) :
    ∀ item ∈ items, item.isNull = false → Visited options path depth item := by
  induction items generalizing growth seen with
  | nil => exact fun item hm => absurd hm List.not_mem_nil
  | cons item rest ih =>
      rw [Schema.inferItems] at h
      refine List.forall_mem_cons.mpr ?_
      split at h
      · next hnull =>
        refine ⟨fun hpresent => ?_, ih h⟩
        rw [hnull] at hpresent
        cases hpresent
      · rcases Outcome.bind_eq_ok.mp h with ⟨⟨node?, growth₁⟩, hn, hr⟩
        cases node? with
        | none => exact ⟨fun _ => Or.inr ⟨_, _, hn⟩, ih hr⟩
        | some first =>
            rcases Outcome.bind_eq_ok.mp hr with ⟨⟨node', growth₂⟩, hm, -⟩
            exact ⟨fun _ => Or.inr ⟨_, _, hn⟩, visited_of_mergeItems hm⟩

theorem Visited.depth_le {v : Json} (h : Visited options path depth v) :
    depth ≤ options.maxLevel := by
  rcases h with ⟨node, growth, ⟨node', growth'⟩, h⟩ | ⟨growth, ⟨node?, growth'⟩, h⟩
  · exact (Schema.mergeNode_cases h).1
  · exact (Schema.inferNode_cases h).1

theorem Visited.member {members : List (String × Json)}
    (h : Visited options path depth (.object members)) :
    ∀ m ∈ members, m.2.isNull = false → Visited options (path ++ [m.1]) (depth + 1) m.2 := by
  rcases h with ⟨node, growth, ⟨node', growth'⟩, h⟩ | ⟨growth, ⟨node?, growth'⟩, h⟩
  · rcases (Schema.mergeNode_cases h).2 with ⟨fields, fields', ms, rfl, hv, rfl, hr⟩ |
      ⟨element, element', items, rfl, hv, -⟩ | ⟨column, type, rfl, hr⟩
    · cases hv
      exact visited_of_mergeMembers hr
    · cases hv
    · simp only [Schema.mergeLeaf, DataValue.ofJson?, isNull, Bool.false_eq_true, if_false,
        reduceCtorEq] at hr
  · rcases (Schema.inferNode_cases h).2 with ⟨hv, -⟩ | ⟨ms, fields, hv, -, hr⟩ | ⟨items, hv, -⟩ |
      ⟨items, element, leading, element', growth₁, hv, -⟩ | ⟨x, hv, -⟩
    · cases hv
    · cases hv
      exact visited_of_mergeMembers hr
    · cases hv
    · cases hv
    · cases hv

theorem Visited.item {items : List Json} (h : Visited options path depth (.array items)) :
    ∀ item ∈ items, item.isNull = false → Visited options path (depth + 1) item := by
  rcases h with ⟨node, growth, ⟨node', growth'⟩, h⟩ | ⟨growth, ⟨node?, growth'⟩, h⟩
  · rcases (Schema.mergeNode_cases h).2 with ⟨fields, fields', ms, rfl, hv, -⟩ |
      ⟨element, element', items, rfl, hv, rfl, hr⟩ | ⟨column, type, rfl, hr⟩
    · cases hv
    · cases hv
      exact visited_of_mergeItems hr
    · simp only [Schema.mergeLeaf, DataValue.ofJson?, isNull, Bool.false_eq_true, if_false,
        reduceCtorEq] at hr
  · rcases (Schema.inferNode_cases h).2 with ⟨hv, -⟩ | ⟨ms, fields, hv, -⟩ |
      ⟨items, hv, -, hr⟩ | ⟨items, element, leading, element', growth₁, hv, -, hf, -⟩ | ⟨x, hv, -⟩
    · cases hv
    · cases hv
    · cases hv
      exact visited_of_inferItems hr
    · cases hv
      exact visited_of_inferItems hf
    · cases hv

/-- What was merged is not too deep. -/
theorem Visited.levels_le {v : Json} (h : Visited options path depth v) :
    depth + v.levels ≤ options.maxLevel := by
  have hd := h.depth_le
  induction v using inductionOn generalizing path depth with
  | null | bool | number | string => exact hd
  | array items ih =>
      have hitems : levelsOfItems items ≤ options.maxLevel - depth := by
        refine levelsOfItems_le.mpr fun item hm hnull => ?_
        have hitem := ih item hm (h.item item hm hnull) (h.item item hm hnull).depth_le
        omega
      rw [levels]
      omega
  | object members ih =>
      have hmembers : levelsOfMembers members ≤ options.maxLevel - depth := by
        refine levelsOfMembers_le.mpr fun m hm hnull => ?_
        have hmember := ih m hm (h.member m hm hnull) (h.member m hm hnull).depth_le
        omega
      rw [levels]
      omega

/-! ### What fits already -/

/-- Merging a value that fits and is not too deep leaves its shape as it is, and one that says
    nothing gives no shape. -/
structure Stays (v : Json) : Prop where
  merge : ∀ {options : MergeOptions} {path : List String} {depth : Nat} {node : Node}
    (growth : Growth), depth + v.levels ≤ options.maxLevel → Fits node v → node.NamesUnique →
    v.NamesUnique → Schema.mergeNode options path depth node v growth = .ok (node, growth)
  infer : ∀ {options : MergeOptions} {path : List String} {depth : Nat} (growth : Growth),
    depth + v.levels ≤ options.maxLevel → v.hasData = false →
    Schema.inferNode options path depth v growth = .ok (none, growth)

theorem mergeItems_same {items : List Json} (hi : ∀ item ∈ items, Stays item) {element : Node}
    (hdeep : ∀ item ∈ items, item.isNull = false → depth + item.levels ≤ options.maxLevel)
    (hfits : ∀ item ∈ presentItems items, Fits element item) (hn : element.NamesUnique)
    (hu : ∀ item ∈ items, item.NamesUnique) :
    Schema.mergeItems options path depth element items growth = .ok (element, growth) := by
  induction items with
  | nil => rw [Schema.mergeItems]
  | cons item rest ih =>
      rw [List.forall_mem_cons] at hi hdeep hu
      rw [Schema.mergeItems]
      cases hnull : item.isNull with
      | true =>
          rw [presentItems, List.filter_cons_of_neg (by simp only [hnull, Bool.not_true,
            Bool.false_eq_true, not_false_eq_true])] at hfits
          rw [if_pos rfl]
          exact ih hi.2 hdeep.2 hfits hu.2
      | false =>
          rw [presentItems, List.filter_cons_of_pos (by rw [hnull, Bool.not_false]),
            List.forall_mem_cons] at hfits
          rw [if_neg Bool.false_ne_true]
          exact Outcome.bind_eq_ok.mpr ⟨_, hi.1.merge growth (hdeep.1 hnull) hfits.1 hn hu.1,
            ih hi.2 hdeep.2 hfits.2 hu.2⟩

theorem inferItems_same {items : List Json} (hi : ∀ item ∈ items, Stays item)
    (hdeep : ∀ item ∈ items, item.isNull = false → depth + item.levels ≤ options.maxLevel)
    (hsilent : anyHasData items = false) (seen : Nat) :
    Schema.inferItems options path depth seen items growth = .ok (none, growth) := by
  induction items generalizing seen with
  | nil => rw [Schema.inferItems]
  | cons item rest ih =>
      rw [List.forall_mem_cons] at hi hdeep
      rw [anyHasData, Bool.or_eq_false_iff] at hsilent
      rw [Schema.inferItems]
      cases hnull : item.isNull with
      | true =>
          rw [if_pos rfl]
          exact ih hi.2 hdeep.2 hsilent.2 (seen + 1)
      | false =>
          rw [if_neg Bool.false_ne_true]
          exact Outcome.bind_eq_ok.mpr ⟨_, hi.1.infer growth (hdeep.1 hnull) hsilent.1,
            ih hi.2 hdeep.2 hsilent.2 (seen + 1)⟩

theorem mergeMembers_same {members : List (String × Json)} (hm : ∀ m ∈ members, Stays m.2)
    {fields : List (String × Node)}
    (hdeep : ∀ m ∈ members, m.2.isNull = false → depth + 1 + m.2.levels ≤ options.maxLevel)
    (hfits : ∀ m ∈ members, m.2.isNull = false →
      (∃ node, field? fields m.1 = some node ∧ node.NamesUnique ∧ Fits node m.2) ∨
        field? fields m.1 = none ∧ m.2.hasData = false)
    (hu : ∀ m ∈ members, m.2.NamesUnique) :
    Schema.mergeMembers options path depth fields members growth = .ok (fields, growth) := by
  induction members with
  | nil => rw [Schema.mergeMembers]
  | cons m rest ih =>
      rcases m with ⟨name, v⟩
      rw [List.forall_mem_cons] at hm hdeep hfits hu
      have hrest := ih hm.2 hdeep.2 hfits.2 hu.2
      rw [Schema.mergeMembers]
      cases hnull : v.isNull with
      | true =>
          rw [if_pos rfl]
          exact hrest
      | false =>
          rw [if_neg Bool.false_ne_true]
          rcases hfits.1 hnull with ⟨node, hf, hn, hfit⟩ | ⟨hf, hdata⟩
          · rw [hf]
            refine Outcome.bind_eq_ok.mpr
              ⟨_, hm.1.merge growth (hdeep.1 hnull) hfit hn hu.1, ?_⟩
            have hsame : Schema.setField name node fields = fields := setField_same hf
            simp only [hsame]
            exact hrest
          · rw [hf]
            exact Outcome.bind_eq_ok.mpr ⟨_, hm.1.infer growth (hdeep.1 hnull) hdata, hrest⟩

-- The members of an object that fits have fields that they fit, or say nothing.
theorem Fits.members {fields : List (String × Node)} {members : List (String × Json)}
    (h : Fits (.object fields) (.object members)) (hn : (Node.object fields).NamesUnique)
    (hd : (members.map (·.1)).Nodup) : ∀ m ∈ members, m.2.isNull = false →
      (∃ node, field? fields m.1 = some node ∧ node.NamesUnique ∧ Fits node m.2) ∨
        field? fields m.1 = none ∧ m.2.hasData = false := by
  rcases fits_object.mp h with ⟨_, hsame, hcovered, hfits⟩
  cases hsame
  intro m hm hnull
  cases hf : field? fields m.1 with
  | some node =>
      have hmem := Schema.mem_of_field? hf
      exact Or.inl ⟨node, rfl, Node.namesUniqueOf_iff.mp hn.2 _ hmem,
        fitsFields_iff.mp hfits _ hmem _ (present?_of_mem hd hm hnull)⟩
  | none =>
      refine Or.inr ⟨rfl, Bool.eq_false_iff.mpr fun hdata => ?_⟩
      have hsome := hcovered m hm hdata
      rw [hf] at hsome
      cases hsome

theorem mergeLeaf_same {policy : ConflictPolicy} {column : Nat} {type : DataType} {v : Json}
    (h : Fits (.leaf column type) v) :
    Schema.mergeLeaf policy path column type v growth = .ok (.leaf column type, growth) := by
  rcases fits_leaf.mp h with ⟨x, hx, ha⟩
  rw [Schema.mergeLeaf]
  simp only [hx, ha, if_true]

theorem mergeNode_leaf {column : Nat} {type : DataType} {v : Json}
    (hd : depth ≤ options.maxLevel) :
    Schema.mergeNode options path depth (.leaf column type) v growth =
      Schema.mergeLeaf options.policy path column type v growth := by
  rw [Schema.mergeNode.eq_def]
  simp only [if_neg (Nat.not_lt.mpr hd)]

end

theorem stays (v : Json) : Stays v := by
  induction v using inductionParts with
  | parts v harray hobject =>
      constructor
      · intro options path depth node growth hdeep hfits hn hu
        cases node with
        | leaf column type =>
            rw [mergeNode_leaf (Nat.le_of_add_right_le hdeep)]
            exact mergeLeaf_same hfits
        | object fields =>
            rcases fits_object.mp hfits with ⟨members, rfl, -⟩
            rw [Schema.mergeNode.eq_def]
            simp only [if_neg (Nat.not_lt.mpr (Nat.le_of_add_right_le hdeep))]
            exact Outcome.bind_eq_ok.mpr ⟨_, mergeMembers_same (hobject members rfl)
              (levels_member hdeep) (hfits.members hn hu.1) (namesUniqueMembers_iff.mp hu.2), rfl⟩
        | array element =>
            rcases fits_array.mp hfits with ⟨items, rfl, hall⟩
            rw [Schema.mergeNode.eq_def]
            simp only [if_neg (Nat.not_lt.mpr (Nat.le_of_add_right_le hdeep))]
            exact Outcome.bind_eq_ok.mpr ⟨_, mergeItems_same (harray items rfl) (levels_item hdeep)
              hall hn (namesUniqueItems_iff.mp hu), rfl⟩
      · intro options path depth growth hdeep hsilent
        rw [Schema.inferNode.eq_def]
        rcases hasData_eq_false hsilent with rfl | ⟨items, rfl, -⟩
        · simp only [if_neg (Nat.not_lt.mpr (Nat.le_of_add_right_le hdeep))]
        · simp only [if_neg (Nat.not_lt.mpr (Nat.le_of_add_right_le hdeep))]
          exact Outcome.bind_eq_ok.mpr ⟨_, inferItems_same (harray items rfl) (levels_item hdeep)
            hsilent 0, rfl⟩

end Json

namespace Schema

variable {options : MergeOptions} {schema : Schema} {document : Json} {merged : Option Schema}

-- A document that fits and is not too deep changes nothing.
theorem merge_same (hd : document.levels ≤ options.maxLevel) (hn : schema.root.NamesUnique)
    (hu : document.NamesUnique) (hfits : Json.Fits schema.root document) :
    merge options schema document = .ok none := by
  rcases Json.fits_object.mp hfits with ⟨members, rfl, -⟩
  have hsame : mergeMembers options [] 0 schema.fields members ⟨schema.nextColumn, false⟩ =
      .ok (schema.fields, ⟨schema.nextColumn, false⟩) :=
    Json.mergeMembers_same (fun m _ => Json.stays m.2)
      (Json.levels_member ((Nat.zero_add _).symm ▸ hd)) (hfits.members hn hu.1)
      (Json.namesUniqueMembers_iff.mp hu.2)
  exact Outcome.bind_eq_ok.mpr ⟨_, hsame, rfl⟩

-- A document that was merged is not too deep.
theorem levels_le_of_merge (h : merge options schema document = .ok merged) :
    document.levels ≤ options.maxLevel := by
  cases document with
  | object members =>
      rcases Outcome.bind_eq_ok.mp h with ⟨⟨fields, growth⟩, hm, -⟩
      refine Json.levelsOfMembers_le.mpr fun m hmem hnull => ?_
      have hle := (Json.visited_of_mergeMembers hm m hmem hnull).levels_le
      omega
  | null | bool | number | string | array => simp only [merge, reduceCtorEq] at h

-- A schema that a document was merged into fits it if its arrays without data have their places.
theorem fits_merged_iff (hreached : Reaches .empty schema) (hu : document.NamesUnique)
    (h : merge options schema document = .ok merged) :
    Json.Fits (merged.getD schema).root document ↔
      Json.Placed (merged.getD schema).root document := by
  rcases hreached.sound (sound_empty 0) with ⟨limit, hsound⟩
  have hpresent : document.isNull = false := by
    cases document <;> first | rfl | (simp only [merge, reduceCtorEq] at h)
  exact (merge_near hsound.names h).fits_iff ((merge_extends h).names hsound.names) hu hpresent

/-- A schema that a document was merged into covers it exactly if each of its arrays without
    data fits the shape at its place: the document can be shredded then, and merging it again
    changes nothing. A merge with a limit up to 255 leaves nothing that eight bits cannot count. -/
theorem merge_covers_iff (hreached : Reaches .empty schema) (hu : document.NamesUnique)
    (hlimit : options.maxLevel ≤ 255) (h : merge options schema document = .ok merged) :
    ((∃ streams,
        (Shredding.shredWithin (merged.getD schema) document).run = some (.ok streams)) ↔
        Json.Placed (merged.getD schema).root document) ∧
      (merge options (merged.getD schema) document = .ok none ↔
        Json.Placed (merged.getD schema).root document) := by
  rcases hreached.sound (sound_empty 0) with ⟨limit, hsound⟩
  have hnames := (merge_extends h).names hsound.names
  have hiff := fits_merged_iff hreached hu h
  have hdeep := levels_le_of_merge h
  refine ⟨?_, fun hagain => hiff.mp (Json.fits_of_merge hnames hagain),
    fun hplaced => merge_same hdeep hnames hu (hiff.mpr hplaced)⟩
  rw [Shredding.exists_shredWithin_iff (Or.inr (by omega)), ← hiff]
  exact Shredding.exists_shred_iff

/-- Options that let whole numbers become floats. -/
def sampleOptions : MergeOptions := ⟨.widen, 32⟩

/-- The items of an array hold an array without data, and then a value, under one name. -/
def sampleDocument (value : Json) : Json :=
  .object [("e", .array [.object [("x", .array [])], .object [("x", value)]])]

/-- The schema that such a document makes of an empty one. -/
def sampleSchema (node : Node) : Schema :=
  ⟨[("e", .array (.object [("x", node)]))], 1⟩

theorem namesUnique_sampleDocument {value : Json} (h : value.NamesUnique) :
    (sampleDocument value).NamesUnique := by
  have hempty : (Json.object [("x", .array [])]).NamesUnique :=
    ⟨List.nodup_singleton _, trivial, trivial⟩
  have hvalue : (Json.object [("x", value)]).NamesUnique := ⟨List.nodup_singleton _, h, trivial⟩
  exact ⟨List.nodup_singleton _, ⟨hempty, hvalue, trivial⟩, trivial⟩

-- The empty array fits where the other item has one with data.
theorem merge_covers_array :
    (∃ streams, (Shredding.shredWithin (sampleSchema (.array (.leaf 0 .integer)))
        (sampleDocument (.array [.number (.whole 1)]))).run = some (.ok streams)) ∧
      merge sampleOptions (sampleSchema (.array (.leaf 0 .integer)))
        (sampleDocument (.array [.number (.whole 1)])) = .ok none := by
  have hmerge : merge sampleOptions .empty (sampleDocument (.array [.number (.whole 1)])) =
      .ok (some (sampleSchema (.array (.leaf 0 .integer)))) := rfl
  have hagain : merge sampleOptions (sampleSchema (.array (.leaf 0 .integer)))
      (sampleDocument (.array [.number (.whole 1)])) = .ok none := rfl
  have hu : (sampleDocument (.array [.number (.whole 1)])).NamesUnique :=
    namesUnique_sampleDocument ⟨trivial, trivial⟩
  rcases merge_covers_iff (.refl _) hu (by decide) hmerge with ⟨hshred, hsame⟩
  exact ⟨hshred.mpr (hsame.mp hagain), hagain⟩

-- It does not where the other item has a scalar, and nothing has noticed.
theorem not_covered_scalar :
    merge sampleOptions .empty (sampleDocument (.number (.whole 1))) =
        .ok (some (sampleSchema (.leaf 0 .integer))) ∧
      (Shredding.shredWithin (sampleSchema (.leaf 0 .integer))
        (sampleDocument (.number (.whole 1)))).run =
          some (.error (.conflict "e.x" "integer" "array")) ∧
      merge sampleOptions (sampleSchema (.leaf 0 .integer)) (sampleDocument (.number (.whole 1))) =
        .error (.conflict "e.x" "integer" "array") :=
  ⟨rfl, rfl, rfl⟩

end Schema

end NestedColumns

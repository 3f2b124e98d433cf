import NestedColumns.Proofs.Documents.Remerging
import NestedColumns.Proofs.Schema.Marks

/-!
# What documents show

A value shows a mark wherever it has an object, an array or a scalar. If all of its arrays
have data, merging it into a shape adds what it shows to what the shape was made of, whatever
was inferred by itself and whatever was merged or widened on the way. So a merge that
succeeds meets no conflict, neither with the shape nor within the value. Under the policy that
widens the converse holds as well: without conflicts a merge only fails at what is too deep.

## Main definitions

* `Json.telling`: Every array of a value has data.
* `Json.marks`: What a value shows.
* `Schema.Marking`: Merging a value builds with what it shows.
* `Schema.Accepting`: A value without conflicts is merged.

## Theorems

* `Json.inductionTelling`: Induction over the values whose arrays have data.
* `Schema.marking`, `Schema.accepting`: Both hold of every value whose arrays have data.
-/

namespace NestedColumns

namespace Json

open Schema (Marks Mark)

mutual

/-- Every array of a value has data, at any depth. -/
def telling : Json → Bool
  | .array items => anyHasData items && tellingItems items
  | .object members => tellingMembers members
  | _ => true

/-- The same for all items. -/
def tellingItems : List Json → Bool
  | [] => true
  | item :: rest => telling item && tellingItems rest

/-- The same for all members. -/
def tellingMembers : List (String × Json) → Bool
  | [] => true
  | (_, v) :: rest => telling v && tellingMembers rest

end

theorem tellingItems_iff {items : List Json} :
    tellingItems items = true ↔ ∀ item ∈ items, item.telling = true := by
  induction items with
  | nil => simp only [tellingItems, List.not_mem_nil, false_implies, implies_true]
  | cons item rest ih => rw [tellingItems, Bool.and_eq_true, ih, List.forall_mem_cons]

theorem tellingMembers_iff {members : List (String × Json)} :
    tellingMembers members = true ↔ ∀ m ∈ members, m.2.telling = true := by
  induction members with
  | nil => simp only [tellingMembers, List.not_mem_nil, false_implies, implies_true]
  | cons m rest ih => rw [tellingMembers, Bool.and_eq_true, ih, List.forall_mem_cons]

/-- Induction over the values whose arrays have data. -/
theorem inductionTelling {motive : Json → Prop}
    (parts : ∀ v : Json, v.telling = true →
      (∀ items, v = .array items → ∀ item ∈ items, motive item) →
      (∀ members, v = .object members → ∀ m ∈ members, motive m.2) → motive v)
    (v : Json) (ht : v.telling = true) : motive v := by
  induction v using inductionParts with
  | parts v harray hobject =>
      refine parts v ht ?_ ?_
      · rintro items rfl item hm
        rw [telling, Bool.and_eq_true, tellingItems_iff] at ht
        exact harray items rfl item hm (ht.2 item hm)
      · rintro members rfl m hm
        rw [telling, tellingMembers_iff] at ht
        exact hobject members rfl m hm (ht m hm)

mutual

/-- What a value shows, and where: a mark for each object, array and scalar. -/
def marks : Json → Marks
  | .object members => Marks.here .object ∪ marksOfMembers members
  | .array items => Marks.here .array ∪ Marks.under .element (marksOfItems items)
  | v =>
    match DataValue.ofJson? v with
    | some x => Marks.here (.scalar x.type)
    | none => ∅

/-- What items show, all in one place. -/
def marksOfItems : List Json → Marks
  | [] => ∅
  | item :: rest => marks item ∪ marksOfItems rest

/-- What members show, each below its name. -/
def marksOfMembers : List (String × Json) → Marks
  | [] => ∅
  | (name, v) :: rest => Marks.under (.member name) (marks v) ∪ marksOfMembers rest

end

theorem marks_of_isNull {v : Json} (h : v.isNull = true) : v.marks = ∅ := by
  cases v <;> first | rfl | cases h

theorem marks_of_scalar {v : Json} {x : DataValue} (h : DataValue.ofJson? v = some x) :
    v.marks = Marks.here (.scalar x.type) := by
  cases v with
  | object | array => cases h
  | null | bool | number | string => simp only [marks, h]

/-- The mark of a value itself. -/
theorem exists_mark {v : Json} (h : v.isNull = false) : ∃ mark, ([], mark) ∈ v.marks := by
  cases v with
  | null => cases h
  | object members => exact ⟨_, Or.inl rfl⟩
  | array items => exact ⟨_, Or.inl rfl⟩
  | bool b => exact ⟨_, rfl⟩
  | string s => exact ⟨_, rfl⟩
  | number n =>
      cases hx : DataValue.ofJson? (.number n) with
      | none => rcases DataValue.ofJson?_eq_none.mp hx with h | ⟨_, h⟩ | ⟨_, h⟩ <;> cases h
      | some x =>
          rw [marks_of_scalar hx]
          exact ⟨_, rfl⟩

theorem mem_marksOfItems {items : List Json} {p : Way × Mark} :
    p ∈ marksOfItems items ↔ ∃ item ∈ items, p ∈ item.marks := by
  induction items with
  | nil => simp only [marksOfItems, List.not_mem_nil, false_and, exists_false, iff_false]; exact id
  | cons item rest ih =>
      rw [marksOfItems, Set.mem_union, ih]
      simp only [List.mem_cons, exists_eq_or_imp]

end Json

namespace Schema

open Node (Builds Describes)

/-- Merging a value builds with what it shows on a shape, and inferring its shape builds with
    that alone. -/
structure Marking (v : Json) : Prop where
  merge : ∀ {options : MergeOptions} {path : List String} {depth : Nat} {node node' : Node}
    {growth growth' : Growth}, mergeNode options path depth node v growth = .ok (node', growth') →
    Builds v.marks (some node) growth.nextColumn (some node') growth'.nextColumn
  infer : ∀ {options : MergeOptions} {path : List String} {depth : Nat} {node? : Option Node}
    {growth growth' : Growth}, inferNode options path depth v growth = .ok (node?, growth') →
    Builds v.marks none growth.nextColumn node? growth'.nextColumn

section

variable {options : MergeOptions} {path : List String} {depth : Nat} {growth growth' : Growth}

theorem mergeLeaf_builds {policy : ConflictPolicy} {column : Nat} {type : DataType} {v : Json}
    {node : Node} (h : mergeLeaf policy path column type v growth = .ok (node, growth')) :
    Builds v.marks (some (.leaf column type)) growth.nextColumn (some node)
      growth'.nextColumn := by
  simp only [mergeLeaf] at h
  split at h
  · split at h
    · next hnull =>
      simp only [Except.ok.injEq, Prod.mk.injEq] at h
      rw [← h.1, ← h.2, Json.marks_of_isNull hnull]
      exact .refl ..
    · simp only [reduceCtorEq] at h
  · next x hx =>
    rw [Json.marks_of_scalar hx]
    split at h
    · next ha =>
      simp only [Except.ok.injEq, Prod.mk.injEq] at h
      rw [← h.1, ← h.2]
      refine .same ?_ _
      exact ha
    · next hn =>
      split at h
      · next wider hw =>
        simp only [Except.ok.injEq, Prod.mk.injEq] at h
        rw [← h.1, ← h.2]
        exact .widened hn hw ..
      · simp only [reduceCtorEq] at h

theorem mergeItems_builds {items : List Json} (hi : ∀ item ∈ items, Marking item)
    {element element' : Node}
    (h : mergeItems options path depth element items growth = .ok (element', growth')) :
    Builds (Json.marksOfItems items) (some element) growth.nextColumn (some element')
      growth'.nextColumn := by
  induction items generalizing element growth with
  | nil =>
      simp only [mergeItems, Except.ok.injEq, Prod.mk.injEq] at h
      rw [h.1, h.2]
      exact .refl ..
  | cons item rest ih =>
      have hrest := fun item hm => hi item (List.mem_cons_of_mem _ hm)
      rw [mergeItems] at h
      rw [Json.marksOfItems]
      split at h
      · next hnull =>
        rw [Json.marks_of_isNull hnull, Set.empty_union]
        exact ih hrest h
      · obtain ⟨⟨middle, growth₁⟩, hm, h⟩ := Outcome.bind_eq_ok.mp h
        exact ((hi item List.mem_cons_self).merge hm).trans (ih hrest h)

-- Items that are `null` are not merged.
theorem mergeLeading_null {items : List Json} {count : Nat} {element : Node}
    (hnull : ∀ item ∈ items.take count, item.isNull = true) :
    mergeLeading options path depth element count items growth = .ok (element, growth) := by
  induction items generalizing count with
  | nil => cases count <;> rw [mergeLeading]
  | cons item rest ih =>
      cases count with
      | zero => rw [mergeLeading]
      | succ count =>
          rw [List.take_succ_cons, List.forall_mem_cons] at hnull
          rw [mergeLeading, if_pos hnull.1]
          exact ih hnull.2

theorem mergeMembers_builds {members : List (String × Json)} (hm : ∀ m ∈ members, Marking m.2)
    {fields fields' : List (String × Node)}
    (h : mergeMembers options path depth fields members growth = .ok (fields', growth')) :
    Builds (Json.marksOfMembers members) (some (.object fields)) growth.nextColumn
      (some (.object fields')) growth'.nextColumn := by
  induction members generalizing fields growth with
  | nil =>
      simp only [mergeMembers, Except.ok.injEq, Prod.mk.injEq] at h
      rw [h.1, h.2]
      exact .refl ..
  | cons m rest ih =>
      rcases m with ⟨name, v⟩
      have hrest := fun m hr => hm m (List.mem_cons_of_mem _ hr)
      have hfirst : Marking v := hm (name, v) List.mem_cons_self
      rw [mergeMembers] at h
      rw [Json.marksOfMembers]
      split at h
      · next hnull =>
        rw [Json.marks_of_isNull hnull, Marks.under_empty, Set.empty_union]
        exact ih hrest h
      · split at h
        · next node hf =>
          obtain ⟨⟨node', growth₁⟩, hn, h⟩ := Outcome.bind_eq_ok.mp h
          exact (Builds.setField hf (hfirst.merge hn)).trans (ih hrest h)
        · next hf =>
          obtain ⟨⟨node?, growth₁⟩, hn, h⟩ := Outcome.bind_eq_ok.mp h
          have hinfer := hfirst.infer hn
          cases node? with
          | none =>
              -- Nothing was built, so nothing was shown and no number was given away.
              rw [hinfer.of_none.1, Marks.under_empty, Set.empty_union, ← hinfer.of_none.2]
              exact ih hrest h
          | some node =>
              have hnext := ih hrest h
              exact (Builds.append hf hinfer).trans hnext

theorem inferItems_builds {items : List Json} (hi : ∀ item ∈ items, Marking item) {seen : Nat}
    {found : Option (Node × Nat)}
    (h : inferItems options path depth seen items growth = .ok (found, growth')) :
    Builds (Json.marksOfItems items) none growth.nextColumn (found.map (·.1))
        growth'.nextColumn ∧
      ∀ element count, found = some (element, count) → ∃ leading, count = seen + leading ∧
        ∀ item ∈ items.take leading, item.isNull = true := by
  induction items generalizing growth seen with
  | nil =>
      simp only [inferItems, Except.ok.injEq, Prod.mk.injEq] at h
      rw [← h.1, h.2]
      exact ⟨.refl .., fun _ _ hnone => absurd hnone.symm (Option.some_ne_none _)⟩
  | cons item rest ih =>
      have hrest := fun item hm => hi item (List.mem_cons_of_mem _ hm)
      rw [inferItems] at h
      rw [Json.marksOfItems]
      split at h
      · next hnull =>
        rcases ih hrest h with ⟨hbuilds, hleading⟩
        rw [Json.marks_of_isNull hnull, Set.empty_union]
        refine ⟨hbuilds, fun element count hfound => ?_⟩
        rcases hleading element count hfound with ⟨leading, rfl, hall⟩
        refine ⟨leading + 1, by omega, ?_⟩
        rw [List.take_succ_cons, List.forall_mem_cons]
        exact ⟨hnull, hall⟩
      · next hpresent =>
        obtain ⟨⟨node?, growth₁⟩, hn, h⟩ := Outcome.bind_eq_ok.mp h
        have hinfer := (hi item List.mem_cons_self).infer hn
        cases node? with
        | none =>
            rcases Json.exists_mark (Bool.eq_false_iff.mpr hpresent) with ⟨mark, hmark⟩
            rw [hinfer.of_none.1] at hmark
            exact absurd hmark (Set.notMem_empty _)
        | some node =>
            obtain ⟨⟨node', growth₂⟩, hm, h⟩ := Outcome.bind_eq_ok.mp h
            simp only [pure, Except.pure, Except.ok.injEq, Prod.mk.injEq] at h
            rw [← h.1, ← h.2]
            refine ⟨hinfer.trans (mergeItems_builds hrest hm), fun element count hfound => ?_⟩
            rw [Option.some.injEq, Prod.mk.injEq] at hfound
            exact ⟨0, hfound.2.symm, fun _ hm => absurd hm List.not_mem_nil⟩

-- An array with data shows something below it.
theorem marksOfItems_ne_empty {items : List Json} (h : Json.anyHasData items = true) :
    Json.marksOfItems items ≠ ∅ := by
  induction items with
  | nil => cases h
  | cons item rest ih =>
      intro hempty
      rw [Json.marksOfItems, Set.union_empty_iff] at hempty
      rw [Json.anyHasData, Bool.or_eq_true] at h
      rcases h with h | h
      · have hpresent : item.isNull = false := by cases item <;> first | rfl | cases h
        rcases Json.exists_mark hpresent with ⟨mark, hmark⟩
        rw [hempty.1] at hmark
        exact Set.notMem_empty _ hmark
      · exact ih h hempty.2

theorem mergeNode_builds {v : Json} {node node' : Node}
    (hitems : ∀ items, v = .array items → ∀ item ∈ items, Marking item)
    (hmembers : ∀ members, v = .object members → ∀ m ∈ members, Marking m.2)
    (h : mergeNode options path depth node v growth = .ok (node', growth')) :
    Builds v.marks (some node) growth.nextColumn (some node') growth'.nextColumn := by
  rcases (mergeNode_cases h).2 with ⟨fields, fields', members, rfl, hv, rfl, hr⟩ |
    ⟨element, element', items, rfl, hv, rfl, hr⟩ | ⟨column, type, rfl, hr⟩
  · rw [hv, Json.marks]
    exact (mergeMembers_builds (hmembers members hv) hr).marked
  · have helement := Builds.array (mergeItems_builds (hitems items hv) hr)
    rw [hv, Json.marks]
    exact helement.marked
  · exact mergeLeaf_builds hr

theorem inferNode_builds {v : Json} {node? : Option Node} (ht : v.telling = true)
    (hitems : ∀ items, v = .array items → ∀ item ∈ items, Marking item)
    (hmembers : ∀ members, v = .object members → ∀ m ∈ members, Marking m.2)
    (h : inferNode options path depth v growth = .ok (node?, growth')) :
    Builds v.marks none growth.nextColumn node? growth'.nextColumn := by
  rcases (inferNode_cases h).2 with ⟨hv, rfl, rfl⟩ | ⟨members, fields, hv, rfl, hr⟩ |
    ⟨items, hv, rfl, hr⟩ | ⟨items, element, leading, element', growth₁, hv, rfl, hf, hl⟩ |
    ⟨x, hx, rfl, rfl⟩
  · rw [hv]
    exact .refl ..
  · rw [hv, Json.marks]
    exact (Builds.object _).trans (mergeMembers_builds (hmembers members hv) hr)
  · -- An array with data has a shape.
    have hnone := (inferItems_builds (hitems items hv) hr).1
    rw [hv, Json.telling, Bool.and_eq_true] at ht
    exact absurd hnone.of_none.1 (marksOfItems_ne_empty ht.1)
  · rcases inferItems_builds (hitems items hv) hf with ⟨hbuilds, hleading⟩
    rcases hleading element leading rfl with ⟨count, rfl, hnull⟩
    rw [Nat.zero_add, mergeLeading_null hnull] at hl
    simp only [Except.ok.injEq, Prod.mk.injEq] at hl
    rw [hv, Json.marks, ← hl.1, ← hl.2]
    exact .newArray hbuilds
  · rw [Json.marks_of_scalar hx]
    exact .leaf ..

end

/-- Merging builds with what is shown, whatever the value, if its arrays have data. -/
theorem marking : ∀ v : Json, v.telling = true → Marking v :=
  Json.inductionTelling fun _ ht hitems hmembers =>
    ⟨mergeNode_builds hitems hmembers, inferNode_builds ht hitems hmembers⟩

/-! ### Without conflicts -/

/-- Under the policy that widens, a value is merged if it has no conflicts with what the shape
    was made of, and is not too deep, and its shape is inferred if it has none by itself. -/
structure Accepting (v : Json) : Prop where
  merge : ∀ {maxLevel : Nat} {path : List String} {depth : Nat} {node : Node} {S : Marks}
    (growth : Growth), v.isNull = false → Describes S (some node) → (S ∪ v.marks).Agreeing →
    depth + v.levels ≤ maxLevel →
    ∃ result, mergeNode ⟨.widen, maxLevel⟩ path depth node v growth = .ok result
  infer : ∀ {maxLevel : Nat} {path : List String} {depth : Nat} (growth : Growth),
    v.marks.Agreeing → depth + v.levels ≤ maxLevel →
    ∃ result, inferNode ⟨.widen, maxLevel⟩ path depth v growth = .ok result

section

variable {maxLevel : Nat} {path : List String} {depth : Nat} {S : Marks}

theorem mergeLeaf_accepts {column : Nat} {type : DataType} {v : Json} {x : DataValue}
    (growth : Growth) (hx : DataValue.ofJson? v = some x)
    (h : (Mark.scalar type).Agrees (.scalar x.type)) :
    ∃ result, mergeLeaf .widen path column type v growth = .ok result := by
  simp only [mergeLeaf, hx]
  by_cases ha : type.accepts x.type = true
  · exact ⟨_, if_pos ha⟩
  · -- Of two types that agree, the wider one takes in the other.
    have hback : x.type.accepts type = true := h.resolve_left ha
    have hwiden : type.widen x.type = some .float := by
      revert ha hback
      cases type <;> cases x.type <;> decide
    rw [if_neg ha, hwiden]
    exact ⟨_, rfl⟩

theorem mergeItems_accepts {items : List Json}
    (hi : ∀ item ∈ items, Marking item ∧ Accepting item) {element : Node} (growth : Growth)
    (hS : Describes S (some element)) (hagree : (S ∪ Json.marksOfItems items).Agreeing)
    (hdeep : ∀ item ∈ items, item.isNull = false → depth + item.levels ≤ maxLevel) :
    ∃ result, mergeItems ⟨.widen, maxLevel⟩ path depth element items growth = .ok result := by
  induction items generalizing element growth S with
  | nil => exact ⟨_, by rw [mergeItems]⟩
  | cons item rest ih =>
      rw [List.forall_mem_cons] at hi hdeep
      rw [Json.marksOfItems, ← Set.union_assoc] at hagree
      rw [mergeItems]
      cases hnull : item.isNull with
      | true =>
          rw [Json.marks_of_isNull hnull, Set.union_empty] at hagree
          rw [if_pos rfl]
          exact ih hi.2 growth hS hagree hdeep.2
      | false =>
          rw [if_neg Bool.false_ne_true]
          rcases hi.1.2.merge growth hnull hS (hagree.mono Set.subset_union_left)
            (hdeep.1 hnull) with ⟨⟨middle, growth₁⟩, hm⟩
          rcases ih hi.2 growth₁ ((hi.1.1.merge hm).adds S hS) hagree hdeep.2 with ⟨result, hr⟩
          exact ⟨result, Outcome.bind_eq_ok.mpr ⟨_, hm, hr⟩⟩

theorem mergeMembers_accepts {members : List (String × Json)}
    (hm : ∀ m ∈ members, Marking m.2 ∧ Accepting m.2) {fields : List (String × Node)}
    (growth : Growth) (hS : Describes S (some (.object fields)))
    (hagree : (S ∪ Json.marksOfMembers members).Agreeing)
    (hdeep : ∀ m ∈ members, m.2.isNull = false → depth + 1 + m.2.levels ≤ maxLevel) :
    ∃ result, mergeMembers ⟨.widen, maxLevel⟩ path depth fields members growth = .ok result := by
  induction members generalizing fields growth S with
  | nil => exact ⟨_, by rw [mergeMembers]⟩
  | cons m rest ih =>
      rcases m with ⟨name, v⟩
      rw [List.forall_mem_cons] at hm hdeep
      rw [Json.marksOfMembers, ← Set.union_assoc] at hagree
      rw [mergeMembers]
      cases hnull : v.isNull with
      | true =>
          rw [Json.marks_of_isNull hnull, Marks.under_empty, Set.union_empty] at hagree
          rw [if_pos rfl]
          exact ih hm.2 growth hS hagree hdeep.2
      | false =>
          rw [if_neg Bool.false_ne_true]
          -- The field of the member is described by what was seen below its name.
          have hfield := (Node.describes_some_iff.mp hS).2 (.member name)
          have hbelow := (hagree.mono Set.subset_union_left).below (.member name)
          rw [Marks.below_union, Marks.below_under_self] at hbelow
          rw [Node.child?] at hfield
          cases hf : field? fields name with
          | some node =>
              rw [hf] at hfield
              rcases hm.1.2.merge growth hnull hfield hbelow (hdeep.1 hnull) with
                ⟨⟨node', growth₁⟩, hn⟩
              have hbuilds := Builds.setField hf (hm.1.1.merge hn)
              rcases ih hm.2 growth₁ (hbuilds.adds S hS) hagree hdeep.2 with ⟨result, hr⟩
              exact ⟨result, Outcome.bind_eq_ok.mpr ⟨_, hn, hr⟩⟩
          | none =>
              rcases hm.1.2.infer growth (hbelow.mono Set.subset_union_right) (hdeep.1 hnull) with
                ⟨⟨node?, growth₁⟩, hn⟩
              have hinfer := hm.1.1.infer hn
              cases node? with
              | none =>
                  rw [hinfer.of_none.1, Marks.under_empty, Set.union_empty] at hagree
                  rcases ih hm.2 growth₁ hS hagree hdeep.2 with ⟨result, hr⟩
                  exact ⟨result, Outcome.bind_eq_ok.mpr ⟨_, hn, hr⟩⟩
              | some node =>
                  rcases ih hm.2 ⟨growth₁.nextColumn, true⟩ ((Builds.append hf hinfer).adds S hS)
                    hagree hdeep.2 with ⟨result, hr⟩
                  exact ⟨result, Outcome.bind_eq_ok.mpr ⟨_, hn, hr⟩⟩

theorem inferItems_accepts {items : List Json}
    (hi : ∀ item ∈ items, Marking item ∧ Accepting item) (seen : Nat) (growth : Growth)
    (hagree : (Json.marksOfItems items).Agreeing)
    (hdeep : ∀ item ∈ items, item.isNull = false → depth + item.levels ≤ maxLevel) :
    ∃ result, inferItems ⟨.widen, maxLevel⟩ path depth seen items growth = .ok result := by
  induction items generalizing seen growth with
  | nil => exact ⟨_, by rw [inferItems]⟩
  | cons item rest ih =>
      rw [List.forall_mem_cons] at hi hdeep
      rw [Json.marksOfItems] at hagree
      have hrest := hagree.mono Set.subset_union_right
      rw [inferItems]
      cases hnull : item.isNull with
      | true =>
          rw [if_pos rfl]
          exact ih hi.2 (seen + 1) growth hrest hdeep.2
      | false =>
          rw [if_neg Bool.false_ne_true]
          rcases hi.1.2.infer growth (hagree.mono Set.subset_union_left) (hdeep.1 hnull) with
            ⟨⟨node?, growth₁⟩, hn⟩
          cases node? with
          | none =>
              rcases ih hi.2 (seen + 1) growth₁ hrest hdeep.2 with ⟨result, hr⟩
              exact ⟨result, Outcome.bind_eq_ok.mpr ⟨_, hn, hr⟩⟩
          | some node =>
              have hdescribes := Node.adds_none_iff.mp (hi.1.1.infer hn).adds
              rcases mergeItems_accepts hi.2 growth₁ hdescribes hagree hdeep.2 with ⟨result, hr⟩
              exact ⟨_, Outcome.bind_eq_ok.mpr ⟨_, hn, Outcome.bind_eq_ok.mpr ⟨_, hr, rfl⟩⟩⟩

theorem mergeNode_accepts {v : Json} {node : Node}
    (hitems : ∀ items, v = .array items → ∀ item ∈ items, Marking item ∧ Accepting item)
    (hmembers : ∀ members, v = .object members → ∀ m ∈ members, Marking m.2 ∧ Accepting m.2)
    (growth : Growth) (hnull : v.isNull = false) (hS : Describes S (some node))
    (hagree : (S ∪ v.marks).Agreeing) (hdeep : depth + v.levels ≤ maxLevel) :
    ∃ result, mergeNode ⟨.widen, maxLevel⟩ path depth node v growth = .ok result := by
  have hd := Nat.not_lt.mpr (Nat.le_of_add_right_le hdeep)
  have hmark : ∀ mark, ([], mark) ∈ v.marks → node.mark.Agrees mark := fun mark hm =>
    hagree [] node.mark mark (Or.inl (Node.describes_some_iff.mp hS).1.1) (Or.inr hm)
  rw [mergeNode.eq_def]
  simp only [if_neg hd]
  cases hx : DataValue.ofJson? v with
  | some x =>
      have hscalar := hmark (.scalar x.type) (by rw [Json.marks_of_scalar hx]; rfl)
      rcases Node.exists_leaf_of_agrees hscalar with ⟨column, type, rfl⟩
      exact mergeLeaf_accepts growth hx hscalar
  | none =>
      rcases DataValue.ofJson?_eq_none.mp hx with rfl | ⟨items, rfl⟩ | ⟨members, rfl⟩
      · cases hnull
      · rcases Node.exists_element_of_agrees (hmark .array (Or.inl rfl)) with ⟨element, rfl⟩
        have hbelow := hagree.below .element
        rw [Json.marks, Marks.below_union, Marks.below_union, Marks.below_here,
          Marks.below_under_self, Set.empty_union] at hbelow
        have helement := (Node.describes_some_iff.mp hS).2 .element
        rcases mergeItems_accepts (hitems items rfl) growth helement hbelow
          (Json.levels_item hdeep) with ⟨result, hr⟩
        exact ⟨_, Outcome.bind_eq_ok.mpr ⟨_, hr, rfl⟩⟩
      · rcases Node.exists_fields_of_agrees (hmark .object (Or.inl rfl)) with ⟨fields, rfl⟩
        have hsub : S ∪ Json.marksOfMembers members ⊆ S ∪ (Json.object members).marks :=
          Set.union_subset_union_right S Set.subset_union_right
        rcases mergeMembers_accepts (hmembers members rfl) growth hS (hagree.mono hsub)
          (Json.levels_member hdeep) with ⟨result, hr⟩
        exact ⟨_, Outcome.bind_eq_ok.mpr ⟨_, hr, rfl⟩⟩

theorem inferNode_accepts {v : Json}
    (hitems : ∀ items, v = .array items → ∀ item ∈ items, Marking item ∧ Accepting item)
    (hmembers : ∀ members, v = .object members → ∀ m ∈ members, Marking m.2 ∧ Accepting m.2)
    (growth : Growth) (hagree : v.marks.Agreeing) (hdeep : depth + v.levels ≤ maxLevel) :
    ∃ result, inferNode ⟨.widen, maxLevel⟩ path depth v growth = .ok result := by
  have hd := Nat.not_lt.mpr (Nat.le_of_add_right_le hdeep)
  rw [inferNode.eq_def]
  cases v with
  | null => exact ⟨_, if_neg hd⟩
  | object members =>
      simp only [if_neg hd]
      rcases mergeMembers_accepts (hmembers members rfl) growth Node.describes_object_nil hagree
        (Json.levels_member hdeep) with ⟨result, hr⟩
      exact ⟨_, Outcome.bind_eq_ok.mpr ⟨_, hr, rfl⟩⟩
  | array items =>
      simp only [if_neg hd]
      have hbelow := hagree.below .element
      rw [Json.marks, Marks.below_union, Marks.below_here, Marks.below_under_self,
        Set.empty_union] at hbelow
      rcases inferItems_accepts (hitems items rfl) 0 growth hbelow (Json.levels_item hdeep) with
        ⟨⟨found, growth₁⟩, hf⟩
      cases found with
      | none => exact ⟨_, Outcome.bind_eq_ok.mpr ⟨_, hf, rfl⟩⟩
      | some pair =>
          rcases pair with ⟨element, leading⟩
          rcases (inferItems_builds (fun item hm => (hitems items rfl item hm).1) hf).2 element
            leading rfl with ⟨count, rfl, hnull⟩
          rw [Nat.zero_add] at hf
          exact ⟨_, Outcome.bind_eq_ok.mpr ⟨_, hf,
            Outcome.bind_eq_ok.mpr ⟨_, mergeLeading_null hnull, rfl⟩⟩⟩
  | bool | number | string =>
      simp only [if_neg hd]
      split <;> exact ⟨_, rfl⟩

end

/-- A value without conflicts is merged, whatever it is, if its arrays have data. -/
theorem accepting (v : Json) (ht : v.telling = true) : Accepting v := by
  -- What the parts show is needed as well.
  have hboth := Json.inductionTelling (motive := fun v => Marking v ∧ Accepting v)
    (fun v ht hitems hmembers => ⟨marking v ht, mergeNode_accepts hitems hmembers,
      inferNode_accepts hitems hmembers⟩) v ht
  exact hboth.2

end Schema

end NestedColumns

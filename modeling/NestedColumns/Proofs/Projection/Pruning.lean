import NestedColumns.Proofs.Outcome
import NestedColumns.Proofs.Projection.Selecting
import NestedColumns.Proofs.Schema.Parts

/-!
# What paths ask for

The schema of a projection is a part of the table's: its fields are fields of the
table, and so on below them. Names stay unique, because each field is asked for
once, whatever the paths that mention it.

## Main definitions

* `Projection.askedFields`: The fields of a document that paths of places ask for.
* `Projection.Leads`: A path leads through some places.

## Theorems

* `Schema.Node.keepOnly_partOf`, `Schema.Node.keepOnly_namesUnique`: What is kept of
  a shape is a part of it.
* `Projection.resolve_nil`, `Projection.resolve_of_leads`: A projection, by the places
  that its paths lead through.
* `Projection.resolve_eq_error`: A projection fails at the first path that leads nowhere.
* `Projection.resolve_eq_ok`: A projection, by its fields.
-/

namespace NestedColumns

namespace Schema.Node

/-- The fields that are kept, by their places. -/
theorem mem_keepFields {keep : List Nat → Bool} {index : Nat} {fields : List (String × Node)}
    {f : String × Node} :
    f ∈ keepFields keep index fields ↔ ∃ i node, fields[i]? = some (f.1, node) ∧
      keep [index + i] = true ∧
      f.2 = node.keepOnly fun places => keep ((index + i) :: places) := by
  induction fields generalizing index with
  | nil => simp [keepFields]
  | cons first rest ih =>
      rcases first with ⟨name, node⟩
      rw [← Nat.or_exists_add_one]
      simp only [List.getElem?_cons_zero, List.getElem?_cons_succ, Option.some.injEq,
        Prod.mk.injEq, Nat.add_zero, ← Nat.add_assoc, Nat.add_right_comm index _ 1]
      rw [← ih, keepFields]
      by_cases hk : keep [index] = true
      · rw [if_pos hk, List.mem_cons]
        refine or_congr_left ⟨?_, ?_⟩
        · rintro rfl
          exact ⟨node, ⟨rfl, rfl⟩, hk, rfl⟩
        · rintro ⟨_, ⟨hname, rfl⟩, -, hf⟩
          exact Prod.ext hname.symm hf
      · rw [if_neg hk, or_iff_right]
        rintro ⟨_, -, hk', -⟩
        exact hk hk'

theorem names_keepFields (keep : List Nat → Bool) (index : Nat) (fields : List (String × Node)) :
    ((keepFields keep index fields).map (·.1)).Sublist (fields.map (·.1)) := by
  induction fields generalizing index with
  | nil => exact List.Sublist.refl _
  | cons first rest ih =>
      rcases first with ⟨name, node⟩
      rw [keepFields]
      split
      · exact (ih _).cons_cons _
      · exact (ih _).cons _

/-- What is kept of a shape is a part of it. -/
theorem keepOnly_partOf {node : Node} (hu : node.NamesUnique) (keep : List Nat → Bool) :
    (node.keepOnly keep).PartOf node := by
  induction node using inductionOn generalizing keep with
  | leaf column type => exact ⟨rfl, rfl⟩
  | array element ih => exact ih hu keep
  | object fields ih =>
      rw [keepOnly, PartOf, partOfFields_iff]
      intro f hf
      rcases mem_keepFields.mp hf with ⟨i, node, hi, -, he⟩
      have hm := List.mem_of_getElem? hi
      refine ⟨node, field?_of_mem hu.1 hm, ?_⟩
      rw [he]
      exact ih _ hm (namesUniqueOf_iff.mp hu.2 _ hm) _

theorem keepOnly_namesUnique {node : Node} (hu : node.NamesUnique) (keep : List Nat → Bool) :
    (node.keepOnly keep).NamesUnique := by
  induction node using inductionOn generalizing keep with
  | leaf column type => exact trivial
  | array element ih => exact ih hu keep
  | object fields ih =>
      refine ⟨hu.1.sublist (names_keepFields keep 0 fields), namesUniqueOf_iff.mpr fun f hf => ?_⟩
      rcases mem_keepFields.mp hf with ⟨i, node, hi, -, he⟩
      have hm := List.mem_of_getElem? hi
      rw [he]
      exact ih _ hm (namesUniqueOf_iff.mp hu.2 _ hm) _

end Schema.Node

namespace Projection

open Schema (Node field?)

variable {fields : List (String × Node)}

/-! ### The fields of a document -/

/-- The fields of a document that paths of places ask for, in the order of first mention. -/
def askedFields (fields : List (String × Node)) (paths : List (List Nat)) : List (String × Node) :=
  (paths.filterMap List.head?).eraseDups.filterMap fun i =>
    fields[i]?.map fun f => (f.1, f.2.keepOnly (keeps (below i paths)))

theorem pruneFields_asked (fields : List (String × Node)) (paths : List (List Nat)) :
    pruneFields fields (insertAll false paths) = askedFields fields paths := by
  rw [pruneFields_insertAll, mentions_false, askedFields]
  simp only [pruned_eq]

/-- Without paths, all fields are asked for. -/
theorem pruneFields_all (fields : List (String × Node)) :
    pruneFields fields ((List.range fields.length).map .whole) = fields := by
  rw [pruneFields_eq, List.filterMap_map]
  simp only [Function.comp_def, pruneField]
  induction fields with
  | nil => rfl
  | cons f rest ih =>
      rw [List.length_cons, List.range_succ_eq_map, List.filterMap_cons, List.getElem?_cons_zero,
        List.filterMap_map]
      simp only [Function.comp_def, List.getElem?_cons_succ]
      rw [ih]

theorem mem_askedFields {paths : List (List Nat)} {f : String × Node} :
    f ∈ askedFields fields paths ↔ ∃ i node, fields[i]? = some (f.1, node) ∧
      i ∈ paths.filterMap List.head? ∧ f.2 = node.keepOnly (keeps (below i paths)) := by
  rw [askedFields, List.mem_filterMap]
  simp only [List.mem_eraseDups, Option.map_eq_some_iff]
  constructor
  · rintro ⟨i, hi, ⟨name, node⟩, hf, rfl⟩
    exact ⟨i, node, hf, hi, rfl⟩
  · rintro ⟨i, node, hf, hi, he⟩
    exact ⟨i, hi, _, hf, Prod.ext rfl he.symm⟩

theorem map_fst_askedFields (fields : List (String × Node)) (paths : List (List Nat)) :
    (askedFields fields paths).map (·.1) =
      (paths.filterMap List.head?).eraseDups.filterMap fun i => (fields.map (·.1))[i]? := by
  rw [askedFields, List.map_filterMap]
  refine List.filterMap_congr fun i _ => ?_
  rw [Option.map_map, List.getElem?_map]
  rfl

theorem names_askedFields (hd : (fields.map (·.1)).Nodup) (paths : List (List Nat)) :
    ((askedFields fields paths).map (·.1)).Nodup := by
  have hplaces : (paths.filterMap List.head?).eraseDups.Nodup := by
    rw [← mentions_false]
    exact nodup_mentions false _
  rw [map_fst_askedFields]
  refine hplaces.filterMap fun i j name hi hj => ?_
  -- Two places with one name are one place.
  have hlt : i < (fields.map (·.1)).length := (List.getElem?_eq_some_iff.mp hi).1
  exact (List.getElem?_inj hlt hd).mp (hi.trans hj.symm)

theorem askedFields_partOf (hu : (Node.object fields).NamesUnique) (paths : List (List Nat)) :
    (Node.object (askedFields fields paths)).PartOf (.object fields) ∧
      (Node.object (askedFields fields paths)).NamesUnique := by
  constructor
  · rw [Node.PartOf, Node.partOfFields_iff]
    intro f hf
    rcases mem_askedFields.mp hf with ⟨i, node, hi, -, he⟩
    have hm := List.mem_of_getElem? hi
    refine ⟨node, Schema.field?_of_mem hu.1 hm, ?_⟩
    rw [he]
    exact Node.keepOnly_partOf (Node.namesUniqueOf_iff.mp hu.2 _ hm) _
  · refine ⟨names_askedFields hu.1 paths, Node.namesUniqueOf_iff.mpr fun f hf => ?_⟩
    rcases mem_askedFields.mp hf with ⟨i, node, hi, -, he⟩
    rw [he]
    exact Node.keepOnly_namesUnique (Node.namesUniqueOf_iff.mp hu.2 _ (List.mem_of_getElem? hi)) _

/-! ### Projections -/

/-- The path leads to a field, through the fields at some places. -/
def Leads (fields : List (String × Node)) (path : String) (places : List Nat) : Prop :=
  lookup fields (segments path) = some places

theorem select_eq_ok {paths : List String} {list result : List Selected} :
    select fields paths list = .ok result ↔ ∃ places, List.Forall₂ (Leads fields) paths places ∧
      result = places.foldl (fun list path => insert false path list) list := by
  induction paths generalizing list with
  | nil =>
      simp only [select, Except.ok.injEq, List.forall₂_nil_left_iff, exists_eq_left, List.foldl_nil]
      exact eq_comm
  | cons path rest ih =>
      rw [select]
      cases hl : lookup fields (segments path) with
      | none =>
          simp only [reduceCtorEq, List.forall₂_cons_left_iff, false_iff, not_exists, not_and]
          rintro places ⟨first, others, hfirst, -, -⟩ -
          rw [Leads, hl] at hfirst
          simp only [reduceCtorEq] at hfirst
      | some first =>
          rw [ih]
          constructor
          · rintro ⟨places, hall, rfl⟩
            exact ⟨first :: places, .cons hl hall, rfl⟩
          · rintro ⟨places, hall, rfl⟩
            rcases List.forall₂_cons_left_iff.mp hall with ⟨other, others, hother, hothers, rfl⟩
            rw [Leads, hl, Option.some.injEq] at hother
            exact ⟨others, hothers, hother ▸ rfl⟩

theorem select_eq_error {paths : List String} {list : List Selected} {e : PlanError} :
    select fields paths list = .error e ↔ ∃ before path after, paths = before ++ path :: after ∧
      (∀ p ∈ before, ∃ places, Leads fields p places) ∧
      lookup fields (segments path) = none ∧ e = .unknownColumn path := by
  induction paths generalizing list with
  | nil => simp [select]
  | cons path rest ih =>
      rw [select]
      cases hl : lookup fields (segments path) with
      | none =>
          simp only [Except.error.injEq]
          constructor
          · rintro rfl
            exact ⟨[], path, rest, rfl, fun p hp => absurd hp List.not_mem_nil, hl, rfl⟩
          · rintro ⟨before, other, after, heq, hall, -, rfl⟩
            cases before with
            | nil => rw [(List.cons.inj heq).1]
            | cons first before =>
                rcases hall first List.mem_cons_self with ⟨places, hfirst⟩
                rw [Leads, ← (List.cons.inj heq).1, hl] at hfirst
                simp only [reduceCtorEq] at hfirst
      | some first =>
          simp only [ih]
          constructor
          · rintro ⟨before, other, after, rfl, hall, hrest⟩
            exact ⟨path :: before, other, after, rfl,
              List.forall_mem_cons.mpr ⟨⟨first, hl⟩, hall⟩, hrest⟩
          · rintro ⟨before, other, after, heq, hall, hnone, hrest⟩
            cases before with
            | nil =>
                rw [← (List.cons.inj heq).1, hl] at hnone
                simp only [reduceCtorEq] at hnone
            | cons p before =>
                exact ⟨before, other, after, (List.cons.inj heq).2,
                  (List.forall_mem_cons.mp hall).2, hnone, hrest⟩

/-- A table's projection to some of its fields. -/
def toFields (schema : Schema) (fields : List (String × Node)) : Projection :=
  (ofSchema (Schema.ofFields fields)).withShapeSources schema

variable {schema : Schema} {paths : List String}

/-- No path at all asks for the whole document. -/
theorem resolve_nil (schema : Schema) :
    resolve schema [] = .ok (toFields schema schema.fields) := by
  have hselect : select schema.fields [] ((List.range schema.fields.length).map .whole) =
      .ok ((List.range schema.fields.length).map .whole) := rfl
  simp only [resolve, List.isEmpty_nil, if_true, hselect, bind, Except.bind, pure, Except.pure,
    pruneFields_all, toFields]

/-- A projection to what paths ask for that lead somewhere. -/
theorem resolve_of_leads {places : List (List Nat)} (hp : paths ≠ [])
    (h : List.Forall₂ (Leads schema.fields) paths places) :
    resolve schema paths = .ok (toFields schema (askedFields schema.fields places)) := by
  have hempty : paths.isEmpty = false := by simpa using hp
  have hselect : select schema.fields paths [] = .ok (insertAll false places) :=
    select_eq_ok.mpr ⟨places, h, rfl⟩
  simp only [resolve, hempty, Bool.false_eq_true, if_false, hselect, bind, Except.bind, pure,
    Except.pure, pruneFields_asked, toFields]

/-- A projection fails at the first path that leads nowhere. -/
theorem resolve_eq_error {e : PlanError} :
    resolve schema paths = .error e ↔ ∃ before path after, paths = before ++ path :: after ∧
      (∀ p ∈ before, ∃ places, Leads schema.fields p places) ∧
      lookup schema.fields (segments path) = none ∧ e = .unknownColumn path := by
  rw [← @select_eq_error _ _ (if paths.isEmpty then
    (List.range schema.fields.length).map .whole else []), resolve]
  cases select schema.fields paths _ with
  | error e' => simp only [bind, Except.bind, Except.error.injEq]
  | ok list => simp only [bind, Except.bind, pure, Except.pure, reduceCtorEq]

/-- A projection, by its fields: they are a part of those of the table, and all of
    them if no path was given. -/
theorem resolve_eq_ok {schema : Schema} (hu : (Node.object schema.fields).NamesUnique)
    {paths : List String} {p : Projection} (h : resolve schema paths = .ok p) :
    ∃ fields, p = (ofSchema (Schema.ofFields fields)).withShapeSources schema ∧
      (Node.object fields).PartOf (.object schema.fields) ∧ (Node.object fields).NamesUnique ∧
      (paths = [] → fields = schema.fields) := by
  by_cases hp : paths = []
  · rw [hp, resolve_nil, Except.ok.injEq] at h
    exact ⟨schema.fields, h.symm, Node.partOf_refl hu, hu, fun _ => rfl⟩
  · have hok : ∃ list, select schema.fields paths [] = .ok list := by
      have hempty : paths.isEmpty = false := by simpa using hp
      rw [resolve, hempty] at h
      rcases Outcome.bind_eq_ok.mp h with ⟨list, hlist, -⟩
      exact ⟨list, hlist⟩
    rcases hok with ⟨list, hlist⟩
    rcases select_eq_ok.mp hlist with ⟨places, hplaces, -⟩
    rw [resolve_of_leads hp hplaces, Except.ok.injEq] at h
    have hasked := askedFields_partOf hu places
    exact ⟨_, h.symm, hasked.1, hasked.2, fun hn => absurd hn hp⟩

end Projection

end NestedColumns

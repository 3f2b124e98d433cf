import NestedColumns.Proofs.Assembly.Placing
import NestedColumns.Record

/-!
# Filling a record

All columns of a shape put into a record, one after another, give what the shape
shows of the document. Columns below one field of an object change the slot of
that field only, and all columns below an array change the same slots, one for
each item.

## Main definitions

* `Assembly.tracks`: The steps and the way of each leaf of a shape, in order.
* `Assembly.fillAll`: A slot with what a value has along some of them.

## Theorems

* `Assembly.fillAll_element`, `Assembly.getD_fillAll_fields`: What is filled into
  an array, and into an object.
* `Assembly.slotToJson_fillAll`: A filled slot as JSON.
* `Assembly.membersToJson_fillAll`: A filled record as JSON.
-/

namespace NestedColumns

namespace Assembly

open Schema (Node)
open Json (present? presentItems Conforms shown shownMembers)

/-- The steps and the way of a leaf. -/
abbrev Track := List Step × Way

mutual

/-- The steps and the way of each leaf of a shape, in order. -/
def tracks : Node → List Track
  | .leaf _ _ => [([], [])]
  | .object fields => tracksOf fields 0
  | .array element => (tracks element).map fun t => (.element :: t.1, .element :: t.2)

/-- The same below fields, the first of which has the place `index`. -/
def tracksOf : List (String × Node) → Nat → List Track
  | [], _ => []
  | (name, node) :: rest, index =>
    ((tracks node).map fun t => (.member index :: t.1, .member name :: t.2)) ++
      tracksOf rest (index + 1)

end

/-- A slot with what a value has along some tracks. -/
def fillAll (ts : List Track) (v : Json) (slot : Slot) : Slot :=
  ts.foldl (fun slot t => fill t.1 t.2 v slot) slot

theorem fillAll_nil (v : Json) (slot : Slot) : fillAll [] v slot = slot := rfl

theorem fillAll_cons (t : Track) (ts : List Track) (v : Json) (slot : Slot) :
    fillAll (t :: ts) v slot = fillAll ts v (fill t.1 t.2 v slot) := rfl

theorem fillAll_append (a b : List Track) (v : Json) (slot : Slot) :
    fillAll (a ++ b) v slot = fillAll b v (fillAll a v slot) :=
  List.foldl_append

theorem length_tracks (node : Node) : (tracks node).length = node.columns.length := by
  induction node using Node.inductionOn with
  | leaf column type => rfl
  | array element ih => rw [tracks, List.length_map, Node.columns, ih]
  | object fields ih =>
      have hfields : ∀ index, (tracksOf fields index).length = (Node.columnsOf fields).length := by
        induction fields with
        | nil => intro index; rfl
        | cons f rest ihrest =>
            intro index
            rcases f with ⟨name, node⟩
            rw [tracksOf, List.length_append, List.length_map, Node.columnsOf, List.length_append,
              ih _ List.mem_cons_self, ihrest fun f hf => ih f (List.mem_cons_of_mem _ hf)]
      exact hfields 0

theorem tracks_eq_nil_iff {node : Node} : tracks node = [] ↔ node.hasLeaf = false := by
  rw [← List.length_eq_zero_iff, length_tracks, List.length_eq_zero_iff, Node.hasLeaf,
    Bool.not_eq_false', List.isEmpty_iff]

/-! ### Arrays -/

theorem placeItems_nil (f : Json → Slot → Slot) (items : List Json) (before : List Slot) :
    placeItems f before.length items before = before ++ items.map fun v => f v .absent := by
  induction items generalizing before with
  | nil => rw [placeItems, List.map_nil, List.append_nil]
  | cons v items ih =>
      have hplace : Slot.modifyPlace (f v) before.length before = before ++ [f v .absent] := by
        induction before with
        | nil => rfl
        | cons s before ih => rw [List.length_cons, Slot.modifyPlace, ih, List.cons_append]
      have hrest := ih (before ++ [f v .absent])
      rw [List.length_append, List.length_singleton, List.append_assoc, List.singleton_append] at hrest
      rw [placeItems, hplace, hrest, List.map_cons]

theorem placeItems_map (f : Json → Slot → Slot) (g : Json → Slot) (items : List Json)
    (before : List Slot) :
    placeItems f before.length items (before ++ items.map g) =
      before ++ items.map fun v => f v (g v) := by
  induction items generalizing before with
  | nil => rfl
  | cons v items ih =>
      have hplace : Slot.modifyPlace (f v) before.length (before ++ (v :: items).map g) =
          before ++ [f v (g v)] ++ items.map g := by
        induction before with
        | nil => rfl
        | cons s before ih =>
            rw [List.length_cons, List.cons_append, Slot.modifyPlace, ih]
            rfl
      have hrest := ih (before ++ [f v (g v)])
      rw [List.length_append, List.length_singleton] at hrest
      rw [placeItems, hplace, hrest, List.append_assoc, List.singleton_append, List.map_cons]

/-- All columns below an array change the slots of its items. -/
theorem fillAll_element_map (ts : List Track) (items : List Json) (g : Json → Slot) :
    fillAll (ts.map fun t => (.element :: t.1, .element :: t.2)) (.array items)
        (.array ((presentItems items).map g)) =
      .array ((presentItems items).map fun v => fillAll ts v (g v)) := by
  induction ts generalizing g with
  | nil => rfl
  | cons t ts ih =>
      have hplace := placeItems_map (fill t.1 t.2) g (presentItems items) []
      rw [List.length_nil, List.nil_append, List.nil_append] at hplace
      have hfill : fill (.element :: t.1) (.element :: t.2) (.array items)
          (.array ((presentItems items).map g)) =
          .array ((presentItems items).map fun v => fill t.1 t.2 v (g v)) :=
        congrArg Slot.array hplace
      rw [List.map_cons, fillAll_cons, hfill, ih]
      rfl

/-- An array with a column below it gets a slot for each item. -/
theorem fillAll_element {ts : List Track} (hts : ts ≠ []) (items : List Json) :
    fillAll (ts.map fun t => (.element :: t.1, .element :: t.2)) (.array items) .absent =
      .array ((presentItems items).map fun v => fillAll ts v .absent) := by
  cases ts with
  | nil => exact absurd rfl hts
  | cons t ts =>
      have hplace := placeItems_nil (fill t.1 t.2) (presentItems items) []
      rw [List.length_nil, List.nil_append] at hplace
      have hfill : fill (.element :: t.1) (.element :: t.2) (.array items) .absent =
          .array ((presentItems items).map fun v => fill t.1 t.2 v .absent) :=
        congrArg Slot.array hplace
      rw [List.map_cons, fillAll_cons, hfill, fillAll_element_map]
      rfl

/-! ### Objects -/

/-- What a member has along some tracks is filled into its slot. -/
def fillMember (members : List (String × Json)) (name : String) (ts : List Track) (slot : Slot) :
    Slot :=
  match present? members name with
  | some v => fillAll ts v slot
  | none => slot

/-- Columns below one field change the slot of that field. -/
theorem fillAll_member (ts : List Track) (index : Nat) (name : String)
    (members : List (String × Json)) (slots : List Slot) :
    ∃ slots', fillAll (ts.map fun t => (.member index :: t.1, .member name :: t.2))
        (.object members) (.object slots) = .object slots' ∧
      ∀ j, slots'.getD j .absent =
        if index = j then fillMember members name ts (slots.getD j .absent)
        else slots.getD j .absent := by
  induction ts generalizing slots with
  | nil =>
      refine ⟨slots, rfl, fun j => ?_⟩
      rw [fillMember]
      cases present? members name <;> simp only [fillAll_nil, ite_self]
  | cons t ts ih =>
      rw [List.map_cons, fillAll_cons]
      cases hv : present? members name with
      | none =>
          rcases ih slots with ⟨slots', heq, hall⟩
          refine ⟨slots', ?_, fun j => ?_⟩
          · rw [fill_member_none hv]
            exact heq
          · rw [hall, fillMember, fillMember, hv]
      | some v =>
          rcases ih (Slot.modifyPlace (fill t.1 t.2 v) index slots) with ⟨slots', heq, hall⟩
          refine ⟨slots', ?_, fun j => ?_⟩
          · rw [fill_member_some hv]
            exact heq
          · rw [hall, fillMember, fillMember, hv, Slot.getD_modifyPlace]
            by_cases hj : index = j
            · simp only [hj, if_true, fillAll_cons]
            · simp only [hj, if_false]

/-- Columns below fields change the slots of these fields, each by its own columns. -/
theorem getD_fillAll_fields (fields : List (String × Node)) (index : Nat)
    (members : List (String × Json)) (slots : List Slot) :
    ∃ slots', fillAll (tracksOf fields index) (.object members) (.object slots) = .object slots' ∧
      (∀ j, j < index → slots'.getD j .absent = slots.getD j .absent) ∧
      ∀ (i : Nat) (f : String × Node), fields[i]? = some f → slots'.getD (index + i) .absent =
        fillMember members f.1 (tracks f.2) (slots.getD (index + i) .absent) := by
  induction fields generalizing index slots with
  | nil => exact ⟨slots, rfl, fun _ _ => rfl, fun i f hf => by cases hf⟩
  | cons first rest ih =>
      rcases first with ⟨name, node⟩
      rcases fillAll_member (tracks node) index name members slots with ⟨middle, hmiddle, hfirst⟩
      rcases ih (index + 1) middle with ⟨slots', heq, hbefore, hrest⟩
      refine ⟨slots', ?_, fun j hj => ?_, fun i f hf => ?_⟩
      · rw [tracksOf, fillAll_append, hmiddle, heq]
      · rw [hbefore j (by omega), hfirst, if_neg (by omega)]
      · cases i with
        | zero =>
            rw [List.getElem?_cons_zero, Option.some.injEq] at hf
            rw [← hf, Nat.add_zero, hbefore index (by omega), hfirst, if_pos rfl]
        | succ i =>
            have hplace : index + (i + 1) = index + 1 + i := by omega
            rw [hplace, hrest i f hf, hfirst, if_neg (by omega)]

theorem mem_tracksOf {fields : List (String × Node)} {index : Nat} {t : Track}
    (h : t ∈ tracksOf fields index) :
    ∃ i name, ∃ inner : Track, t = (.member i :: inner.1, .member name :: inner.2) := by
  induction fields generalizing index with
  | nil => exact absurd h List.not_mem_nil
  | cons first rest ih =>
      rcases first with ⟨name, node⟩
      rw [tracksOf, List.mem_append] at h
      rcases h with h | h
      · rcases List.mem_map.mp h with ⟨inner, -, rfl⟩
        exact ⟨index, name, inner, rfl⟩
      · exact ih h

theorem mem_tracksOf_of_mem {fields : List (String × Node)} {f : String × Node} (hf : f ∈ fields)
    {t : Track} (ht : t ∈ tracks f.2) (index : Nat) :
    ∃ i, (.member i :: t.1, .member f.1 :: t.2) ∈ tracksOf fields index := by
  induction fields generalizing index with
  | nil => exact absurd hf List.not_mem_nil
  | cons first rest ih =>
      rw [tracksOf]
      rcases List.mem_cons.mp hf with rfl | hf
      · exact ⟨index, List.mem_append_left _ (List.mem_map.mpr ⟨t, ht, rfl⟩)⟩
      · rcases ih hf (index + 1) with ⟨i, hi⟩
        exact ⟨i, List.mem_append_right _ hi⟩

/-- A slot that is filled from nothing is filled from an object. -/
theorem fillAll_absent_eq {fields : List (String × Node)} (h : tracksOf fields 0 ≠ [])
    (members : List (String × Json)) :
    fillAll (tracksOf fields 0) (.object members) .absent =
      fillAll (tracksOf fields 0) (.object members) (.object []) := by
  cases hts : tracksOf fields 0 with
  | nil => exact absurd hts h
  | cons t ts =>
      have hmem : t ∈ tracksOf fields 0 := hts ▸ List.mem_cons_self
      rcases mem_tracksOf hmem with ⟨i, name, inner, rfl⟩
      rw [fillAll_cons, fillAll_cons]
      cases hv : present? members name with
      | none => rw [fill_member_none hv]; rfl
      | some v => rw [fill_member_some hv]; rfl

/-! ### Filled slots as JSON -/

/-- The members that are there, in the order of the fields. -/
def presentMembers : List (String × Node) → List Slot → List (String × Json)
  | (name, node) :: fields, slot :: slots =>
    if slot.isAbsent then presentMembers fields slots
    else (name, Record.slotToJson node slot) :: presentMembers fields slots
  | _, _ => []

theorem setMember_of_not_mem {name : String} {named : List (String × Json)}
    (h : name ∉ named.map (·.1)) (v : Json) :
    Json.setMember name v named = named ++ [(name, v)] := by
  induction named with
  | nil => rfl
  | cons m rest ih =>
      rcases m with ⟨n, w⟩
      rw [List.map_cons, List.mem_cons, not_or] at h
      rw [Json.setMember, if_neg (Ne.symm h.1), ih h.2, List.cons_append]

/-- Fields of different names give members of different names. -/
theorem membersToJson_eq {fields : List (String × Node)} (hd : (fields.map (·.1)).Nodup)
    (slots : List Slot) (named : List (String × Json))
    (hn : ∀ f ∈ fields, f.1 ∉ named.map (·.1)) :
    Record.membersToJson fields slots named = named ++ presentMembers fields slots := by
  induction fields generalizing slots named with
  | nil => cases slots <;> rw [Record.membersToJson, presentMembers, List.append_nil] <;>
      simp only [reduceCtorEq, false_implies, implies_true]
  | cons f rest ih =>
      rcases f with ⟨name, node⟩
      rw [List.map_cons, List.nodup_cons] at hd
      cases slots with
      | nil => rw [Record.membersToJson, presentMembers, List.append_nil] <;>
          simp only [reduceCtorEq, false_implies, implies_true]
      | cons slot slots =>
          have hrest : ∀ f ∈ rest, f.1 ∉ named.map (·.1) := fun f hf =>
            hn f (List.mem_cons_of_mem _ hf)
          rw [Record.membersToJson, presentMembers]
          by_cases habsent : slot.isAbsent = true
          · rw [if_pos habsent, if_pos habsent, ih hd.2 slots named hrest]
          · rw [if_neg habsent, if_neg habsent,
              setMember_of_not_mem (hn (name, node) List.mem_cons_self), ih hd.2 slots,
              List.append_assoc, List.singleton_append]
            intro f hf hmem
            rw [List.map_append, List.mem_append, List.map_singleton, List.mem_singleton] at hmem
            rcases hmem with hmem | hmem
            · exact hrest f hf hmem
            · exact hd.1 (List.mem_map.mpr ⟨f, hf, hmem⟩)

/-- The members of filled slots are those that the fields show. -/
theorem presentMembers_eq {fields : List (String × Node)} {members : List (String × Json)}
    (hf : ∀ f ∈ fields, ∀ v, present? members f.1 = some v → f.2.hasLeaf = true →
      (fillAll (tracks f.2) v .absent).isAbsent = false ∧
        Record.slotToJson f.2 (fillAll (tracks f.2) v .absent) = shown f.2 v)
    {slots : List Slot}
    (hs : ∀ i f, fields[i]? = some f →
      slots.getD i .absent = fillMember members f.1 (tracks f.2) .absent) :
    presentMembers fields slots = shownMembers fields members := by
  induction fields generalizing slots with
  | nil => cases slots <;> rfl
  | cons f rest ih =>
      rcases f with ⟨name, node⟩
      have hfirst := hs 0 (name, node) rfl
      have hrest : ∀ i f, rest[i]? = some f →
          slots.tail.getD i .absent = fillMember members f.1 (tracks f.2) .absent := by
        intro i f hi
        rw [← hs (i + 1) f hi]
        cases slots <;> rfl
      have hmore := ih (fun f hm => hf f (List.mem_cons_of_mem _ hm)) hrest
      -- A list of slots that is too short is one with absent slots.
      have hsplit : presentMembers ((name, node) :: rest) slots =
          (if (slots.getD 0 .absent).isAbsent then []
            else [(name, Record.slotToJson node (slots.getD 0 .absent))]) ++
            presentMembers rest slots.tail := by
        cases slots with
        | nil => cases rest <;> rfl
        | cons slot slots =>
            rw [presentMembers]
            cases h : slot.isAbsent <;> simp [h]
      rw [hsplit, hmore, hfirst, fillMember, shownMembers]
      cases hv : present? members name with
      | none => cases node.hasLeaf <;> rfl
      | some v =>
          cases hleaf : node.hasLeaf with
          | false => rw [tracks_eq_nil_iff.mpr hleaf]; rfl
          | true =>
              rcases hf (name, node) List.mem_cons_self v hv hleaf with ⟨hthere, hjson⟩
              simp only [hthere, hjson, Bool.false_eq_true, if_false, List.singleton_append]

theorem elementsToJson_map (node : Node) (g : Json → Slot) (items : List Json) :
    Record.elementsToJson node (items.map g) = items.map fun v => Record.slotToJson node (g v) := by
  induction items with
  | nil => rfl
  | cons v items ih => rw [List.map_cons, Record.elementsToJson, ih, List.map_cons]

/-- The members of a filled object are those that the fields show, if what is filled
    below each field is. -/
theorem membersToJson_fillAll_of {fields : List (String × Node)}
    (hd : (fields.map (·.1)).Nodup) {members : List (String × Json)}
    (hf : ∀ f ∈ fields, ∀ v, present? members f.1 = some v → f.2.hasLeaf = true →
      (fillAll (tracks f.2) v .absent).isAbsent = false ∧
        Record.slotToJson f.2 (fillAll (tracks f.2) v .absent) = shown f.2 v) :
    ∃ slots, fillAll (tracksOf fields 0) (.object members) (.object []) = .object slots ∧
      Record.membersToJson fields slots [] = shownMembers fields members := by
  rcases getD_fillAll_fields fields 0 members [] with ⟨slots, heq, -, hall⟩
  refine ⟨slots, heq, ?_⟩
  rw [membersToJson_eq hd slots [] fun f _ => List.not_mem_nil, List.nil_append]
  refine presentMembers_eq hf fun i f hi => ?_
  have hslot := hall i f hi
  rw [Nat.zero_add] at hslot
  rw [hslot]
  rfl

/-- A filled slot as JSON is what its shape shows of the value. -/
theorem slotToJson_fillAll {node : Node} (hu : node.NamesUnique) (hl : node.hasLeaf = true)
    {v : Json} (hc : ∀ t ∈ tracks node, Conforms t.2 v) :
    (fillAll (tracks node) v .absent).isAbsent = false ∧
      Record.slotToJson node (fillAll (tracks node) v .absent) = shown node v := by
  induction node using Node.inductionOn generalizing v with
  | leaf column type =>
      rcases Option.isSome_iff_exists.mp (hc ([], []) (List.mem_singleton_self _)) with ⟨x, hx⟩
      have hfill : fillAll (tracks (.leaf column type)) v .absent = .value x := by
        rw [tracks, fillAll_cons, fillAll_nil, fill_nil hx]
      have hshown : shown (.leaf column type) v = x.toJson := by
        cases v <;> simp only [shown, Json.scalar, hx]
      rw [hfill, hshown]
      exact ⟨rfl, rfl⟩
  | array element ih =>
      have hts : tracks element ≠ [] := fun h => by
        have helement : element.hasLeaf = false := tracks_eq_nil_iff.mp h
        rw [show (Node.array element).hasLeaf = element.hasLeaf from rfl, helement] at hl
        cases hl
      cases v with
      | array items =>
          rw [tracks, fillAll_element hts, shown]
          refine ⟨rfl, ?_⟩
          rw [Record.slotToJson, elementsToJson_map, Json.array.injEq]
          refine List.map_congr_left fun w hw => (ih hu hl fun t ht => ?_).2
          exact hc _ (List.mem_map_of_mem ht) w hw
      | null | bool | number | string | object =>
          rcases List.exists_mem_of_ne_nil _ hts with ⟨t, ht⟩
          exact absurd (hc _ (List.mem_map_of_mem ht)) (by simp only [Conforms, not_false_eq_true])
  | object fields ih =>
      have hts : tracksOf fields 0 ≠ [] := fun h => by
        have hnone : (Node.object fields).hasLeaf = false := tracks_eq_nil_iff.mp h
        rw [hnone] at hl
        cases hl
      cases v with
      | object members =>
          have hfields : ∀ f ∈ fields, ∀ v, present? members f.1 = some v → f.2.hasLeaf = true →
              (fillAll (tracks f.2) v .absent).isAbsent = false ∧
                Record.slotToJson f.2 (fillAll (tracks f.2) v .absent) = shown f.2 v := by
            intro f hf w hw hleaf
            refine ih f hf (Node.namesUniqueOf_iff.mp hu.2 f hf) hleaf fun t ht => ?_
            rcases mem_tracksOf_of_mem hf ht 0 with ⟨i, hi⟩
            exact hc _ hi w hw
          rcases membersToJson_fillAll_of hu.1 hfields with ⟨slots, heq, hjson⟩
          rw [tracks, fillAll_absent_eq hts, heq, shown]
          exact ⟨rfl, congrArg Json.object hjson⟩
      | null | bool | number | string | array =>
          rcases List.exists_mem_of_ne_nil _ hts with ⟨t, ht⟩
          rcases mem_tracksOf ht with ⟨i, name, inner, rfl⟩
          exact absurd (hc _ ht) (by simp only [Conforms, not_false_eq_true])

/-- A filled record as JSON is what its fields show of the document. -/
theorem membersToJson_fillAll {fields : List (String × Node)}
    (hu : (Node.object fields).NamesUnique) {members : List (String × Json)}
    (hc : ∀ t ∈ tracksOf fields 0, Conforms t.2 (.object members)) :
    ∃ slots, fillAll (tracksOf fields 0) (.object members) (.object []) = .object slots ∧
      Record.membersToJson fields slots [] = shownMembers fields members := by
  refine membersToJson_fillAll_of hu.1 fun f hf w hw hleaf => ?_
  refine slotToJson_fillAll (Node.namesUniqueOf_iff.mp hu.2 f hf) hleaf fun t ht => ?_
  rcases mem_tracksOf_of_mem hf ht 0 with ⟨i, hi⟩
  exact hc _ hi w hw

end Assembly

end NestedColumns

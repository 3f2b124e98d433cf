import NestedColumns.Proofs.Assembly.Slots
import NestedColumns.Proofs.Column.Bounded
import NestedColumns.Proofs.Projection.Listing
import NestedColumns.Proofs.Projection.Resolving

/-!
# Assembly within bounds

Putting a document together looks up positions by the levels of its entries, cuts the steps of a
column at a level, and takes the shape of a column from another one. The levels come from files and
the number of positions from the schema, as eight bits of it. Here these accesses are checked, so
that one that goes out of bounds has no result.

If no way in the schema has more than 255 steps, assembling has a result, whatever the entries of
the columns are, and it is that of `Assembly.assemble`.

## Main definitions

* `Projection.Narrow`: The levels of a projection fit into eight bits.
* `Assembly.Turn`, `Assembly.route`: The slots on the way to a leaf, each by its index.
* `Assembly.placeWithin`, `Assembly.assembleWithin`: Assembly with every access checked.

## Theorems

* `Projection.narrow_of_resolve`: Which projections are narrow.
* `Assembly.placeWithin_eq`: Placing the entries of one column stays within bounds.
* `Assembly.assembleWithin_eq`: Assembling a document does.
* `Assembly.within_bounds`: So do reading a page and a column file.
-/

namespace NestedColumns

/-! ### Levels of eight bits -/

namespace Schema

open Node

theorem height_mapObject_le {change : List (String × Node) → List (String × Node)}
    (h : ∀ fields, heightOf (change fields) ≤ heightOf fields) (node : Node) :
    (Projection.mapObject change node).height ≤ node.height := by
  induction node using Node.inductionOn with
  | leaf column type => exact Nat.le_refl _
  | array element ih =>
      rw [Projection.mapObject, height, height]
      exact Nat.succ_le_succ ih
  | object fields =>
      rw [Projection.mapObject, height, height]
      exact h fields

mutual

-- What is asked for below a field is no higher than what is below the field.
theorem height_pruneField_lt (fields : List (String × Node)) (entry : Projection.Selected)
    {f : String × Node} (h : f ∈ Projection.pruneField fields entry) :
    f.2.height < heightOf fields := by
  match entry with
  | .whole index =>
      rw [Projection.pruneField] at h
      exact height_lt_of_mem (List.mem_of_getElem? h)
  | .part index children =>
      rw [Projection.pruneField, Option.mem_map] at h
      rcases h with ⟨⟨name, node⟩, hin, rfl⟩
      have hlower : Node.height (name, node).2 < heightOf fields :=
        height_lt_of_mem (List.mem_of_getElem? hin)
      exact Nat.lt_of_le_of_lt (height_mapObject_le (fun inner =>
        heightOf_pruneFields_le inner children) node) hlower

theorem heightOf_pruneFields_le (fields : List (String × Node))
    (entries : List Projection.Selected) :
    heightOf (Projection.pruneFields fields entries) ≤ heightOf fields := by
  match entries with
  | [] =>
      rw [Projection.pruneFields, heightOf]
      exact Nat.zero_le _
  | entry :: rest =>
      have hrest := heightOf_pruneFields_le fields rest
      rw [Projection.pruneFields, heightOf_append]
      refine Nat.max_le.mpr ⟨?_, hrest⟩
      cases hentry : Projection.pruneField fields entry with
      | none => exact Nat.zero_le _
      | some f =>
          have hlower := height_pruneField_lt fields entry hentry
          rw [Option.toList_some, heightOf, heightOf, Nat.max_zero]
          exact hlower

end

end Schema

namespace Projection

/-- The levels of a projection fit into eight bits, and so do those of the sources of its columns. -/
def Narrow (p : Projection) : Prop :=
  ∀ c ∈ p.columns, c.steps.length < 2 ^ 8 ∧
    ∀ source ∈ c.shapeSources, source.depth < 2 ^ 8 ∧ source.rep < 2 ^ 8

theorem elements_le_length (steps : List Step) : Step.elements steps ≤ steps.length :=
  List.countP_le_length

theorem length_steps_le {schema : Schema} {c : ProjectedColumn} (h : c ∈ (ofSchema schema).columns) :
    c.steps.length ≤ schema.root.height := by
  rw [columns_ofSchema, List.mem_map] at h
  rcases h with ⟨spot, hspot, rfl⟩
  have hlevels := levels_of_along? (c := projected spot) (Schema.along?_of_mem_spots hspot)
  have hle := (Schema.levels_le_height hspot).2
  rwa [← hlevels.2] at hle

theorem depth_lt_of_mem_shapeSourcesOf {table : List ProjectedColumn} {full : ProjectedColumn}
    {source : ProjectedColumn × Nat} (h : source ∈ shapeSourcesOf table full) :
    source.2 < full.steps.length := by
  rcases List.mem_filterMap.mp (mem_of_mem_dropRepeats h) with ⟨depth, hdepth, hat⟩
  rw [(shapeSourceAt_eq_some hat).1]
  rw [List.mem_filter, List.mem_reverse, List.mem_range] at hdepth
  exact hdepth.1

-- The sources of a column are no deeper than the column, and share no more arrays with it.
theorem narrow_linkSources {columns shapes : List ProjectedColumn} {full : ProjectedColumn}
    {sources : List (ProjectedColumn × Nat)} {bound : Nat} (hs : ∀ s ∈ sources, s.2 < bound) :
    ∀ s ∈ (linkSources columns shapes full sources).1, s.depth < bound ∧ s.rep < bound := by
  induction sources generalizing shapes with
  | nil => exact fun s hin => absurd hin List.not_mem_nil
  | cons source rest ih =>
      rcases source with ⟨c, depth⟩
      rcases List.forall_mem_cons.mp hs with ⟨hdepth, hrest⟩
      have harrays := elements_le_length (full.steps.take depth)
      have htake := List.length_take_le depth full.steps
      rw [linkSources_cons]
      exact List.forall_mem_cons.mpr
        ⟨⟨hdepth, Nat.lt_of_le_of_lt (Nat.le_trans harrays htake) hdepth⟩, ih hrest⟩

theorem narrow_linkColumns {table columns shapes rest : List ProjectedColumn} {bound : Nat}
    (ht : ∀ full ∈ table, full.steps.length ≤ bound) :
    ∀ c ∈ (linkColumns table columns shapes rest).1, ∀ s ∈ c.shapeSources,
      s.depth < bound ∧ s.rep < bound := by
  induction rest generalizing shapes with
  | nil => exact fun c hin => absurd hin List.not_mem_nil
  | cons column rest ih =>
      rw [linkColumns_cons]
      refine List.forall_mem_cons.mpr ⟨?_, ih⟩
      cases hfound : table.find? (·.column = column.column) with
      | none => exact fun s hin => absurd hin List.not_mem_nil
      | some full =>
          have hlength := ht full (List.mem_of_find?_eq_some hfound)
          exact narrow_linkSources fun s hs =>
            Nat.lt_of_lt_of_le (depth_lt_of_mem_shapeSourcesOf hs) hlength

/-- What is resolved against a schema without ways of more than 255 steps is narrow. -/
theorem narrow_of_resolve {schema : Schema} {paths : List String} {p : Projection}
    (hh : schema.root.height ≤ 255) (h : resolve schema paths = .ok p) : p.Narrow := by
  rcases Outcome.bind_eq_ok.mp h with ⟨entries, -, hp⟩
  have hpart : Schema.Node.heightOf (pruneFields schema.fields entries) ≤ schema.root.height :=
    Schema.heightOf_pruneFields_le schema.fields entries
  have hsteps : ∀ c ∈ (ofSchema (Schema.ofFields (pruneFields schema.fields entries))).columns,
      c.steps.length ≤ 255 := fun c hc =>
    Nat.le_trans (length_steps_le hc) (Nat.le_trans hpart hh)
  cases hp
  intro c hc
  refine ⟨?_, fun source hsource => ?_⟩
  · have hbare := List.mem_map_of_mem (f := bare) hc
    rw [withShapeSources, map_bare_linkColumns, List.mem_map] at hbare
    rcases hbare with ⟨other, hother, hsame⟩
    have hlength := hsteps other hother
    have hsteps : (bare other).steps = (bare c).steps := congrArg ProjectedColumn.steps hsame
    have hshort : c.steps.length ≤ 255 := hsteps ▸ hlength
    omega
  · have htable : ∀ full ∈ (ofSchema schema).columns, full.steps.length ≤ 255 := fun full hfull =>
      Nat.le_trans (length_steps_le hfull) hh
    rcases narrow_linkColumns htable c hc source hsource with ⟨hdepth, hrep⟩
    omega

end Projection

/-! ### Documents -/

namespace Assembly

open Checked (lift_bind slice?)

/-- A slot inside another one, by its index. -/
inductive Turn where
  | member (index : Nat)
  | element (index : Nat)
  deriving DecidableEq, Repr

/-- The slots on the way of some steps. The index of an element is looked up by how many arrays are
    on the way before it. -/
def route (positions : List Nat) : Nat → List Step → Option (List Turn)
  | _, [] => some []
  | level, .member index :: steps => do
    let rest ← route positions level steps
    return .member index :: rest
  | level, .element :: steps => do
    let position ← positions[level]?
    let rest ← route positions (level + 1) steps
    return .element position :: rest

/-- Change the slot at the end of a way. -/
def modifyAlong (f : Slot → Slot) : List Turn → Slot → Slot
  | [], slot => f slot
  | .member index :: rest, slot =>
    .object (Slot.modifyPlace (modifyAlong f rest) index slot.members)
  | .element index :: rest, slot =>
    .array (Slot.modifyPlace (modifyAlong f rest) index slot.elements)

/-- The positions after an entry of repetition level `rep`: one of them is counted up, and those
    behind it start again. -/
def advanceWithin (rep : Nat) (positions : List Nat) : Option (List Nat) :=
  if rep = 0 then some positions
  else do
    let position ← positions[rep - 1]?
    let positions := positions.set (rep - 1) (position + 1)
    let inner ← slice? positions rep positions.length
    return positions.take rep ++ inner.map fun _ => 0

/-- Put the entries of one column into a record, with every access checked. There are as many
    positions as eight bits of the repetition level say. -/
def placeFromWithin (column : ProjectedColumn) :
    Bool → List Nat → List Triple → Slot → Checked AssemblyError Slot
  | _, _, [], root => pure root
  | first, positions, t :: rest, root =>
    if first ≠ decide (t.rep = 0) ∨ positions.length < t.rep ∨ column.steps.length < t.level then
      throw (.levels t.rep t.level column.path)
    else do
      let positions ← advanceWithin t.rep positions
      let steps ← slice? column.steps 0 t.level
      let way ← route positions 0 steps
      let f ← Checked.ofExcept (filling column t)
      placeFromWithin column false positions rest (modifyAlong f way root)

/-- Put the entries of one column of one document into a record. -/
def placeWithin (column : ProjectedColumn) (triples : List Triple) (root : Slot) :
    Checked AssemblyError Slot :=
  placeFromWithin column true (List.replicate (column.maxRep % 2 ^ 8) 0) triples root

/-- The entries without value that a document would have in a column, with the levels of its sources
    as eight bits. -/
def shapeWithin (reads : List (List Triple)) : List ShapeSource → List Triple
  | [] => []
  | source :: rest =>
    match reads[source.read]? with
    | some (t :: triples) =>
      ((t :: triples).filter (·.rep ≤ source.rep % 2 ^ 8)).map fun t =>
        .absent t.rep (min t.level (source.depth % 2 ^ 8))
    | _ => shapeWithin reads rest

/-- Put the entries of each column into a record. -/
def columnsWithin (reads : List (List Triple)) :
    List (ProjectedColumn × List Triple) → Slot → Checked AssemblyError Slot
  | [], root => pure root
  | (column, triples) :: rest, root => do
    let root ← placeWithin column
      (if triples.isEmpty then shapeWithin reads column.shapeSources else triples) root
    columnsWithin reads rest root

/-- A record from the entries of one document, with every access checked. -/
def assembleWithin (p : Projection) (reads : List (List Triple)) : Checked AssemblyError Record := do
  let root ← columnsWithin reads (p.columns.zip reads) (.object [])
  return ⟨p.schema.fields, root⟩

/-! ### Positions -/

theorem length_advance (rep : Nat) (positions : List Nat) :
    (advance rep positions).length = positions.length := by
  induction positions generalizing rep with
  | nil => rcases rep with _ | _ | rep <;> rfl
  | cons position inner ih =>
      rcases rep with _ | _ | rep
      · rfl
      · rw [advance, List.length_cons, List.length_cons, List.length_map]
      · rw [advance, List.length_cons, List.length_cons, ih]

theorem advanceWithin_eq {rep : Nat} {positions : List Nat} (h : rep ≤ positions.length) :
    advanceWithin rep positions = some (advance rep positions) := by
  cases rep with
  | zero =>
      rw [advanceWithin, if_pos rfl]
      cases positions <;> rfl
  | succ n =>
      -- The positions in front of the one that is counted up, that one, and those behind it.
      have hplace : (positions.take n).length = n := by
        rw [List.length_take]
        omega
      have hparts := List.take_append_drop n positions
      rw [List.drop_eq_getElem_cons (show n < positions.length from h)] at hparts
      generalize positions.take n = place at hplace hparts
      generalize positions[n] = position at hparts
      generalize positions.drop (n + 1) = inner at hparts
      subst hparts hplace
      have hset : (place ++ position :: inner).set place.length (position + 1) =
          place ++ (position + 1) :: inner := by
        rw [List.set_append_right _ _ (Nat.le_refl _), Nat.sub_self, List.set_cons_zero]
      have hfront : place ++ (position + 1) :: inner = (place ++ [position + 1]) ++ inner := by
        rw [List.append_assoc, List.singleton_append]
      have hlength : (place ++ [position + 1]).length = place.length + 1 := by
        rw [List.length_append, List.length_singleton]
      have hinner : slice? (place ++ (position + 1) :: inner) (place.length + 1)
          (place ++ (position + 1) :: inner).length = some inner := by
        rw [hfront, slice?, if_pos ⟨by rw [List.length_append, hlength]; omega, Nat.le_refl _⟩,
          List.drop_left' hlength, List.length_append, hlength, Nat.add_sub_cancel_left,
          List.take_length]
      rw [advanceWithin, if_neg (Nat.succ_ne_zero _), Nat.add_sub_cancel, advance_append,
        List.getElem?_append_right (Nat.le_refl _), Nat.sub_self, List.getElem?_cons_zero]
      simp only [Option.bind_eq_bind, Option.bind_some, hset, hinner]
      rw [hfront, List.take_left' hlength, List.append_assoc, List.singleton_append, List.map_const']
      rfl

-- There is a position for each array on the way, so all slots on it are found.
theorem route_eq {steps : List Step} {positions : List Nat} {level : Nat}
    (h : level + Step.elements steps ≤ positions.length) :
    ∃ way, route positions level steps = some way ∧
      ∀ f, modifyAlong f way = Slot.modifyAt f steps (positions.drop level) := by
  induction steps generalizing level with
  | nil => exact ⟨[], rfl, fun f => rfl⟩
  | cons step steps ih =>
      cases step with
      | member index =>
          rw [Step.elements_member] at h
          rcases ih h with ⟨way, hway, hsame⟩
          refine ⟨.member index :: way, by rw [route, hway]; rfl, fun f => funext fun slot => ?_⟩
          rw [modifyAlong, hsame, Slot.modifyAt]
      | element =>
          rw [Step.elements_element] at h
          have hlt : level < positions.length := by omega
          rcases @ih (level + 1) (by omega) with ⟨way, hway, hsame⟩
          refine ⟨.element positions[level] :: way, ?_, fun f => funext fun slot => ?_⟩
          · rw [route, List.getElem?_eq_getElem hlt, hway]
            rfl
          · rw [modifyAlong, hsame, Slot.modifyAt, List.drop_eq_getElem_cons hlt]
            rfl

/-! ### Columns and documents -/

-- The induction is on the entries. The positions are counted up and started again, but there are
-- always as many of them as arrays on the way.
theorem placeFromWithin_eq {column : ProjectedColumn} {positions : List Nat} {first : Bool}
    (h : positions.length = column.maxRep) (triples : List Triple) (root : Slot) :
    placeFromWithin column first positions triples root =
      Checked.ofExcept (placeFrom column first positions triples root) := by
  induction triples generalizing first positions root with
  | nil => rfl
  | cons t rest ih =>
      rw [placeFromWithin, placeFrom, h]
      by_cases hbad : first ≠ decide (t.rep = 0) ∨ column.maxRep < t.rep ∨ column.maxDef < t.level
      · rw [if_pos hbad]
        exact if_pos hbad
      · have hrep : t.rep ≤ positions.length := by
          rw [h]
          exact Nat.le_of_not_lt fun hlt => hbad (Or.inr (Or.inl hlt))
        have hlevel : t.level ≤ column.steps.length :=
          Nat.le_of_not_lt fun hlt => hbad (Or.inr (Or.inr hlt))
        have hsteps : slice? column.steps 0 t.level = some (column.steps.take t.level) := by
          rw [slice?, if_pos ⟨Nat.zero_le _, hlevel⟩, List.drop_zero, Nat.sub_zero]
        have harrays : 0 + Step.elements (column.steps.take t.level) ≤
            (advance t.rep positions).length := by
          rw [length_advance, h, Nat.zero_add]
          exact (List.take_sublist t.level column.steps).countP_le
        rcases route_eq harrays with ⟨way, hway, hsame⟩
        rw [if_neg hbad]
        refine (if_neg hbad).trans ?_
        rw [advanceWithin_eq hrep, lift_bind, hsteps, lift_bind, hway, lift_bind]
        cases filling column t with
        | error e => rfl
        | ok f =>
            show placeFromWithin column false (advance t.rep positions) rest
              (modifyAlong f way root) = _
            rw [hsame, List.drop_zero]
            exact ih ((length_advance ..).trans h) _

theorem placeWithin_eq {column : ProjectedColumn} (h : column.steps.length < 2 ^ 8)
    (triples : List Triple) (root : Slot) :
    placeWithin column triples root = Checked.ofExcept (place column triples root) := by
  have hrep : column.maxRep % 2 ^ 8 = column.maxRep :=
    Nat.mod_eq_of_lt (Nat.lt_of_le_of_lt (Projection.elements_le_length _) h)
  rw [placeWithin, hrep]
  exact placeFromWithin_eq List.length_replicate triples root

theorem shapeWithin_eq {reads : List (List Triple)} {sources : List ShapeSource}
    (h : ∀ source ∈ sources, source.depth < 2 ^ 8 ∧ source.rep < 2 ^ 8) :
    shapeWithin reads sources = missingShape reads sources := by
  induction sources with
  | nil => rfl
  | cons source rest ih =>
      rcases List.forall_mem_cons.mp h with ⟨⟨hdepth, hrep⟩, hrest⟩
      rcases hread : reads[source.read]? with _ | _ | ⟨t, triples⟩
      · simp only [shapeWithin, missingShape, hread, ih hrest]
      · simp only [shapeWithin, missingShape, hread, ih hrest]
      · simp only [shapeWithin, missingShape, hread, Nat.mod_eq_of_lt hdepth,
          Nat.mod_eq_of_lt hrep]

/-- Assembling a document stays within bounds, whatever the entries of its columns are. -/
theorem assembleWithin_eq {p : Projection} (h : p.Narrow) (reads : List (List Triple)) :
    assembleWithin p reads = Checked.ofExcept (assemble p reads) := by
  have hcolumns : ∀ (columns : List (ProjectedColumn × List Triple)) (root : Slot),
      (∀ q ∈ columns, q.1 ∈ p.columns) → columnsWithin reads columns root =
        Checked.ofExcept (assembleColumns reads columns root) := by
    intro columns root hin
    induction columns generalizing root with
    | nil => rfl
    | cons q rest ih =>
        rcases q with ⟨column, triples⟩
        rcases List.forall_mem_cons.mp hin with ⟨hfirst, hrest⟩
        rcases h column hfirst with ⟨hsteps, hsources⟩
        rw [columnsWithin, assembleColumns, shapeWithin_eq hsources, placeWithin_eq hsteps,
          Checked.ofExcept_bind]
        exact congrArg _ (funext fun root => ih root hrest)
  rw [assembleWithin, assemble, Checked.ofExcept_bind, hcolumns]
  · rfl
  · exact fun q hq => (List.of_mem_zip hq).1

/-- Damaged pages are met with errors. Reading the bytes of any page, and asking a reader of a column
    for one document after another whatever there is on the disk by then, stay within bounds, and so
    does assembling a document from any entries, by a projection of a schema without ways of more
    than 255 steps. A page that is read has as many entries as its documents, with the levels of the
    column, and with a value exactly where all steps exist. -/
theorem within_bounds :
    (∀ (layout : PageLayout) (body : List UInt8), ∃ result : Except PageError Flat,
      (Flat.read layout body).run = some result ∧
        result = (Page.decode layout body).map Flat.ofPage ∧
        ∀ page, result = .ok page → page.counts.sum = page.triples.length ∧
          ∀ t ∈ page.triples, t.WithinLevels layout.maxRep layout.maxDef) ∧
    (∀ (column : OpenColumn) (layout : PageLayout) (volumes : List Volume),
      (FlatReader.ofColumn column layout).answers volumes =
        some ((ColumnReader.ofColumn column layout).answers volumes)) ∧
    ∀ (schema : Schema) (paths : List String) (p : Projection), schema.root.height ≤ 255 →
      Projection.resolve schema paths = .ok p → ∀ reads : List (List Triple),
        (assembleWithin p reads).run = some (assemble p reads) := by
  refine ⟨fun layout body => ⟨_, by rw [Flat.read_eq]; rfl, rfl, fun page hpage => ?_⟩,
    fun column layout volumes => FlatReader.answers_eq (FlatReader.stands_ofColumn column layout) _,
    fun schema paths p hh hp reads => ?_⟩
  · rcases Outcome.map_eq_ok.mp hpage with ⟨documents, hdecode, rfl⟩
    exact ⟨List.length_flatten.symm, Page.decode_withinLevels hdecode⟩
  · rw [assembleWithin_eq (Projection.narrow_of_resolve hh hp)]
    rfl

/-- A field with an array of numbers. -/
def numbered : Schema :=
  ⟨[("t", .array (.leaf 0 .integer))], 1⟩

-- An entry is to go on with an array in a document that has not begun.
theorem within_bounds_numbered :
    (numbered.root.height ≤ 255 ∧
      Projection.resolve numbered ["t"] = .ok (Projection.ofSchema numbered)) ∧
    (assembleWithin (Projection.ofSchema numbered) [[.absent 1 1]]).run =
      some (.error (.levels 1 1 "t")) := by
  have hheight : numbered.root.height ≤ 255 := by decide
  have hresolved : Projection.resolve numbered ["t"] = .ok (Projection.ofSchema numbered) := by rfl
  have hwithin := within_bounds.2.2 numbered ["t"] _ hheight hresolved [[.absent 1 1]]
  exact ⟨⟨hheight, hresolved⟩, hwithin.trans (by rfl)⟩

end Assembly

end NestedColumns

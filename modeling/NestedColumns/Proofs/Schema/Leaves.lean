import NestedColumns.Chunk
import NestedColumns.Proofs.Schema.Merging

/-!
# Leaves and their levels

A schema is walked once to find its leaves, each with the steps to it and its way. A listing
of the leaves has every column once, with the path and the levels of its way: as many arrays
as are on the way, and as many steps. A chunk is written by these levels, so they are those
that the column is read by.

## Main definitions

* `Schema.Spot`: A leaf, with the steps to it and its way.
* `Schema.Node.spots`: The leaves at and below a shape, depth first.

## Theorems

* `Schema.along?_of_mem_spots`: A spot is where it says.
* `Schema.leaves_eq`, `Schema.along?_of_mem_leaves`: A leaf that is listed is a spot, and so at
  the end of a way of its levels.
* `ChunkBuffer.exists_leaf?_of_mem`: A column that is listed is found.
* `ChunkBuffer.exists_leaf?`: A column of a schema is found with the levels of its way.
-/

namespace NestedColumns

namespace Schema

/-- A leaf, with the steps to it and its way. -/
structure Spot where
  steps : List Step
  way : Way
  column : Nat
  type : DataType
  deriving DecidableEq, Repr

/-- The same leaf from one step further up. -/
def Spot.up (step : Step) (hop : Hop) (spot : Spot) : Spot :=
  ⟨step :: spot.steps, hop :: spot.way, spot.column, spot.type⟩

mutual

/-- The leaves at and below a shape, depth first. -/
def Node.spots : Node → List Spot
  | .leaf column type => [⟨[], [], column, type⟩]
  | .object fields => spotsOf 0 fields
  | .array element => element.spots.map (Spot.up .element .element)

/-- The leaves of the fields of an object, the first of which has the place `index`. -/
def Node.spotsOf (index : Nat) : List (String × Node) → List Spot
  | [] => []
  | (name, node) :: rest =>
    node.spots.map (Spot.up (.member index) (.member name)) ++ spotsOf (index + 1) rest

end

theorem mem_spotsOf {index : Nat} {fields : List (String × Node)} {spot : Spot} :
    spot ∈ Node.spotsOf index fields ↔ ∃ i name, ∃ node : Node, ∃ inner : Spot,
      fields[i]? = some (name, node) ∧ inner ∈ node.spots ∧
        spot = inner.up (.member (index + i)) (.member name) := by
  induction fields generalizing index with
  | nil => simp [Node.spotsOf]
  | cons f rest ih =>
      rcases f with ⟨name, node⟩
      rw [Node.spotsOf, List.mem_append, List.mem_map, ih]
      constructor
      · rintro (⟨inner, hinner, rfl⟩ | ⟨i, n, a, inner, hi, hinner, rfl⟩)
        · exact ⟨0, name, node, inner, rfl, hinner, rfl⟩
        · exact ⟨i + 1, n, a, inner, hi, hinner, by rw [Nat.add_right_comm, Nat.add_assoc]⟩
      · rintro ⟨i, n, a, inner, hi, hinner, rfl⟩
        cases i with
        | zero =>
            cases hi
            exact Or.inl ⟨inner, hinner, rfl⟩
        | succ i =>
            exact Or.inr ⟨i, n, a, inner, hi, hinner, by rw [Nat.add_right_comm, Nat.add_assoc]⟩

/-- A spot is where it says. -/
theorem along?_of_mem_spots {node : Node} {spot : Spot} (h : spot ∈ node.spots) :
    node.along? spot.steps = some (spot.way, .leaf spot.column spot.type) := by
  induction node using Node.inductionOn generalizing spot with
  | leaf column type =>
      rw [Node.spots, List.mem_singleton] at h
      rw [h]
      rfl
  | array element ih =>
      rw [Node.spots, List.mem_map] at h
      rcases h with ⟨inner, hinner, rfl⟩
      simp only [Spot.up, Node.along?, ih hinner, Option.map_some]
  | object fields ih =>
      rw [Node.spots, mem_spotsOf] at h
      rcases h with ⟨i, name, node, inner, hi, hinner, rfl⟩
      simp only [Spot.up, Nat.zero_add, Node.along?, hi,
        ih _ (List.mem_of_getElem? hi) hinner, Option.map_some]

/-- No spot is further down than the shape is high. -/
theorem levels_le_height {node : Node} {spot : Spot} (h : spot ∈ node.spots) :
    spot.way.elements ≤ node.height ∧ spot.way.length ≤ node.height := by
  have hlength : spot.way.length ≤ node.height := by
    induction node using Node.inductionOn generalizing spot with
    | leaf column type =>
        rw [Node.spots, List.mem_singleton] at h
        rw [h]
        exact Nat.zero_le _
    | array element ih =>
        rw [Node.spots, List.mem_map] at h
        rcases h with ⟨inner, hinner, rfl⟩
        exact Nat.succ_le_succ (ih hinner)
    | object fields ih =>
        rw [Node.spots, mem_spotsOf] at h
        rcases h with ⟨i, name, node, inner, hi, hinner, rfl⟩
        have hmem := List.mem_of_getElem? hi
        exact Nat.le_trans (Nat.succ_le_succ (ih _ hmem hinner)) (Node.height_lt_of_mem hmem)
  have helements : spot.way.elements ≤ spot.way.length := List.countP_le_length
  exact ⟨Nat.le_trans helements hlength, hlength⟩

/-- Every column has its spot, in the order of the tree. -/
theorem map_column_spots (node : Node) : node.spots.map (·.column) = node.columns := by
  induction node using Node.inductionOn with
  | leaf column type => rfl
  | array element ih =>
      rw [Node.spots, List.map_map, Node.columns]
      exact ih
  | object fields ih =>
      rw [Node.spots, Node.columns]
      generalize 0 = index
      induction fields generalizing index with
      | nil => rfl
      | cons f rest ihrest =>
          rcases f with ⟨name, node⟩
          rw [Node.spotsOf, List.map_append, List.map_map, Node.columnsOf,
            ihrest fun f hf => ih f (List.mem_cons_of_mem _ hf)]
          exact congrArg (· ++ _) (ih _ List.mem_cons_self)

/-! ### The listing -/

theorem mem_leavesOfFields {fields : List (String × Node)} {path : String} {rep depth : Nat}
    {l : LeafColumn} :
    l ∈ leavesOfFields fields path rep depth ↔
      ∃ f ∈ fields, l ∈ leavesBelow f.2 (path ++ "." ++ f.1) rep (depth + 1) := by
  induction fields with
  | nil => simp only [leavesOfFields, List.not_mem_nil, false_and, exists_false]
  | cons f rest ih =>
      rcases f with ⟨name, node⟩
      simp only [leavesOfFields, List.mem_append, ih, List.mem_cons, exists_eq_or_imp]

/-- The path of a field below `path`. -/
def extendPath (path name : String) : String :=
  path ++ "." ++ name

-- The levels count on from those that the shape is reached by.
theorem leavesBelow_eq (node : Node) (path : String) (rep depth : Nat) :
    leavesBelow node path rep depth = node.spots.map fun spot =>
      ⟨spot.column, spot.way.names.foldl extendPath path, spot.type, rep + spot.way.elements,
        depth + spot.way.length⟩ := by
  induction node using Node.inductionOn generalizing path rep depth with
  | leaf column type => rfl
  | array element ih =>
      rw [leavesBelow, ih, Node.spots, List.map_map]
      refine List.map_congr_left fun spot _ => ?_
      simp only [Function.comp_apply, Spot.up, Way.names_element, Way.elements_element,
        List.length_cons, Nat.add_assoc, Nat.add_comm 1]
  | object fields ih =>
      rw [leavesBelow, Node.spots]
      generalize 0 = index
      induction fields generalizing index with
      | nil => rfl
      | cons f rest ihrest =>
          rcases f with ⟨name, node⟩
          rw [leavesOfFields, Node.spotsOf, List.map_append, List.map_map,
            ihrest (fun f hf => ih f (List.mem_cons_of_mem _ hf)), ih _ List.mem_cons_self]
          refine congrArg (· ++ _) (List.map_congr_left fun spot _ => ?_)
          simp only [Function.comp_apply, Spot.up, Way.names_member, Way.elements_member,
            List.length_cons, List.foldl_cons, extendPath, Nat.add_assoc, Nat.add_comm 1]

theorem dotted_cons (first : String) (names : List String) :
    dotted (first :: names) = names.foldl extendPath first := by
  induction names generalizing first with
  | nil => exact String.intercalate_singleton
  | cons second rest ih =>
      rw [List.foldl_cons, ← ih, dotted, dotted, String.intercalate_cons_cons]
      cases rest with
      | nil => rw [String.intercalate_singleton, String.intercalate_singleton, extendPath]
      | cons third rest =>
          rw [String.intercalate_cons_cons, String.intercalate_cons_cons, extendPath]
          simp only [String.append_assoc]

/-- A leaf in the listing of a schema. -/
def Spot.listed (spot : Spot) : LeafColumn :=
  ⟨spot.column, dotted spot.way.names, spot.type, spot.way.elements, spot.way.length⟩

/-- The leaves that are listed are the spots. -/
theorem leaves_eq (schema : Schema) : leaves schema = schema.root.spots.map Spot.listed := by
  have hfields : ∀ (fields : List (String × Node)) (index : Nat),
      leaves ⟨fields, schema.nextColumn⟩ = (Node.spotsOf index fields).map Spot.listed := by
    intro fields
    induction fields with
    | nil => exact fun _ => rfl
    | cons f rest ih =>
        rcases f with ⟨name, node⟩
        intro index
        rw [Node.spotsOf, List.map_append, List.map_map, ← ih]
        change leavesBelow node name 0 1 ++ leaves ⟨rest, schema.nextColumn⟩ = _
        rw [leavesBelow_eq]
        refine congrArg (· ++ _) (List.map_congr_left fun spot _ => ?_)
        simp only [Function.comp_apply, Spot.listed, Spot.up, Way.names_member,
          Way.elements_member, List.length_cons, dotted_cons, Nat.zero_add, Nat.add_comm 1]
  exact hfields schema.fields 0

theorem map_column_leaves (schema : Schema) :
    (leaves schema).map (·.column) = schema.root.columns := by
  rw [leaves_eq, List.map_map, ← map_column_spots]
  rfl

theorem along?_of_mem_leaves {schema : Schema} {l : LeafColumn} (h : l ∈ leaves schema) :
    ∃ steps way, schema.root.along? steps = some (way, .leaf l.column l.type) ∧
      l.maxRep = way.elements ∧ l.maxDef = way.length := by
  rw [leaves_eq, List.mem_map] at h
  rcases h with ⟨spot, hspot, rfl⟩
  exact ⟨spot.steps, spot.way, along?_of_mem_spots hspot, rfl, rfl⟩

theorem mem_leaves {schema : Schema} (hu : schema.root.NamesUnique) {l : LeafColumn}
    (h : l ∈ leaves schema) :
    ∃ way, schema.root.at? way = some (.leaf l.column l.type) ∧ l.maxRep = way.elements ∧
      l.maxDef = way.length := by
  rcases along?_of_mem_leaves h with ⟨steps, way, hway, hrep, hdef⟩
  exact ⟨way, Node.at?_of_along? hu hway, hrep, hdef⟩

end Schema

namespace ChunkBuffer

-- A column that is listed is found, though another leaf may have its number.
theorem exists_leaf?_of_mem {schema : Schema} {l : Schema.LeafColumn} (h : l ∈ schema.leaves) :
    ∃ leaf ∈ schema.leaves, leaf? schema l.column = some leaf ∧ leaf.column = l.column := by
  have hsome : (leaf? schema l.column).isSome = true :=
    List.find?_isSome.mpr ⟨l, List.mem_reverse.mpr h, decide_eq_true rfl⟩
  rcases Option.isSome_iff_exists.mp hsome with ⟨leaf, hleaf⟩
  have hfound : leaf.column = l.column := by
    simpa only [decide_eq_true_eq] using List.find?_some hleaf
  exact ⟨leaf, List.mem_reverse.mp (List.mem_of_find?_eq_some hleaf), hleaf, hfound⟩

theorem exists_leaf? {schema : Schema} {limit : Nat} (hs : schema.Sound limit) {way : Way}
    {column : Nat} {type : DataType} (hw : schema.root.at? way = some (.leaf column type)) :
    ∃ leaf, leaf? schema column = some leaf ∧ leaf.maxRep = way.elements ∧
      leaf.maxDef = way.length := by
  have hin : column ∈ (Schema.leaves schema).map (·.column) := by
    rw [Schema.map_column_leaves]
    exact Schema.Node.mem_columns_of_at? hw
  rcases List.mem_map.mp hin with ⟨l, hl, rfl⟩
  rcases exists_leaf?_of_mem hl with ⟨leaf, hmem, hleaf, hcolumn⟩
  rcases Schema.mem_leaves hs.names hmem with ⟨way', hway', hrep, hdef⟩
  have hsame : way' = way := Schema.Node.way_unique hs.distinct hway' (hcolumn ▸ hw)
  exact ⟨leaf, hleaf, hsame ▸ hrep, hsame ▸ hdef⟩

end ChunkBuffer

end NestedColumns

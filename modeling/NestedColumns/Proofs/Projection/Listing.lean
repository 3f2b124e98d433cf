import NestedColumns.Proofs.Projection.Levels
import NestedColumns.Proofs.Schema.Leaves

/-!
# Two listings of the leaves

The leaves of a schema are listed twice: by the schema, from which a writer takes the levels
of a column, and by a projection, from which a reader takes them. One counts arrays and steps
as it goes, the other keeps the steps and counts in the end. Both are listings of one walk, so
they agree on which leaves there are, in which order, and on their numbers, types and levels.

They do not agree on paths. Names are joined by dots in both, but a projection takes an empty
path for that of the document, so it drops the empty names that a path begins with.

## Main definitions

* `Projection.projected`: A leaf of the walk as a column.

## Theorems

* `Projection.columns_ofSchema`: The listing of a projection is one of the walk.
* `Projection.foldl_joinPath`: Joining drops the empty names in front.
* `Projection.listed_alike`: What the listings agree on.
-/

namespace NestedColumns

namespace Projection

open Schema (Node Spot)

theorem columnsBelow_eq (node : Node) (path : String) (steps : List Step) :
    columnsBelow node path steps = node.spots.map fun spot =>
      ⟨spot.column, spot.way.names.foldl joinPath path, spot.type, steps ++ spot.steps, []⟩ := by
  induction node using Node.inductionOn generalizing path steps with
  | leaf column type =>
      simp only [columnsBelow, Node.spots, List.map_singleton, Way.names_nil, List.foldl_nil,
        List.append_nil]
  | array element ih =>
      rw [columnsBelow, ih, Node.spots, List.map_map]
      refine List.map_congr_left fun spot _ => ?_
      simp only [Function.comp_apply, Spot.up, Way.names_element, List.append_assoc,
        List.singleton_append]
  | object fields ih =>
      rw [columnsBelow, Node.spots]
      generalize 0 = index
      induction fields generalizing index with
      | nil => rfl
      | cons f rest ihrest =>
          rcases f with ⟨name, node⟩
          rw [columnsOfFields, Node.spotsOf, List.map_append, List.map_map,
            ihrest (fun f hf => ih f (List.mem_cons_of_mem _ hf)), ih _ List.mem_cons_self]
          refine congrArg (· ++ _) (List.map_congr_left fun spot _ => ?_)
          simp only [Function.comp_apply, Spot.up, Way.names_member, List.foldl_cons,
            List.append_assoc, List.singleton_append]

/-- A leaf in the listing of a projection. -/
def projected (spot : Spot) : ProjectedColumn :=
  ⟨spot.column, spot.way.names.foldl joinPath "", spot.type, spot.steps, []⟩

/-- The listing of a projection is one of the walk. -/
theorem columns_ofSchema (schema : Schema) :
    (ofSchema schema).columns = schema.root.spots.map projected :=
  columnsBelow_eq schema.root "" []

-- A path that has a name is not empty any more.
theorem foldl_joinPath_of_ne (names : List String) {path : String} (hp : path ≠ "") :
    names.foldl joinPath path = names.foldl Schema.extendPath path := by
  induction names generalizing path with
  | nil => rfl
  | cons name names ih =>
      have hjoin : joinPath path name = Schema.extendPath path name := by
        rw [joinPath, if_neg (by simpa using hp), Schema.extendPath]
      rw [List.foldl_cons, List.foldl_cons, hjoin, ih]
      simp [Schema.extendPath]

/-- Joining drops the empty names in front. -/
theorem foldl_joinPath (names : List String) :
    names.foldl joinPath "" = Schema.dotted (names.dropWhile (· = "")) := by
  induction names with
  | nil => rfl
  | cons first rest ih =>
      have hfirst : joinPath "" first = first := rfl
      rw [List.foldl_cons, hfirst]
      by_cases h : first = ""
      · subst h
        exact ih
      · rw [List.dropWhile_cons_of_neg (by simpa using h), Schema.dotted_cons]
        exact foldl_joinPath_of_ne rest h

theorem length_dotted_dropWhile_le (names : List String) :
    (Schema.dotted (names.dropWhile (· = ""))).length ≤ (Schema.dotted names).length := by
  induction names with
  | nil => exact Nat.le_refl _
  | cons first rest ih =>
      by_cases h : first = ""
      · subst h
        refine ih.trans ?_
        cases rest with
        | nil => exact Nat.zero_le _
        | cons second more =>
            rw [Schema.dotted, Schema.dotted, String.intercalate_cons_cons, String.length_append]
            exact Nat.le_add_left _ _
      · rw [List.dropWhile_cons_of_neg (by simpa using h)]

/-- Only a name alone is as long without empty names in front. -/
theorem dotted_dropWhile_iff (names : List String) :
    Schema.dotted (names.dropWhile (· = "")) = Schema.dotted names ↔
      ∀ name more, names ≠ "" :: name :: more := by
  cases names with
  | nil => simp
  | cons first rest =>
      by_cases h : first = ""
      · subst h
        cases rest with
        | nil => exact iff_of_true rfl (by simp)
        | cons second more =>
            refine iff_of_false (fun heq => ?_) (fun hne => hne second more rfl)
            have hlong := congrArg String.length heq
            have hle := length_dotted_dropWhile_le (second :: more)
            rw [List.dropWhile_cons_of_pos (by decide), Schema.dotted, Schema.dotted,
              String.intercalate_cons_cons, String.length_append, String.length_append] at hlong
            rw [Schema.dotted, Schema.dotted] at hle
            have hdot : ".".length = 1 := rfl
            omega
      · rw [List.dropWhile_cons_of_neg (by simpa using h)]
        simp [h]

/-- The listings have the same leaves in the same order, with the same numbers, types and
    levels, which fit into eight bits. The path of a column is that of the leaf without the
    empty names in front, so the paths differ if the first of several names is empty. -/
theorem listed_alike {schema : Schema} (hh : schema.root.height ≤ 255) :
    List.Forall₂ (fun c l => c.column = l.column ∧ c.type = l.type ∧ c.maxRep = l.maxRep ∧
        c.maxDef = l.maxDef ∧ c.maxRep < 2 ^ 8 ∧ c.maxDef < 2 ^ 8 ∧
        ∃ way, schema.root.along? c.steps = some (way, .leaf l.column l.type) ∧
          l.path = Schema.dotted way.names ∧
          c.path = Schema.dotted (way.names.dropWhile (· = "")) ∧
          (c.path = l.path ↔ ∀ name more, way.names ≠ "" :: name :: more))
      (ofSchema schema).columns schema.leaves := by
  rw [columns_ofSchema, Schema.leaves_eq, List.forall₂_map_left_iff, List.forall₂_map_right_iff,
    List.forall₂_same]
  intro spot hspot
  have halong := Schema.along?_of_mem_spots hspot
  have hpath : (projected spot).path = Schema.dotted (spot.way.names.dropWhile (· = "")) :=
    foldl_joinPath spot.way.names
  have hlevels : (projected spot).maxRep = spot.way.elements ∧
      (projected spot).maxDef = spot.way.length := levels_of_along? halong
  rcases Schema.levels_le_height hspot with ⟨hrep, hdef⟩
  refine ⟨rfl, rfl, hlevels.1, hlevels.2, by omega, by omega, spot.way, halong, rfl, hpath, ?_⟩
  rw [hpath]
  exact dotted_dropWhile_iff spot.way.names

/-- An array of objects, and below them an object without a name. -/
def tagged : Schema :=
  ⟨[("tags", .array
    (.object [("id", .leaf 0 .integer), ("", .object [("v", .leaf 1 .string)])]))], 2⟩

-- An empty name further down is no prefix.
theorem listed_alike_tagged :
    (ofSchema tagged).columns.map (fun c => (c.column, c.maxRep, c.maxDef)) =
      tagged.leaves.map fun l => (l.column, l.maxRep, l.maxDef) := by
  have hh : tagged.root.height ≤ 255 := by decide
  have halike := listed_alike hh
  rw [← List.forall₂_eq_eq_eq, List.forall₂_map_left_iff, List.forall₂_map_right_iff]
  refine halike.imp fun c l h => ?_
  rw [h.1, h.2.2.1, h.2.2.2.1]

/-- A field without a name that has one below it. -/
def unnamed : Schema :=
  ⟨[("", .object [("b", .leaf 0 .integer)])], 1⟩

-- A document grows the schema, and its only leaf has two paths.
theorem listed_differently_unnamed :
    Schema.mergeInto ⟨.widen, 255⟩ .empty (.object [("", .object [("b", .number (.whole 1))])]) =
        .ok unnamed ∧
      (ofSchema unnamed).columns.map (·.path) = ["b"] ∧ unnamed.leaves.map (·.path) = [".b"] :=
  ⟨rfl, by decide, by decide⟩

end Projection

end NestedColumns

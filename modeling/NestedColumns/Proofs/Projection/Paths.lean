import NestedColumns.Proofs.Levels

/-!
# Leaves by their paths

The path of a leaf has the names of its way with dots between them, and a path is cut at its
dots to find the fields that it names. A name that has a dot itself is cut as well, so only a
leaf without such names is sure to be found again. A name that is empty names no field, by
the rule that an empty path does not.

## Main definitions

* `Way.Undotted`: No name on a way has a dot.

## Theorems

* `Projection.segments_dotted`: Names without dots are what their path is cut into.
* `Projection.columns_of_leaf`: Only one leaf is projected by the names of its way.
* `Projection.resolve_path`: A leaf is found by its path.
-/

namespace NestedColumns

/-- No name on the way has a dot. -/
def Way.Undotted (way : Way) : Prop :=
  ∀ name ∈ way.names, '.' ∉ name.toList

instance (way : Way) : Decidable way.Undotted :=
  inferInstanceAs (Decidable (∀ name ∈ way.names, '.' ∉ name.toList))

namespace Projection

open Schema (Node LeafColumn dotted)

/-- Names without dots are what their path is cut into. -/
theorem segments_dotted {names : List String} (hne : names ≠ [])
    (hdots : ∀ name ∈ names, '.' ∉ name.toList) : segments (dotted names) = names := by
  have hcut : (['.'].intercalate (names.map String.toList)).splitOn '.' =
      names.map String.toList :=
    List.splitOn_intercalate '.' (List.forall_mem_map.mpr hdots) (mt List.map_eq_nil_iff.mp hne)
  have hdot : ".".toList = ['.'] := rfl
  rw [segments, splitDots_eq_splitOn, dotted, String.toList_intercalate, hdot, hcut, List.map_map]
  simp

variable {schema : Schema} {l : LeafColumn} {way : Way}

/-- The path and the levels of a leaf are those of its way. -/
theorem eq_of_mem_leaves (hu : schema.root.NamesUnique) (hd : schema.root.columns.Nodup)
    (hl : l ∈ schema.leaves) (hw : schema.root.at? way = some (.leaf l.column l.type)) :
    l = ⟨l.column, dotted way.names, l.type, way.elements, way.length⟩ := by
  rw [Schema.leaves_eq, List.mem_map] at hl
  rcases hl with ⟨spot, hspot, rfl⟩
  have hat := Node.at?_of_along? hu (Schema.along?_of_mem_spots hspot)
  have hway : way = spot.way := Node.way_unique hd hw hat
  rw [hway]
  rfl

/-- A leaf is below the document, so its way has names. -/
theorem names_ne_nil_of_leaf {column : Nat} {type : DataType}
    (hw : schema.root.at? way = some (.leaf column type)) : way.names ≠ [] := by
  rcases Node.at?_object_some.mp hw with ⟨-, hobj⟩ | ⟨name, rest, next, rfl, -, -⟩
  · cases hobj
  · exact List.cons_ne_nil _ _

/-- Only one leaf is projected by the names of its way. -/
theorem columns_of_leaf {path : String} {p : Projection} (hunion : UnionOf schema [path] p)
    {column : Nat} {type : DataType} (hw : schema.root.at? way = some (.leaf column type))
    (hpath : segments path = way.names) :
    ∃ c, p.columns = [c] ∧ c.column = column ∧ c.type = type ∧ c.maxRep = way.elements ∧
      c.maxDef = way.length := by
  have hall : ∀ c ∈ p.columns, c.column = column ∧ c.type = type ∧ c.maxRep = way.elements ∧
      c.maxDef = way.length := by
    intro c hc
    rcases hunion.leaf c hc with ⟨way', hat, hbelow, -, hrep, hdef⟩
    rcases hbelow.resolve_left (List.cons_ne_nil _ _) with ⟨_, hmem, hp⟩
    rw [List.mem_singleton.mp hmem, hpath] at hp
    have hway : way' = way := Node.way_eq_of_leaf hw hat hp
    subst hway
    rw [hw, Option.some.injEq, Node.leaf.injEq] at hat
    exact ⟨hat.1.symm, hat.2.symm, hrep, hdef⟩
  rcases hunion.complete way column type hw
    (Or.inr ⟨path, List.mem_singleton_self _, hpath ▸ List.prefix_refl _⟩) with ⟨c, hc, -⟩
  have honce := hunion.once
  -- Two columns would have one number.
  cases hcolumns : p.columns with
  | nil =>
      rw [hcolumns] at hc
      exact absurd hc List.not_mem_nil
  | cons first rest =>
      rw [hcolumns] at hall honce
      cases rest with
      | nil => exact ⟨first, rfl, hall first List.mem_cons_self⟩
      | cons second rest =>
          have hfirst := (hall first List.mem_cons_self).1
          have hsecond := (hall second (List.mem_cons_of_mem _ List.mem_cons_self)).1
          rw [List.map_cons, List.map_cons, hfirst, hsecond, List.nodup_cons] at honce
          exact absurd List.mem_cons_self honce.1

-- Here levels are counted without a width.
theorem resolve_undotted (hr : Schema.Reaches .empty schema) (hl : l ∈ schema.leaves)
    (hw : schema.root.at? way = some (.leaf l.column l.type)) (hdots : way.Undotted) :
    ("" ∉ way.names → ∃ p c, resolve schema [l.path] = .ok p ∧ p.columns = [c] ∧
      c.column = l.column ∧ c.type = l.type ∧ c.maxRep = l.maxRep ∧ c.maxDef = l.maxDef) ∧
    ("" ∈ way.names → resolve schema [l.path] = .error (.unknownColumn l.path)) ∧
    ∀ l' ∈ schema.leaves, ∀ way', schema.root.at? way' = some (.leaf l'.column l'.type) →
      way'.Undotted → l'.path = l.path → l' = l := by
  rcases hr.sound (Schema.sound_empty 0) with ⟨limit, hs⟩
  have hleaf := eq_of_mem_leaves hs.names hs.distinct hl hw
  have hpath : l.path = dotted way.names := congrArg LeafColumn.path hleaf
  have hcut : segments l.path = way.names := by
    rw [hpath, segments_dotted (names_ne_nil_of_leaf hw) hdots]
  refine ⟨fun hnames => ?_, fun hempty => ?_, fun l' hl' way' hw' hdots' hsame => ?_⟩
  · have hfield : NamesField schema l.path := ⟨hcut ▸ hnames, way, _, hw, hcut.symm⟩
    rcases (exists_leads_iff hs.names).mpr hfield with ⟨found, hfound⟩
    rcases exists_unionOf hs.names hs.distinct (.cons hfound .nil) with
      ⟨fields, hresolve, -, hunion⟩
    rcases columns_of_leaf hunion hw hcut with ⟨c, hcolumns, hc, ht, hrep, hdef⟩
    rw [hleaf]
    exact ⟨_, c, hleaf ▸ hresolve, hcolumns, hc, ht, hrep, hdef⟩
  · have hnone : lookup schema.fields (segments l.path) = none := by
      rw [Option.eq_none_iff_forall_ne_some]
      exact fun found hfound => (exists_along?_of_lookup hfound).1 (hcut ▸ hempty)
    exact resolve_eq_error.mpr ⟨[], l.path, [], rfl, by simp, hnone, rfl⟩
  · have hleaf' := eq_of_mem_leaves hs.names hs.distinct hl' hw'
    have hpath' : l'.path = dotted way'.names := congrArg LeafColumn.path hleaf'
    have hnames : way.names = way'.names := by
      rw [← hcut, ← hsame, hpath', segments_dotted (names_ne_nil_of_leaf hw') hdots']
    have hway : way' = way := Node.way_eq_of_leaf hw hw' (hnames ▸ List.prefix_refl _)
    subst hway
    rw [hw, Option.some.injEq, Node.leaf.injEq] at hw'
    rw [hleaf', hleaf, hw'.1, hw'.2]

/-- A leaf without dots in the names of its way is found by its path, and alone, unless one of
    the names is empty. No other leaf of the kind has its path. This is so if the levels of the
    leaves can be counted at all, and then so can those of the columns. -/
theorem resolve_path {leaves : List LeafColumn} (hr : Schema.Reaches .empty schema)
    (hleaves : schema.leaves? = some leaves) (hl : l ∈ leaves)
    (hw : schema.root.at? way = some (.leaf l.column l.type)) (hdots : way.Undotted) :
    ("" ∉ way.names → ∃ p c, (resolveWithin schema [l.path]).run = some (.ok p) ∧
      p.columns = [c] ∧ c.column = l.column ∧ c.type = l.type ∧ c.maxRep = l.maxRep ∧
      c.maxDef = l.maxDef) ∧
    ("" ∈ way.names →
      (resolveWithin schema [l.path]).run = some (.error (.unknownColumn l.path))) ∧
    ∀ l' ∈ leaves, ∀ way', schema.root.at? way' = some (.leaf l'.column l'.type) →
      way'.Undotted → l'.path = l.path → l' = l := by
  rcases Schema.leaves?_eq_some_iff.mp hleaves with ⟨hh, rfl⟩
  have hrun : (resolveWithin schema [l.path]).run = some (resolve schema [l.path]) := by
    rw [resolveWithin_eq hh]
    rfl
  rw [hrun]
  simp only [Option.some.injEq]
  exact resolve_undotted hr hl hw hdots

/-- A column below an array, and a column below an object without a name. -/
def spelled : Schema :=
  ⟨[("tags", .array (.object [("id", .leaf 0 .integer)])), ("", .object [("v", .leaf 1 .string)])],
    2⟩

-- One of them is found by its path, and the other one is not.
theorem resolve_path_spelled :
    (∃ p c, (resolveWithin spelled ["tags.id"]).run = some (.ok p) ∧ p.columns = [c] ∧
      c.column = 0 ∧ c.type = .integer ∧ c.maxRep = 1 ∧ c.maxDef = 3) ∧
    (resolveWithin spelled [".v"]).run = some (.error (.unknownColumn ".v")) := by
  have hr : Schema.Reaches .empty spelled :=
    .step (.refl _) (show Schema.mergeInto ⟨.widen, 32⟩ .empty
      (.object [("tags", .array [.object [("id", .number (.whole 1))]]),
        ("", .object [("v", .string "x")])]) = .ok spelled from rfl)
  have hleaves : spelled.leaves? =
      some [⟨0, "tags.id", .integer, 1, 3⟩, ⟨1, ".v", .string, 0, 2⟩] := by decide
  have hway : spelled.root.at? [.member "tags", .element, .member "id"] =
      some (.leaf 0 .integer) := rfl
  have hway' : spelled.root.at? [.member "", .member "v"] = some (.leaf 1 .string) := rfl
  exact ⟨(resolve_path hr hleaves List.mem_cons_self hway (by decide)).1 (by decide),
    (resolve_path hr hleaves (List.mem_cons_of_mem _ List.mem_cons_self) hway'
      (by decide)).2.1 (by decide)⟩

/-- A column without a name, and one with a dot in its name. -/
def misspelled : Schema :=
  ⟨[("", .leaf 0 .integer), ("a.b", .leaf 1 .integer)], 2⟩

-- A document grows the schema, and neither of its leaves is found by its path.
theorem not_found_misspelled :
    Schema.mergeInto ⟨.widen, 32⟩ .empty
        (.object [("", .number (.whole 1)), ("a.b", .number (.whole 2))]) = .ok misspelled ∧
      misspelled.leaves.map (·.path) = ["", "a.b"] ∧
      ∀ l ∈ misspelled.leaves, resolve misspelled [l.path] = .error (.unknownColumn l.path) := by
  have hpaths : misspelled.leaves.map (·.path) = ["", "a.b"] := by decide
  have hempty : resolve misspelled [""] = .error (.unknownColumn "") := rfl
  have hdotted : resolve misspelled ["a.b"] = .error (.unknownColumn "a.b") := rfl
  refine ⟨rfl, hpaths, fun l hl => ?_⟩
  have hpath : l.path ∈ ["", "a.b"] := hpaths ▸ List.mem_map_of_mem hl
  rw [List.mem_cons, List.mem_singleton] at hpath
  rcases hpath with h | h
  · rw [h, hempty]
  · rw [h, hdotted]

end Projection

end NestedColumns

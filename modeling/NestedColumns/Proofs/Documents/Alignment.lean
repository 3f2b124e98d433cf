import NestedColumns.Proofs.Documents.Shredding
import NestedColumns.Proofs.Levels
import NestedColumns.Proofs.Schema.Leaves

/-!
# Streams that lie beside each other

Two leaves that share the first steps of their ways are reached through the same parts of a
document, and go apart only behind them. So what their streams tell of the shared steps is
the same: which entries start an element of a shared array, and how far along the shared
steps each of them goes. Cut to these steps, both are the outline of the document there. A
reader may take the shape of an object from any column below it.

Whether a document touches a column is a matter of the first step, which both take as well.

A document says nothing of how deep its schema goes below it. So it can be taken apart in eight
bits where the levels of the leaves are more than eight bits can say.

## Theorems

* `Json.Fits.conforms_along`: A value that fits can be followed along every way.
* `Shredding.stream_of_leaf`: The stream of a leaf, before columns are left out.
* `Shredding.siblings_aligned`: Streams agree on the steps that their leaves share.
-/

namespace NestedColumns

open Schema (Node)

namespace Json

/-- A value that fits a shape can be followed along every way of it. -/
theorem Fits.conforms_along {node : Node} {v : Json} (h : Fits node v) {steps : List Step}
    {way : Way} {column : Nat} {type : DataType}
    (hw : node.along? steps = some (way, .leaf column type)) : Conforms way v := by
  induction steps generalizing node v way with
  | nil =>
      rcases Node.along?_nil_some hw with ⟨rfl, rfl⟩
      rcases fits_leaf.mp h with ⟨x, hx, -⟩
      rw [Conforms, hx]
      exact Option.isSome_some
  | cons step steps ih =>
      rcases Node.along?_cons_some hw with ⟨fields, index, name, next, rest, rfl, rfl, hf, hr, rfl⟩ |
        ⟨element, rest, rfl, rfl, hr, rfl⟩
      · rcases fits_object.mp h with ⟨members, rfl, -, hfits⟩
        intro w hpresent
        exact ih (fitsFields_iff.mp hfits _ (List.mem_of_getElem? hf) w hpresent) hr
      · rcases fits_array.mp h with ⟨items, rfl, hfits⟩
        exact fun w hm => ih (hfits w hm) hr

end Json

namespace Shredding

open Json (stream cut outline)

variable {schema : Schema} {document : Json} {entries : Entries} {streams : Streams}
  {steps : List Step} {way : Way} {column : Nat} {type : DataType}

-- Every leaf gets a stream, and only later are columns left out.
theorem find?_toStreams_leaf (hd : schema.root.columns.Nodup)
    (h : shredAll schema document = .ok entries)
    (hw : schema.root.along? steps = some (way, .leaf column type)) :
    (toStreams entries).find? column = some (stream DataValue.ofJson? way document 0 0 0) := by
  rw [find?_toStreams, (shreds_document hd h).streams _ _ _ _ hw,
    if_neg (Json.stream_ne_nil _ _ _ _ _ _)]

/-- The stream of a leaf starts the document once, repeats something inside it after that,
    and stays within the levels of the leaf. -/
theorem stream_of_leaf (hfits : Json.Fits schema.root document)
    (hw : schema.root.along? steps = some (way, .leaf column type)) :
    ∃ first rest, stream DataValue.ofJson? way document 0 0 0 = first :: rest ∧ first.rep = 0 ∧
      (∀ t ∈ rest, 1 ≤ t.rep) ∧ ∀ t ∈ first :: rest, t.WithinLevels way.elements way.length := by
  rcases Json.stream_eq_cons DataValue.ofJson? way document 0 0 0 with
    ⟨first, rest, heq, hrep, -, hrest⟩
  refine ⟨first, rest, heq, hrep, fun t ht => (hrest t ht).1, fun t ht => ?_⟩
  rw [← heq] at ht
  have hwithin := Json.stream_within (Nat.le_refl 0) t ht
  have hpresence := Json.stream_presence (hfits.conforms_along hw) t ht
  rw [Nat.zero_add, Nat.zero_add] at hwithin
  rw [Nat.zero_add] at hpresence
  exact ⟨hwithin.1, hwithin.2, hpresence⟩

-- What a stream tells of the first steps of its way does not depend on the others.
theorem cut_stream_below {stem : Way} (hstem : stem <+: way) :
    cut stem.elements stem.length (stream DataValue.ofJson? way document 0 0 0) =
      outline stem document 0 0 0 := by
  rcases hstem with ⟨rest, rfl⟩
  have hcut : cut (0 + stem.elements) (0 + stem.length)
      (stream DataValue.ofJson? (stem ++ rest) document 0 0 0) = outline stem document 0 0 0 :=
    Json.cut_stream stem rest (Nat.le_refl 0)
  rwa [Nat.zero_add, Nat.zero_add] at hcut

theorem exists_member_of_along? {fields : List (String × Node)}
    (hw : (Node.object fields).along? steps = some (way, .leaf column type)) :
    ∃ name rest, way = .member name :: rest := by
  cases steps with
  | nil =>
      rcases Node.along?_nil_some hw with ⟨-, hleaf⟩
      cases hleaf
  | cons step steps =>
      rcases Node.along?_cons_some hw with ⟨_, _, name, _, rest, -, -, -, -, hway⟩ | ⟨_, _, hobj, -⟩
      · exact ⟨name, rest, hway⟩
      · cases hobj

-- A column is left out if the document does not have the member that its way starts with.
theorem find?_shred_eq_none (hd : schema.root.columns.Nodup) {name : String}
    {members : List (String × Json)} (h : shred schema (.object members) = .ok streams)
    (hw : schema.root.along? steps = some (.member name :: way, .leaf column type)) :
    streams.find? column = none ↔ Json.present? members name = none := by
  rw [find?_shred_along hd h hw, touched_member, Option.map_eq_none_iff]

/-- If the levels of a document can be counted in eight bits, every leaf of its schema gets a
    stream of the levels of the leaf, before columns that say nothing are left out. These levels
    are the ones that are listed with the leaves, as long as they can be. For two leaves that
    share their first steps, the streams agree on what these steps are like in the document, and
    both are left out if one is. -/
theorem siblings_aligned (hd : (schema.leaves.map (·.column)).Nodup)
    (h : (shredWithin schema document).run = some (.ok streams)) :
    ∃ entries, (shredAllWithin schema document).run = some (.ok entries) ∧
      streams = (toStreams entries).filter (fun _ stream => !isUntouched stream) ∧
      (∀ l ∈ schema.leaves, ∃ first rest,
        (toStreams entries).find? l.column = some (first :: rest) ∧ first.rep = 0 ∧
          (∀ t ∈ rest, 1 ≤ t.rep) ∧ ∀ t ∈ first :: rest, t.WithinLevels l.maxRep l.maxDef) ∧
      (∀ leaves, schema.leaves? = some leaves → leaves = schema.leaves) ∧
      ∀ (stem : Way) (p q : List Step) (way way' : Way) (c d : Nat) (type type' : DataType),
        stem ≠ [] → stem <+: way → stem <+: way' →
        schema.root.along? p = some (way, .leaf c type) →
        schema.root.along? q = some (way', .leaf d type') →
        ∃ left right, (toStreams entries).find? c = some left ∧
          (toStreams entries).find? d = some right ∧
          cut stem.elements stem.length left = cut stem.elements stem.length right ∧
          (streams.find? c = none ↔ streams.find? d = none) := by
  rw [Schema.map_column_leaves] at hd
  rcases of_shredWithin h with ⟨entries, hwithin, hentries, hstreams⟩
  have hshred : shred schema document = .ok streams := by
    rw [shred, hentries, hstreams]
    rfl
  have hfits : Json.Fits schema.root document := exists_shred_iff.mp ⟨streams, hshred⟩
  refine ⟨entries, hwithin, hstreams, fun l hl => ?_,
    fun leaves hleaves => (Schema.leaves?_eq_some_iff.mp hleaves).2, ?_⟩
  · rcases Schema.along?_of_mem_leaves hl with ⟨steps, way, hw, hrep, hdef⟩
    rcases stream_of_leaf hfits hw with ⟨first, rest, heq, hall⟩
    rw [hrep, hdef, find?_toStreams_leaf hd hentries hw]
    exact ⟨first, rest, congrArg some heq, hall⟩
  · intro stem p q way way' c d type type' hstem hway hway' hp hq
    refine ⟨_, _, find?_toStreams_leaf hd hentries hp, find?_toStreams_leaf hd hentries hq, ?_, ?_⟩
    · rw [cut_stream_below hway, cut_stream_below hway']
    · rcases Json.fits_object.mp hfits with ⟨members, rfl, -⟩
      cases stem with
      | nil => exact absurd rfl hstem
      | cons hop stem =>
          rcases hway with ⟨further, rfl⟩
          rcases hway' with ⟨further', rfl⟩
          -- The schema is an object, so what both ways start with is a name.
          rcases exists_member_of_along? hp with ⟨name, rest, hname⟩
          rw [List.cons_append, List.cons.injEq] at hname
          rcases hname with ⟨rfl, -⟩
          rw [find?_shred_eq_none hd hshred hp, find?_shred_eq_none hd hshred hq]

/-- An array of objects with a column and an array in them, and a column beside it. -/
def siblingSchema : Schema :=
  ⟨[("a", .array (.object [("b", .leaf 0 .integer), ("c", .array (.leaf 1 .string))])),
    ("d", .leaf 2 .boolean)], 3⟩

/-- Two objects, the first with two items in its array and the second with none. -/
def siblingDocument : Json :=
  .object [("a", .array [.object [("b", .number (.whole 1)), ("c", .array [.string "x", .string "y"])],
    .object [("c", .array [])]])]

-- Both columns of the objects tell that there are two, though one has an entry more.
theorem siblings_aligned_objects :
    ∃ streams entries left right,
      (shredWithin siblingSchema siblingDocument).run = some (.ok streams) ∧
      (shredAllWithin siblingSchema siblingDocument).run = some (.ok entries) ∧
      (toStreams entries).find? 0 = some left ∧ (toStreams entries).find? 1 = some right ∧
      cut 1 2 left = cut 1 2 right ∧ (streams.find? 0 = none ↔ streams.find? 1 = none) := by
  have hshred : (shredWithin siblingSchema siblingDocument).run = some (.ok _) := rfl
  rcases siblings_aligned (by decide) hshred with ⟨entries, hentries, -, -, -, hpairs⟩
  rcases hpairs [.member "a", .element] [.member 0, .element, .member 0]
    [.member 0, .element, .member 1, .element] _ _ 0 1 .integer .string (by decide) ⟨_, rfl⟩
    ⟨_, rfl⟩ rfl rfl with ⟨left, right, hleft, hright, hcut, hdropped⟩
  exact ⟨_, entries, left, right, hshred, hentries, hleft, hright, hcut, hdropped⟩

/-- A column inside `n` objects. -/
def steepNode (n : Nat) : Node :=
  Nat.repeat (fun node => .object [("a", node)]) n (.leaf 0 .integer)

/-- A column at the end of 257 steps. -/
def steepSchema : Schema :=
  ⟨[("a", steepNode 256)], 1⟩

theorem height_steepNode (n : Nat) : (steepNode n).height = n := by
  induction n with
  | zero => rfl
  | succ n ih =>
      show max ((steepNode n).height + 1) 0 = n + 1
      rw [ih, Nat.max_zero]

-- An object without members ends at level one, and so does a count of 257 steps in eight bits.
theorem not_aligned_steep :
    (steepSchema.leaves.map (·.column)).Nodup ∧
      (∃ streams, (shredWithin steepSchema (.object [("a", .object [])])).run =
        some (.ok streams)) ∧
      (shredAllWithin steepSchema (.object [("a", .object [])])).run =
        some (.ok [(0, .absent 0 1)]) ∧
      steepSchema.leaves? = none ∧ steepSchema.leaves.map (fun l => l.maxDef % 2 ^ 8) = [1] := by
  refine ⟨by decide +kernel, ⟨_, rfl⟩, by decide +kernel, ?_, by decide +kernel⟩
  cases h : steepSchema.leaves? with
  | none => rfl
  | some leaves =>
      have hheight : steepSchema.root.height = 257 := by
        show max ((steepNode 256).height + 1) 0 = 257
        rw [height_steepNode]
        rfl
      have hlt := (Schema.leaves?_eq_some_iff.mp h).1
      omega

end Shredding

end NestedColumns

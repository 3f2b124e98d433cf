import NestedColumns.IdMap
import NestedColumns.Schema.Merge
import NestedColumns.Triple

/-!
# Shredding

Taking a document apart into the entries of its columns. Every leaf of the
schema gets at least one entry: where a part of the document is absent, each
leaf below it gets one entry without value, at the level up to which the
document goes. Entries are produced in the order of the fields; those of one
column, taken out of that order, are its stream.

A column whose only entry says that not even its top-level field is there is
left out, and so is a document without members: what was never touched takes no
room.

Levels have no width here; `Shredding.shredWithin` counts them in eight bits.

## Main definitions

* `Json.hasData`: The value would add something to a schema.
* `Shredding.shredNode`, `Shredding.absentBelow`: The entries of a value, and of
  its absence.
* `Shredding.Streams`: The streams of one document.
* `Shredding.shred`: The streams of a document that its schema covers.
-/

namespace NestedColumns

namespace Json

mutual

/-- The value would add something to a schema: it is neither `null` nor an array
    of nothing else. -/
def hasData : Json → Bool
  | .null => false
  | .array items => anyHasData items
  | _ => true

/-- Some item would. -/
def anyHasData : List Json → Bool
  | [] => false
  | item :: rest => hasData item || anyHasData rest

end

end Json

namespace Shredding

/-- Entries with the columns they belong to, in the order they are produced. -/
abbrev Entries := List (Nat × Triple)

mutual

/-- The entries of an absent part: one for each leaf at or below its shape. -/
def absentBelow (node : Schema.Node) (rep level : Nat) : Entries :=
  match node with
  | .leaf column _ => [(column, .absent rep level)]
  | .object fields => absentFields fields rep level
  | .array element => absentBelow element rep level

/-- The entries of absent fields. -/
def absentFields (fields : List (String × Schema.Node)) (rep level : Nat) : Entries :=
  match fields with
  | [] => []
  | (_, node) :: rest => absentBelow node rep level ++ absentFields rest rep level

end

/-- Every member that says something has a field. -/
def checkCovered (path : List String) (fields : List (String × Schema.Node))
    (members : List (String × Json)) : Except SchemaError Unit :=
  match members.find? fun (name, value) =>
    value.hasData && (Schema.field? fields name).isNone with
  | some (name, _) =>
    .error (.conflict (Schema.dotted (path ++ [name])) "absent" "unknown field")
  | none => .ok ()

/-- A scalar in its column. -/
def shredLeaf (path : List String) (column : Nat) (type : DataType) (rep level : Nat)
    (value : Json) : Except SchemaError Entries :=
  match DataValue.ofJson? value with
  | some v =>
    if type.accepts v.type then .ok [(column, ⟨some v, rep, level⟩)]
    else .error (.conflict (Schema.dotted path) type.name value.kind)
  | none => .error (.conflict (Schema.dotted path) type.name value.kind)

mutual

/-- The entries of a value that is present at definition level `level`, inside
    `arrays` arrays. The first element of an array goes on with the repetition
    level it was reached with; the others repeat the array. -/
def shredNode (path : List String) (node : Schema.Node) (rep level arrays : Nat)
    (value : Json) : Except SchemaError Entries :=
  match node, value with
  | .object fields, .object members => do
    checkCovered path fields members
    shredFields path fields members rep level arrays
  | .array element, .array items =>
    match items.filter (!·.isNull) with
    | [] => .ok (absentBelow element rep level)
    | first :: others => do
      let start ← shredNode path element rep (level + 1) (arrays + 1) first
      let repeated ← others.mapM
        (shredNode path element (arrays + 1) (level + 1) (arrays + 1))
      return start ++ repeated.flatten
  | .leaf column type, value => shredLeaf path column type rep level value
  | node, value => .error (.conflict (Schema.dotted path) node.kindName value.kind)

/-- The entries of the members of an object, by the fields of its shape. -/
def shredFields (path : List String) (fields : List (String × Schema.Node))
    (members : List (String × Json)) (rep level arrays : Nat) : Except SchemaError Entries :=
  match fields with
  | [] => .ok []
  | (name, node) :: rest => do
    let here ←
      match (Json.member? members name).filter (!·.isNull) with
      | some value => shredNode (path ++ [name]) node rep (level + 1) arrays value
      | none => .ok (absentBelow node rep level)
    let others ← shredFields path rest members rep level arrays
    return here ++ others

end

/-- The streams of one document by column. -/
abbrev Streams := IdMap (List Triple)

/-- Sort entries into streams. -/
def toStreams (entries : Entries) : Streams :=
  entries.foldl
    (fun columns (column, triple) =>
      columns.insert column ((columns.find? column).getD [] ++ [triple])) .empty

/-- The stream says nothing but that the top-level field is absent. -/
def isUntouched (stream : List Triple) : Bool :=
  stream == [.absent 0 0]

/-- The entries of a document, untouched columns included. -/
def shredAll (schema : Schema) (document : Json) : Except SchemaError Entries :=
  match document with
  | .object members => do
    checkCovered [] schema.fields members
    shredFields [] schema.fields members 0 0 0
  | value => .error (.notAnObject value.kind)

/-- The streams of a document that its schema covers. -/
def shred (schema : Schema) (document : Json) : Except SchemaError Streams :=
  (shredAll schema document).map fun entries =>
    (toStreams entries).filter fun _ stream => !isUntouched stream

end Shredding

end NestedColumns

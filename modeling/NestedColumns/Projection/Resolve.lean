import NestedColumns.Projection.Basic
import NestedColumns.Text.Quoted

/-!
# Resolving paths

A reader asks for fields by dotted paths. A path that names an object or an
array asks for all that is below it. What several paths ask for is their union:
fields below an object keep the order of the schema, fields of the document come
in the order in which they are first asked for, and no path at all asks for the
whole document.

The union is built path by path, as a tree of the fields that are asked for so
far. A field that is asked for with all that is below it stays so, whatever is
asked for below it.

Levels have no width here; `Projection.resolveWithin` counts them in eight bits.

## Main definitions

* `PlanError`: A path that names no field.
* `Projection.segments`: The names of a path.
* `Projection.Selected`: A field that is asked for.
* `Projection.lookup`: The places of the fields on the way of a path.
* `Projection.insert`: What is asked for with one more path.
* `Projection.pruneFields`: The part of a schema that is asked for.
* `Projection.resolve`: The projection of a list of paths.
-/

namespace NestedColumns

/-- A path that names no field of the table. -/
inductive PlanError where
  | unknownColumn (path : String)
  deriving DecidableEq, Repr

/-- The message of a plan error. -/
def PlanError.message : PlanError → String
  | .unknownColumn path => "unknown column: " ++ Quoted.text path

namespace Projection

/-- A text cut at every dot. -/
def splitDots : List Char → List (List Char)
  | [] => [[]]
  | c :: rest =>
    if c = '.' then [] :: splitDots rest
    else
      match splitDots rest with
      | [] => [[c]]
      | segment :: others => (c :: segment) :: others

/-- The names of a path. -/
def segments (path : String) : List String :=
  (splitDots path.toList).map String.ofList

/-- A field that is asked for, by its place among the fields of its object. -/
inductive Selected where
  /-- The field with all that is below it. -/
  | whole (index : Nat)
  /-- The field with some of the fields below it. -/
  | part (index : Nat) (children : List Selected)
  deriving Repr, Inhabited

/-- The place of the field. -/
def Selected.index : Selected → Nat
  | .whole index => index
  | .part index _ => index

/-- The places of the fields that names lead through, and through any arrays in
    between. An empty name leads nowhere. -/
def lookup (fields : List (String × Schema.Node)) : List String → Option (List Nat)
  | [] => some []
  | name :: rest =>
    if name.isEmpty then none
    else
      match fields.findIdx? (·.1 = name) with
      | none => none
      | some index =>
        if rest.isEmpty then some [index]
        else do
          let (_, node) ← fields[index]?
          let inner ← node.objectFields?
          let places ← lookup inner rest
          return index :: places

/-- The entry of a place in a list, and the list. A place without an entry gets
    one: before those of higher places if the list is sorted, else at the end. -/
def entryOf (sorted : Bool) (index : Nat) (list : List Selected) : Nat × List Selected :=
  match list.findIdx? (·.index = index) with
  | some pos => (pos, list)
  | none =>
    let pos := if sorted then (list.takeWhile (·.index < index)).length else list.length
    (pos, list.insertIdx pos (.part index []))

/-- What is asked for, and what is at the end of some places as well. Fields below
    others are sorted. -/
def insert (sorted : Bool) : List Nat → List Selected → List Selected
  | [], list => list
  | first :: rest, list =>
    let (pos, list) := entryOf sorted first list
    list.modify pos fun entry =>
      if rest.isEmpty then .whole entry.index
      else
        match entry with
        | .whole index => .whole index
        | .part index children => .part index (insert true rest children)

/-- What paths ask for, beside what is asked for before. -/
def select (fields : List (String × Schema.Node)) :
    List String → List Selected → Except PlanError (List Selected)
  | [], list => .ok list
  | path :: rest, list =>
    match lookup fields (segments path) with
    | none => .error (.unknownColumn path)
    | some places => select fields rest (insert false places list)

/-- Change the fields of the object reached through any number of arrays. -/
def mapObject (change : List (String × Schema.Node) → List (String × Schema.Node)) :
    Schema.Node → Schema.Node
  | .leaf column type => .leaf column type
  | .object fields => .object (change fields)
  | .array element => .array (mapObject change element)

mutual

/-- The field that is asked for, with what is asked for below it. -/
def pruneField (fields : List (String × Schema.Node)) : Selected → Option (String × Schema.Node)
  | .whole index => fields[index]?
  | .part index children =>
    fields[index]?.map fun (name, node) =>
      (name, mapObject (fun inner => pruneFields inner children) node)

/-- The fields that are asked for, in the order in which they are listed. -/
def pruneFields (fields : List (String × Schema.Node)) :
    List Selected → List (String × Schema.Node)
  | [] => []
  | entry :: rest => (pruneField fields entry).toList ++ pruneFields fields rest

end

/-- The projection of a table's schema to a list of paths. -/
def resolve (schema : Schema) (paths : List String) : Except PlanError Projection := do
  let all := (List.range schema.fields.length).map .whole
  let selection ← select schema.fields paths (if paths.isEmpty then all else [])
  let fields := pruneFields schema.fields selection
  return (ofSchema (Schema.ofFields fields)).withShapeSources schema

end Projection

end NestedColumns

import NestedColumns.Halt
import NestedColumns.Projection.Resolve
import NestedColumns.Shredding

/-!
# Levels of eight bits

Levels are kept in eight bits. They are counted in four walks, none of which
looks at how far it has come: the listing of the leaves of a schema, the taking
apart of a document, the listing of the columns of a projection, and the search
for columns to take a shape from. Only a merge refuses what is too deep, and how
deep that is its options say.

`Schema.leaves`, `Shredding.shred` and `Projection.resolve` count without a width.
Here are the same walks in eight bits. A count that does not fit into them has no
result, which is not the same as an error.

## Main definitions

* `Level.fit?`: A level, if it is one of eight bits.
* `Schema.leaves?`, `Schema.ofFields?`: The leaves of a schema, and a schema of
  some fields of another.
* `Shredding.shredAllWithin`, `Shredding.shredWithin`: The entries and the
  streams of a document.
* `Projection.resolveWithin`: The projection to a list of paths.
-/

namespace NestedColumns

/-- A level, if it is one of eight bits. -/
def Level.fit? (n : Nat) : Option Nat :=
  if n < 2 ^ 8 then some n else none

namespace Schema

mutual

/-- The leaves at and below a shape, with every count checked. -/
def leavesBelow? (node : Node) (path : String) (rep depth : Nat) : Option (List LeafColumn) :=
  match node with
  | .leaf column type => some [⟨column, path, type, rep, depth⟩]
  | .object fields => leavesOfFields? fields path rep depth
  | .array element => do
    let rep ← Level.fit? (rep + 1)
    let depth ← Level.fit? (depth + 1)
    leavesBelow? element path rep depth

/-- The leaves of the fields of an object, with every count checked. -/
def leavesOfFields? (fields : List (String × Node)) (path : String) (rep depth : Nat) :
    Option (List LeafColumn) :=
  match fields with
  | [] => some []
  | (name, node) :: rest => do
    let inner ← Level.fit? (depth + 1)
    let here ← leavesBelow? node (path ++ "." ++ name) rep inner
    let others ← leavesOfFields? rest path rep depth
    return here ++ others

end

/-- The leaves of a schema, with every count checked. -/
def leaves? (schema : Schema) : Option (List LeafColumn) :=
  (schema.fields.mapM fun (name, node) => leavesBelow? node name 0 1).map List.flatten

/-- A schema of fields whose columns were numbered elsewhere. Its leaves are listed for the next
    number. -/
def ofFields? (fields : List (String × Node)) : Option Schema :=
  (leaves? ⟨fields, 0⟩).map fun leaves => ⟨fields, (leaves.map (·.column + 1)).foldl max 0⟩

end Schema

namespace Shredding

open Schema (Node)

mutual

/-- The entries of a value, with every count checked. -/
def shredNodeWithin (path : List String) (node : Node) (rep level arrays : Nat) (value : Json) :
    Checked SchemaError Entries :=
  match node, value with
  | .object fields, .object members => do
    Checked.ofExcept (checkCovered path fields members)
    shredFieldsWithin path fields members rep level arrays
  | .array element, .array items =>
    match items.filter (!·.isNull) with
    | [] => Checked.ofExcept (.ok (absentBelow element rep level))
    | first :: others => do
      let inner ← Level.fit? (level + 1)
      let deeper ← Level.fit? (arrays + 1)
      let start ← shredNodeWithin path element rep inner deeper first
      let repeated ← others.mapM (shredNodeWithin path element deeper inner deeper)
      return start ++ repeated.flatten
  | .leaf column type, value => Checked.ofExcept (shredLeaf path column type rep level value)
  | node, value => throw (.conflict (Schema.dotted path) node.kindName value.kind)

/-- The entries of the members of an object, with every count checked. -/
def shredFieldsWithin (path : List String) (fields : List (String × Node))
    (members : List (String × Json)) (rep level arrays : Nat) : Checked SchemaError Entries :=
  match fields with
  | [] => Checked.ofExcept (.ok [])
  | (name, node) :: rest => do
    let here ←
      match (Json.member? members name).filter (!·.isNull) with
      | some value => do
        let inner ← Level.fit? (level + 1)
        shredNodeWithin (path ++ [name]) node rep inner arrays value
      | none => Checked.ofExcept (.ok (absentBelow node rep level))
    let others ← shredFieldsWithin path rest members rep level arrays
    return here ++ others

end

/-- The entries of a document, untouched columns included, with every count checked. -/
def shredAllWithin (schema : Schema) (document : Json) : Checked SchemaError Entries :=
  match document with
  | .object members => do
    Checked.ofExcept (checkCovered [] schema.fields members)
    shredFieldsWithin [] schema.fields members 0 0 0
  | value => throw (.notAnObject value.kind)

/-- The streams of a document, with every count checked. -/
def shredWithin (schema : Schema) (document : Json) : Checked SchemaError Streams := do
  let entries ← shredAllWithin schema document
  return (toStreams entries).filter fun _ stream => !isUntouched stream

end Shredding

namespace Projection

open Schema (Node)

mutual

/-- The columns at and below a shape, with the levels of each checked. -/
def columnsBelow? (node : Node) (path : String) (steps : List Step) :
    Option (List ProjectedColumn) :=
  match node with
  | .leaf column type => do
    let _ ← Level.fit? (Step.elements steps)
    let _ ← Level.fit? steps.length
    return [⟨column, path, type, steps, []⟩]
  | .object fields => columnsOfFields? fields path steps 0
  | .array element => columnsBelow? element path (steps ++ [.element])

/-- The columns of the fields of an object, with the levels of each checked. -/
def columnsOfFields? (fields : List (String × Node)) (path : String) (steps : List Step)
    (index : Nat) : Option (List ProjectedColumn) :=
  match fields with
  | [] => some []
  | (name, node) :: rest => do
    let here ← columnsBelow? node (joinPath path name) (steps ++ [.member index])
    let others ← columnsOfFields? rest path steps (index + 1)
    return here ++ others

end

/-- A schema with its columns, with the levels of each checked. -/
def ofSchema? (schema : Schema) : Option Projection :=
  (columnsOfFields? schema.fields "" [] 0).map fun columns => ⟨schema, columns, []⟩

/-- Link the sources of one column, with the levels of each checked. -/
def linkSources? (columns shapes : List ProjectedColumn) (full : ProjectedColumn) :
    List (ProjectedColumn × Nat) → Option (List ShapeSource × List ProjectedColumn)
  | [] => some ([], shapes)
  | (source, depth) :: rest => do
    let (read, shapes) := readIndex columns shapes source
    let level ← Level.fit? depth
    let rep ← Level.fit? (Step.elements (full.steps.take depth))
    let (sources, shapes) ← linkSources? columns shapes full rest
    return (⟨read, level, rep⟩ :: sources, shapes)

/-- Link the sources of each column, with the levels of each checked. -/
def linkColumns? (table columns shapes : List ProjectedColumn) :
    List ProjectedColumn → Option (List ProjectedColumn × List ProjectedColumn)
  | [] => some ([], shapes)
  | c :: rest => do
    let (sources, shapes) ←
      match table.find? (·.column = c.column) with
      | some full => linkSources? columns shapes full (shapeSourcesOf table full)
      | none => some ([], shapes)
    let (linked, shapes) ← linkColumns? table columns shapes rest
    return (⟨c.column, c.path, c.type, c.steps, sources⟩ :: linked, shapes)

/-- The projection with every column linked, with the levels of each source checked. -/
def withShapeSources? (p : Projection) (table : Schema) : Option Projection := do
  let whole ← ofSchema? table
  let (columns, shapes) ← linkColumns? whole.columns p.columns p.shapeColumns p.columns
  return ⟨p.schema, columns, shapes⟩

/-- The projection of a table's schema to a list of paths, with every level checked. -/
def resolveWithin (schema : Schema) (paths : List String) : Checked PlanError Projection := do
  let all := (List.range schema.fields.length).map .whole
  let selection ← Checked.ofExcept (select schema.fields paths (if paths.isEmpty then all else []))
  let part ← Schema.ofFields? (pruneFields schema.fields selection)
  let projection ← ofSchema? part
  projection.withShapeSources? schema

end Projection

end NestedColumns

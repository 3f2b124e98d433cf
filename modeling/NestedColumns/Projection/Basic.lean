import NestedColumns.Schema.Basic

/-!
# Projections

What a reader reads: a schema of the records it gives, the columns of that
schema, and for each column where to look when a document has no entry in it.

A document that was stored before a column existed has no entries in it, yet
the objects and arrays around that column may be there. They can be read off an
older column that shares the first steps of the path: among the columns below a
shared object the one with the smallest number was there whenever any of them
was. Such columns are read for their shape even if no record shows them.

## Main definitions

* `Step`, `ProjectedColumn`: A column and the steps to it in the projected schema.
* `ShapeSource`: Another column to take the shape from, up to a shared object.
* `Projection`: A schema, its columns, and the columns read for shape only.
* `Projection.ofSchema`: A schema with its columns.
* `Projection.withShapeSources`: The columns linked to older ones of a table.
-/

namespace NestedColumns

/-- A step on the way from a document to a leaf. -/
inductive Step where
  /-- The field at this place of an object. -/
  | member (index : Nat)
  /-- An element of an array. -/
  | element
  deriving DecidableEq, Repr, Inhabited

/-- How many arrays are on the way. -/
def Step.elements (steps : List Step) : Nat :=
  steps.countP (· = .element)

/-- A column that shares the first `depth` steps with another one. -/
structure ShapeSource where
  /-- Its place among the columns that are read. -/
  read : Nat
  depth : Nat
  /-- How many of the shared steps are elements of arrays. -/
  rep : Nat
  deriving DecidableEq, Repr, Inhabited

/-- A column to read and where its values go. -/
structure ProjectedColumn where
  column : Nat
  path : String
  type : DataType
  steps : List Step
  /-- Where to take the shape of a document from that has no entries in this
      column, deepest shared object first. -/
  shapeSources : List ShapeSource
  deriving DecidableEq, Repr, Inhabited

namespace ProjectedColumn

/-- The highest repetition level of the column. -/
def maxRep (c : ProjectedColumn) : Nat := Step.elements c.steps

/-- The highest definition level of the column. -/
def maxDef (c : ProjectedColumn) : Nat := c.steps.length

end ProjectedColumn

/-- A schema of records, its columns in order, and columns of the table that are
    read for their shape only. -/
structure Projection where
  schema : Schema
  columns : List ProjectedColumn
  shapeColumns : List ProjectedColumn
  deriving Inhabited

namespace Projection

/-- The path of a field below `path`, which is empty at the top. -/
def joinPath (path name : String) : String :=
  if path.isEmpty then name else path ++ "." ++ name

mutual

/-- The columns at and below a shape that is reached by `steps`. -/
def columnsBelow (node : Schema.Node) (path : String) (steps : List Step) :
    List ProjectedColumn :=
  match node with
  | .leaf column type => [⟨column, path, type, steps, []⟩]
  | .object fields => columnsOfFields fields path steps 0
  | .array element => columnsBelow element path (steps ++ [.element])

/-- The columns of the fields of an object, the first of which has the place
    `index`. -/
def columnsOfFields (fields : List (String × Schema.Node)) (path : String)
    (steps : List Step) (index : Nat) : List ProjectedColumn :=
  match fields with
  | [] => []
  | (name, node) :: rest =>
    columnsBelow node (joinPath path name) (steps ++ [.member index]) ++
      columnsOfFields rest path steps (index + 1)

end

/-- A schema with its columns in depth-first order. -/
def ofSchema (schema : Schema) : Projection :=
  ⟨schema, columnsOfFields schema.fields "" [] 0, []⟩

/-- Every column to read: those of the schema, then those read for shape. -/
def reads (p : Projection) : List ProjectedColumn :=
  p.columns ++ p.shapeColumns

/-- Of some columns, the first among those with the smallest number. -/
def oldest? : List ProjectedColumn → Option ProjectedColumn
  | [] => none
  | c :: rest =>
    match oldest? rest with
    | none => some c
    | some d => if d.column < c.column then some d else some c

/-- The column of `table` to take the shape of `full` from, up to its first
    `depth` steps. Only an object has other columns below it, so an array at that
    depth is left to the depths above. -/
def shapeSourceAt (table : List ProjectedColumn) (full : ProjectedColumn) (depth : Nat) :
    Option (ProjectedColumn × Nat) :=
  match full.steps[depth]? with
  | some (.member _) =>
    (oldest? (table.filter fun c =>
      c.column < full.column && (full.steps.take depth).isPrefixOf c.steps)).map (·, depth)
  | _ => none

/-- Of neighbours that name the same column, the first. `last` is the column
    before. -/
def dropRepeats (last : Option Nat) : List (ProjectedColumn × Nat) → List (ProjectedColumn × Nat)
  | [] => []
  | (c, depth) :: rest =>
    if last = some c.column then dropRepeats last rest
    else (c, depth) :: dropRepeats (some c.column) rest

/-- The columns of `table` to take the shape of `full` from, deepest first, with
    the number of steps they share. -/
def shapeSourcesOf (table : List ProjectedColumn) (full : ProjectedColumn) :
    List (ProjectedColumn × Nat) :=
  dropRepeats none (((List.range full.steps.length).reverse.filter (0 < ·)).filterMap
    (shapeSourceAt table full))

/-- The place of a column among those that are read; it is added to those read
    for shape if it has none yet. -/
def readIndex (columns shapes : List ProjectedColumn) (c : ProjectedColumn) :
    Nat × List ProjectedColumn :=
  match columns.findIdx? (·.column = c.column) with
  | some i => (i, shapes)
  | none =>
    match shapes.findIdx? (·.column = c.column) with
    | some i => (columns.length + i, shapes)
    | none => (columns.length + shapes.length, shapes ++ [c])

/-- Link the sources of one column. -/
def linkSources (columns shapes : List ProjectedColumn) (full : ProjectedColumn) :
    List (ProjectedColumn × Nat) → List ShapeSource × List ProjectedColumn
  | [] => ([], shapes)
  | (source, depth) :: rest =>
    let (read, shapes) := readIndex columns shapes source
    let (sources, shapes) := linkSources columns shapes full rest
    (⟨read, depth, Step.elements (full.steps.take depth)⟩ :: sources, shapes)

/-- Link the sources of each column. -/
def linkColumns (table columns : List ProjectedColumn) (shapes : List ProjectedColumn) :
    List ProjectedColumn → List ProjectedColumn × List ProjectedColumn
  | [] => ([], shapes)
  | c :: rest =>
    let (sources, shapes) :=
      match table.find? (·.column = c.column) with
      | some full => linkSources columns shapes full (shapeSourcesOf table full)
      | none => ([], shapes)
    let (linked, shapes) := linkColumns table columns shapes rest
    (⟨c.column, c.path, c.type, c.steps, sources⟩ :: linked, shapes)

/-- The projection with every column linked to the older columns of the table
    that it can take its shape from. -/
def withShapeSources (p : Projection) (table : Schema) : Projection :=
  let (columns, shapes) := linkColumns (ofSchema table).columns p.columns p.shapeColumns p.columns
  ⟨p.schema, columns, shapes⟩

end Projection

end NestedColumns

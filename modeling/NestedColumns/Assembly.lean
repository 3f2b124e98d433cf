import NestedColumns.Checksum
import NestedColumns.Projection.Basic
import NestedColumns.Record
import NestedColumns.Triple

/-!
# Assembly

Putting documents together from the entries of their columns. Each entry says
by its repetition level which element of which array it belongs to, and by its
definition level how far the steps to its column exist; the slots on that way
are made, and the value, if there is one, is put at its end. A column without
entries for a document lends itself the shape of another one.

The streams of a damaged store may hold anything, so levels and values are
checked against the column before they are used.

## Main definitions

* `AssemblyError`: Entries that cannot belong to their column.
* `Assembly.missingShape`: The entries a column would have had.
* `Assembly.place`: The entries of one column put into a record.
* `Assembly.assemble`: A record from the entries of all columns.
-/

namespace NestedColumns

/-- Entries that cannot belong to their column. -/
inductive AssemblyError where
  /-- Levels beyond those of the column, or a document that does not start with
      repetition level zero and go on with others. -/
  | levels (rep level : Nat) (path : String)
  /-- A value where the column has none, or none where it has one. -/
  | presence (level : Nat) (path : String)
  deriving DecidableEq, Repr

/-- The message of an assembly error. -/
def AssemblyError.message : AssemblyError → String
  | .levels rep level path =>
    undecodable ("invalid levels (" ++ toString rep ++ ", " ++ toString level ++ ") in column " ++
      path)
  | .presence level path =>
    undecodable ("value presence does not match definition level " ++ toString level ++
      " in column " ++ path)

/-- Change the slot at the end of some steps. Slots on the way become objects
    and arrays as the steps want it. `positions` says which element is meant for
    each array on the way. -/
def Slot.modifyAt (f : Slot → Slot) : List Step → List Nat → Slot → Slot
  | [], _, slot => f slot
  | .member index :: steps, positions, slot =>
    .object (Slot.modifyPlace (Slot.modifyAt f steps positions) index slot.members)
  | .element :: steps, positions, slot =>
    .array (Slot.modifyPlace (Slot.modifyAt f steps positions.tail)
      (positions.headD 0) slot.elements)

namespace Assembly

/-- The positions after an entry of repetition level `rep`: the array of that
    number goes on to its next element, and those inside it start again. -/
def advance : Nat → List Nat → List Nat
  | 0, positions => positions
  | _ + 1, [] => []
  | 1, position :: inner => (position + 1) :: inner.map fun _ => 0
  | rep + 2, position :: inner => position :: advance (rep + 1) inner

/-- What is put at the end of an entry's steps. Below the top, a missing member
    makes its object, and a missing element its array. -/
def filling (column : ProjectedColumn) (t : Triple) : Except AssemblyError (Slot → Slot) :=
  match column.steps[t.level]?, t.value with
  | none, some v => .ok fun _ => .value v
  | some (.member _), none => .ok (if 0 < t.level then Slot.asObject else id)
  | some .element, none => .ok Slot.asArray
  | _, _ => .error (.presence t.level column.path)

/-- Put the entries of one column of one document into a record. `first` says
    that no entry was put yet. -/
def placeFrom (column : ProjectedColumn) :
    Bool → List Nat → List Triple → Slot → Except AssemblyError Slot
  | _, _, [], root => .ok root
  | first, positions, t :: rest, root =>
    if first ≠ decide (t.rep = 0) ∨ column.maxRep < t.rep ∨ column.maxDef < t.level then
      .error (.levels t.rep t.level column.path)
    else
      match filling column t with
      | .error e => .error e
      | .ok f =>
        let positions := advance t.rep positions
        placeFrom column false positions rest
          (root.modifyAt f (column.steps.take t.level) positions)

/-- Put the entries of one column of one document into a record. -/
def place (column : ProjectedColumn) (triples : List Triple) (root : Slot) :
    Except AssemblyError Slot :=
  placeFrom column true (List.replicate column.maxRep 0) triples root

/-- The entries without value that a document would have in a column, had it
    existed when the document was stored: those of the first source that has any,
    up to the steps it shares. Without one the top-level field is absent. -/
def missingShape (reads : List (List Triple)) : List ShapeSource → List Triple
  | [] => []
  | source :: rest =>
    match reads[source.read]? with
    | some (t :: triples) =>
      ((t :: triples).filter (·.rep ≤ source.rep)).map fun t =>
        .absent t.rep (min t.level source.depth)
    | _ => missingShape reads rest

/-- Put the entries of each column into a record. -/
def assembleColumns (reads : List (List Triple)) :
    List (ProjectedColumn × List Triple) → Slot → Except AssemblyError Slot
  | [], root => .ok root
  | (column, triples) :: rest, root => do
    let triples := if triples.isEmpty then missingShape reads column.shapeSources else triples
    assembleColumns reads rest (← place column triples root)

/-- A record from the entries of one document, given for each column that the
    projection reads. -/
def assemble (p : Projection) (reads : List (List Triple)) : Except AssemblyError Record := do
  let root ← assembleColumns reads (p.columns.zip reads) (.object [])
  return ⟨p.schema.fields, root⟩

end Assembly

end NestedColumns

import NestedColumns.Cursor

/-!
# Reading records

A table is read record by record, in the order in which its documents came. Each
record takes the next document of every column that the projection reads; each
column has a cursor of its own.

## Main definitions

* `RecordReader`: A projection with its cursors, and how many records there are.
* `RecordReader.next`: The next record.
* `RecordReader.all`: All records that are left.
-/

namespace NestedColumns

/-- A projection with a cursor for each column it reads. -/
structure RecordReader where
  projection : Projection
  cursors : List Cursor
  /-- How many records there are. -/
  total : Nat
  /-- How many of them were given out. -/
  emitted : Nat
  deriving Inhabited

namespace RecordReader

/-- The next document of each cursor, one after another. A cursor that fails ends
    the step; those before it have moved on, those after it have not.

    The program polls all cursors concurrently, returns the first error that comes
    up and drops the steps that are pending then, some of which have taken up their
    next chunk already. How far the other cursors have moved by that time is a matter
    of scheduling; the order here is one of those that occur. -/
def stepCursors (v : Volume) :
    List Cursor → Volume × Except (Halt StoreError) (List (Option (List Triple))) × List Cursor
  | [] => (v, .ok [], [])
  | cursor :: rest =>
    match cursor.next v with
    | (v, .error e, cursor) => (v, .error e, cursor :: rest)
    | (v, .ok triples, cursor) =>
      match stepCursors v rest with
      | (v, .error e, rest) => (v, .error e, cursor :: rest)
      | (v, .ok others, rest) => (v, .ok (triples :: others), cursor :: rest)

/-- Every column has a document; else the first that has ended is the error. -/
def requireAll (emitted total : Nat) :
    List (ProjectedColumn × Option (List Triple)) → Except StoreError (List (List Triple))
  | [] => .ok []
  | (column, none) :: _ => .error (.columnEnded column.path emitted total)
  | (_, some triples) :: rest => (requireAll emitted total rest).map (triples :: ·)

/-- The next record; `none` after the last. -/
def next (r : RecordReader) (v : Volume) :
    Volume × Except (Halt StoreError) (Option Record) × RecordReader :=
  if r.total ≤ r.emitted then (v, .ok none, r)
  else
    match stepCursors v r.cursors with
    | (v, .error e, cursors) => (v, .error e, ⟨r.projection, cursors, r.total, r.emitted⟩)
    | (v, .ok documents, cursors) =>
      let assembled : Except StoreError Record := do
        let reads ← requireAll r.emitted r.total (r.projection.reads.zip documents)
        (Assembly.assemble r.projection reads).mapError .assembly
      match assembled with
      | .error e => (v, .error (.failed e), ⟨r.projection, cursors, r.total, r.emitted⟩)
      | .ok record =>
        (v, .ok (some record), ⟨r.projection, cursors, r.total, r.emitted + 1⟩)

/-- So many records, or all that are left. -/
def take : Nat → RecordReader → Volume → Volume × Except (Halt StoreError) (List Record)
  | 0, _, v => (v, .ok [])
  | n + 1, r, v =>
    match r.next v with
    | (v, .error e, _) => (v, .error e)
    | (v, .ok none, _) => (v, .ok [])
    | (v, .ok (some record), r) =>
      match take n r v with
      | (v, .error e) => (v, .error e)
      | (v, .ok records) => (v, .ok (record :: records))

/-- All records that are left. -/
def all (r : RecordReader) (v : Volume) :
    Volume × Except (Halt StoreError) (List Record) :=
  take (r.total - r.emitted) r v

end RecordReader

end NestedColumns

import NestedColumns.Log.Operation

/-!
# The registry

What the log says: the catalog, and a number above those of all chunks. A store
that is open keeps the registry of all operations in its log; opening it again
applies them once more.

Entries about the schema or the chunks of a table that is not there change
nothing when a log is replayed, for they can only have been written after the
table was dropped. Everything else has to fit.

## Main definitions

* `Registry`: The catalog with the number of the next chunk.
* `Registry.apply`, `Registry.applyAll`: The registry after operations.
* `Registry.replay`: The registry of a log.
-/

namespace NestedColumns

/-- The catalog with the number of the next chunk. -/
structure Registry where
  catalog : Catalog
  /-- The number the next chunk of any table is given. -/
  nextChunk : Nat
  deriving Inhabited

namespace Registry

/-- The registry without operations. -/
def empty : Registry := ⟨.empty, 0⟩

/-- The registry after its next chunk number was given away. -/
def takeChunk (r : Registry) : Registry :=
  ⟨r.catalog, r.nextChunk + 1⟩

/-- The registry after an operation. -/
def apply (r : Registry) : Operation → Except CatalogError Registry
  | .createDatabase id name =>
    (r.catalog.addDatabase id name).map fun c => ⟨c, r.nextChunk⟩
  | .dropDatabase id =>
    (r.catalog.dropDatabase id).map fun (_, c) => ⟨c, r.nextChunk⟩
  | .createTable ref name =>
    match r.catalog.databases.find? ref.database with
    | none => .error (.notFound .database (toString ref.database))
    | some d =>
      (d.addTable ref.table name).map fun d => ⟨r.catalog.setDatabase d, r.nextChunk⟩
  | .dropTable ref =>
    match r.catalog.databases.find? ref.database with
    | none => .error (.notFound .database (toString ref.database))
    | some d =>
      (d.dropTable ref.table).map fun (_, d) => ⟨r.catalog.setDatabase d, r.nextChunk⟩
  | .updateSchema ref schema =>
    match r.catalog.table? ref with
    | none => .error (.notFound .table ref.display)
    | some _ => .ok ⟨r.catalog.updateSchema ref schema, r.nextChunk⟩
  | .addChunk ref chunk =>
    match r.catalog.table? ref with
    | none => .error (.notFound .table ref.display)
    -- Numbers of chunks that were never committed may lie between.
    | some _ => .ok ⟨r.catalog.addChunk ref chunk, max r.nextChunk (chunk.chunk + 1)⟩

/-- The registry after operations, up to the first that does not fit. -/
def applyAll (r : Registry) : List Operation → Registry × Except CatalogError Unit
  | [] => (r, .ok ())
  | op :: rest =>
    match r.apply op with
    | .error e => (r, .error e)
    | .ok r => applyAll r rest

/-- An operation changes a table that is not there. -/
def isStale (r : Registry) : Operation → Bool
  | .updateSchema ref _ => (r.catalog.table? ref).isNone
  | .addChunk ref _ => (r.catalog.table? ref).isNone
  | _ => false

/-- The registry after an operation of a log that is replayed. -/
def replayOne (r : Registry) (op : Operation) : Except CatalogError Registry :=
  if r.isStale op then .ok r else r.apply op

/-- The registry of a log. -/
def replay (ops : List Operation) : Except CatalogError Registry :=
  ops.foldlM replayOne empty

end Registry

end NestedColumns

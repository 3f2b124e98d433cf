import NestedColumns.Log.File
import NestedColumns.Registry
import NestedColumns.Volume

/-!
# Stores

A store keeps tables in a directory: the log, and for every chunk a directory
whose path consists of the numbers of the database, the table and the chunk.
Every change of the catalog is written to the log before it counts. A table has
at most one writer at a time.

## Main definitions

* `Store`: A store that is open.
* `Store.tableNamed`: Finding a table by names.
* `Store.lock`, `Store.unlock`: The writer of a table.
* `Store.perform`, `Store.removeTrees`: Changes of its disk.
* `Store.commit`: A change of the catalog.
-/

namespace NestedColumns

/-- A store that is open. -/
structure Store where
  options : StoreOptions
  volume : Volume
  log : LogFile
  registry : Registry
  /-- The tables that have a writer. -/
  writers : List TableRef
  deriving Inhabited

namespace StoreOptions

/-- The route to a store, as the options spell it. -/
def route (o : StoreOptions) : Route :=
  .ofString o.path

/-- The directory of a store. -/
def directory (o : StoreOptions) : Path :=
  o.route.path

/-- The log of a store. -/
def logPath (o : StoreOptions) : Path :=
  o.directory ++ ["manifest.json"]

/-- The directory of a database. -/
def databasePath (o : StoreOptions) (database : Nat) : Path :=
  o.directory ++ [toString database]

/-- The directory of a table. -/
def tablePath (o : StoreOptions) (ref : TableRef) : Path :=
  o.databasePath ref.database ++ [toString ref.table]

/-- The directory of a chunk. -/
def chunkPath (o : StoreOptions) (ref : TableRef) (chunk : Nat) : Path :=
  o.tablePath ref ++ [toString chunk]

end StoreOptions

namespace Store

/-- The catalog of a store. -/
def catalog (s : Store) : Catalog :=
  s.registry.catalog

/-- The disk of a store. -/
def disk (s : Store) : Disk :=
  s.volume.disk

/-- The store with another disk and the same pages. -/
def setDisk (s : Store) (d : Disk) : Store :=
  ⟨s.options, s.volume.setDisk d, s.log, s.registry, s.writers⟩

/-- The store after reading. -/
def setVolume (s : Store) (v : Volume) : Store :=
  ⟨s.options, v, s.log, s.registry, s.writers⟩

/-- The store with another registry. -/
def setRegistry (s : Store) (r : Registry) : Store :=
  ⟨s.options, s.volume, s.log, r, s.writers⟩

/-- The store with other writers. -/
def setWriters (s : Store) (writers : List TableRef) : Store :=
  ⟨s.options, s.volume, s.log, s.registry, writers⟩

/-- A table has a writer. -/
def isWritten (s : Store) (ref : TableRef) : Bool :=
  s.writers.contains ref

/-- Become the writer of a table, if it has none. -/
def lock (s : Store) (t : Table) : Store × Except StoreError Unit :=
  if s.isWritten t.ref then (s, .error (.sessionConflict t.name))
  else (s.setWriters (t.ref :: s.writers), .ok ())

/-- A table is free for another writer. -/
def unlock (s : Store) (ref : TableRef) : Store :=
  s.setWriters (s.writers.filter (· ≠ ref))

/-- The database of a name. -/
def databaseNamed (s : Store) (database : String) : Except StoreError Database :=
  match s.catalog.databaseNamed? database with
  | some d => .ok d
  | none => .error (.notFound .database database)

/-- The table of a name in the database of a name. -/
def tableNamed (s : Store) (database table : String) : Except StoreError Table :=
  match s.databaseNamed database with
  | .error e => .error e
  | .ok d =>
    match d.tableNamed? table with
    | some t => .ok t
    | none => .error (.notFound .table table)

/-- Attempt a change of the disk. -/
def perform (s : Store) (e : Effect) : Store × Except StoreError Unit :=
  let (d, result) := s.disk.perform e
  (s.setDisk d, result.mapError .file)

/-- Attempt changes of the disk, up to the first that fails. -/
def performAll (s : Store) (effects : List Effect) : Store × Except StoreError Unit :=
  let (d, result) := s.disk.performAll effects
  (s.setDisk d, result.mapError .file)

/-- Remove directories with all they contain, up to the first that fails. -/
def removeTrees (s : Store) (paths : List Path) : Store × Except StoreError Unit :=
  let (d, result) := s.disk.removeTrees paths
  (s.setDisk d, result.mapError .file)

/-- Remove directories with all they contain, whatever fails. What stays is
    removed when the store is opened again. -/
def discardTrees (s : Store) (paths : List Path) : Store :=
  s.setDisk (s.disk.discardTrees paths)

/-- Write operations to the log, then apply them. If they cannot be written,
    nothing has changed. -/
def commit (s : Store) (ops : List Operation) : Store × Except StoreError Unit :=
  match s.log.append s.disk (ops.map .operation) with
  | (d, .error e, log) =>
    (⟨s.options, s.volume.setDisk d, log, s.registry, s.writers⟩, .error (.file e))
  | (d, .ok _, log) =>
    -- From here on the operations count, whatever happens to the program.
    let (registry, result) := s.registry.applyAll ops
    (⟨s.options, s.volume.setDisk d, log, registry, s.writers⟩, result.mapError .ofCatalog)

end Store

end NestedColumns

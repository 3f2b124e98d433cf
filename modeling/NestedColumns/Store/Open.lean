import NestedColumns.Disk.Walk
import NestedColumns.Store.Basic

/-!
# Opening a store

A store is opened by replaying its log. What the log does not know of is then
removed: directories that an interrupted change left behind, or a session that
never closed. Only directories with numbers for names are looked at, on the
three levels that a store has; everything else is left alone.

## Main definitions

* `numberOfName?`: The number that a directory name stands for.
* `Store.orphans`: The directories that the catalog does not know.
* `Store.openWith`: Opening a store.
-/

namespace NestedColumns

/-- The number that a name stands for: digits, with a plus sign or without,
    below `2 ^ 32`. -/
def numberOfName? (name : String) : Option Nat :=
  let digits :=
    match name.toList with
    | '+' :: rest => rest
    | cs => cs
  let number := Json.digitsValue digits
  if !digits.isEmpty && digits.all Json.isDigit && number < 2 ^ 32 then some number else none

namespace Store

/-- The directories in a directory that have numbers for names. -/
def numberedDirectories (d : Disk) (path : Path) : List (Nat × Path) :=
  (d.list path).filterMap fun
    | (name, .directory) => (numberOfName? name).map (·, path ++ [name])
    | (_, .file _) => none

/-- The directories of chunks that a table does not have. -/
def orphansOfTable (t : Table) (d : Disk) (path : Path) : List Path :=
  (numberedDirectories d path).filterMap fun (id, path) =>
    if t.chunks.any (·.chunk = id) then none else some path

/-- The directories of tables that a database does not have, and of chunks that
    its tables do not have. -/
def orphansOfDatabase (db : Database) (d : Disk) (path : Path) : List Path :=
  (numberedDirectories d path).flatMap fun (id, path) =>
    match db.tables.find? id with
    | none => [path]
    | some t => orphansOfTable t d path

/-- The directories that a catalog does not know. -/
def orphans (c : Catalog) (d : Disk) (path : Path) : List Path :=
  (numberedDirectories d path).flatMap fun (id, path) =>
    match c.databases.find? id with
    | none => [path]
    | some db => orphansOfDatabase db d path

/-- Why the log could not be opened, as an error of the store. -/
def ofLogFile : LogFileError → StoreError
  | .file e => .file e
  | .log e => .log e

/-- A store whose directory is there: its log replayed, and what that does not
    know of removed. -/
def openDirectory (options : StoreOptions) (d : Disk) : Disk × Except StoreError Store :=
  match LogFile.openAt d options.logPath with
  | (d, .error e) => (d, .error (ofLogFile e))
  | (d, .ok (log, ops)) =>
    match Registry.replay ops with
    | .error e => (d, .error (.ofCatalog e))
    | .ok registry =>
      match d.removeTrees (orphans registry.catalog d options.directory) with
      | (d, .error e) => (d, .error (.file e))
      | (d, .ok _) =>
        (d, .ok ⟨options, .ofDisk d options.backend options.cacheSize, log, registry, []⟩)

/-- Open a store, which is made if it is not there. The answer has the disk as it
    is afterwards, also if opening failed. -/
def openWith (options : StoreOptions) (d : Disk) : Disk × Except StoreError Store :=
  match options.validate with
  | .error e => (d, .error (.config e))
  | .ok _ =>
    match d.makeAlong options.route with
    | (d, .error e) => (d, .error (.file e))
    | (d, .ok _) => openDirectory options d

/-- Remove a store from its disk. One that is gone already is fine. -/
def remove (s : Store) : Store × Except StoreError Unit :=
  match s.disk.removeAlong s.options.route with
  | (d, .error .notFound) => (s.setDisk d, .ok ())
  | (d, result) => (s.setDisk d, result.mapError .file)

end Store

end NestedColumns

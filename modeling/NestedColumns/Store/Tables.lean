import NestedColumns.Store.Basic

/-!
# Databases and tables

Making and dropping databases and tables. A table with a writer cannot be
dropped, and neither can its database. The files of what was dropped are removed
after the log says so; if that fails, they are removed when the store is opened
again.

## Main definitions

* `Store.isValidName`: The names that databases and tables may have.
* `Store.createDatabase`, `Store.dropDatabase`, `Store.createTable`,
  `Store.dropTable`: The changes.
* `Store.lockAll`: No table that is dropped gets a writer.
* `Store.databaseNames`, `Store.tableNames`: The names in order of the numbers.
-/

namespace NestedColumns

namespace Store

/-- A name is not empty, and could be one name of a path. -/
def isValidName (name : String) : Bool :=
  !name.isEmpty && name.toList.all fun c => c ≠ '/' && c ≠ '\\' && c ≠ '\x00'

/-- Make a database. -/
def createDatabase (s : Store) (name : String) : Store × Except StoreError Unit :=
  if !isValidName name then (s, .error (.invalidName .database name))
  else if (s.catalog.databaseNamed? name).isSome then
    (s, .error (.duplicated .database name))
  else s.commit [.createDatabase s.catalog.nextDatabase name]

/-- Make a table. -/
def createTable (s : Store) (database table : String) : Store × Except StoreError Unit :=
  if !isValidName table then (s, .error (.invalidName .table table))
  else
    match s.databaseNamed database with
    | .error e => (s, .error e)
    | .ok d =>
      if (d.tableNamed? table).isSome then (s, .error (.duplicated .table table))
      else s.commit [.createTable ⟨d.id, d.nextTable⟩ table]

/-- Commit operations that drop what is in a directory, and remove it. -/
def commitDrop (s : Store) (ops : List Operation) (directory : Path) :
    Store × Except StoreError Unit :=
  match s.commit ops with
  | (s, .error e) => (s, .error e)
  | (s, .ok _) => (s.discardTrees [directory], .ok ())

/-- Become the writer of tables one after another, besides those that are held
    already. If one has a writer, all that were held are free again. -/
def lockAll (s : Store) (held : List TableRef) :
    List Table → Store × Except StoreError (List TableRef)
  | [] => (s, .ok held)
  | t :: rest =>
    match s.lock t with
    | (s, .error e) => (held.foldl unlock s, .error e)
    | (s, .ok _) => s.lockAll (held ++ [t.ref]) rest

/-- Commit operations that drop tables, and remove what is in their directory.
    No session can begin on one of the tables meanwhile. -/
def dropLocked (s : Store) (tables : List Table) (ops : List Operation) (directory : Path) :
    Store × Except StoreError Unit :=
  match s.lockAll [] tables with
  | (s, .error e) => (s, .error e)
  | (s, .ok held) =>
    let (s, result) := s.commitDrop ops directory
    (held.foldl unlock s, result)

/-- Drop a database with its tables. One table with a writer is enough to refuse. -/
def dropDatabase (s : Store) (name : String) : Store × Except StoreError Unit :=
  match s.databaseNamed name with
  | .error e => (s, .error e)
  | .ok d =>
    s.dropLocked d.tables.values
      (d.tables.values.map (fun t => .dropTable t.ref) ++ [.dropDatabase d.id])
      (s.options.databasePath d.id)

/-- Drop a table. -/
def dropTable (s : Store) (database table : String) : Store × Except StoreError Unit :=
  match s.tableNamed database table with
  | .error e => (s, .error e)
  | .ok t => s.dropLocked [t] [.dropTable t.ref] (s.options.tablePath t.ref)

/-- The names of the databases. -/
def databaseNames (s : Store) : List String :=
  s.catalog.databases.values.map (·.name)

/-- The names of the tables of a database. -/
def tableNames (s : Store) (database : String) : Except StoreError (List String) :=
  (s.databaseNamed database).map fun d => d.tables.values.map (·.name)

end Store

end NestedColumns

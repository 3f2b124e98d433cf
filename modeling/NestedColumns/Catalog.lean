import NestedColumns.IdMap
import NestedColumns.Schema.Basic

/-!
# The catalog

Which databases and tables there are, and of each table its schema and its
chunks in the order they were added. Names are unique among the databases and
within each database. Numbers are given out in ascending order and never again:
the next one is above every number that was ever added.

## Main definitions

* `ChunkInfo`, `Table`, `Database`, `Catalog`: The entries.
* `Catalog.addDatabase`, `Catalog.dropDatabase`, `Database.addTable`,
  `Database.dropTable`: Changing them.
* `Catalog.databaseNamed?`, `Catalog.table?`: Finding them.
* `CatalogError`: An entry that is missing or there already.
-/

namespace NestedColumns

/-- What a name or number may stand for. -/
inductive EntryKind where
  | database
  | table
  | column
  deriving DecidableEq, Repr

/-- The word for an entry in messages. -/
def EntryKind.name : EntryKind → String
  | .database => "database"
  | .table => "table"
  | .column => "column"

/-- An entry that is missing, or there already. -/
inductive CatalogError where
  | notFound (kind : EntryKind) (item : String)
  | duplicated (kind : EntryKind) (item : String)
  deriving DecidableEq, Repr

/-- The message of a catalog error. -/
def CatalogError.message : CatalogError → String
  | .notFound kind item => kind.name ++ " not found: " ++ item
  | .duplicated kind item => "duplicated " ++ kind.name ++ ": " ++ item

/-- The numbers of a database and of a table in it. -/
structure TableRef where
  database : Nat
  table : Nat
  deriving DecidableEq, Repr, Inhabited

/-- How a table is referred to by its numbers. -/
def TableRef.display (r : TableRef) : String :=
  "$" ++ toString r.database ++ "." ++ toString r.table

/-- A chunk of a table: how many documents it holds, and the columns that any of
    them touched. -/
structure ChunkInfo where
  chunk : Nat
  recordCount : Nat
  columns : List Nat
  deriving DecidableEq, Repr, Inhabited

/-- A table. -/
structure Table where
  ref : TableRef
  name : String
  schema : Schema
  chunks : List ChunkInfo
  deriving Inhabited

/-- A database. -/
structure Database where
  id : Nat
  name : String
  tables : IdMap Table
  /-- The number the next new table is given. -/
  nextTable : Nat
  deriving Inhabited

/-- All databases. -/
structure Catalog where
  databases : IdMap Database
  /-- The number the next new database is given. -/
  nextDatabase : Nat
  deriving Inhabited

namespace Table

/-- A table without documents. -/
def empty (ref : TableRef) (name : String) : Table :=
  ⟨ref, name, .empty, []⟩

/-- How many documents the chunks of a table hold. -/
def recordCount (t : Table) : Nat :=
  (t.chunks.map (·.recordCount)).sum

end Table

namespace Database

/-- A database without tables. -/
def empty (id : Nat) (name : String) : Database :=
  ⟨id, name, .empty, 0⟩

/-- The table of a name. -/
def tableNamed? (d : Database) (name : String) : Option Table :=
  d.tables.values.find? (·.name = name)

/-- Add an empty table. Neither its number nor its name may be taken. -/
def addTable (d : Database) (id : Nat) (name : String) : Except CatalogError Database :=
  if (d.tableNamed? name).isSome ∨ (d.tables.find? id).isSome then
    .error (.duplicated .table name)
  else
    .ok ⟨d.id, d.name, d.tables.insert id (.empty ⟨d.id, id⟩ name), max d.nextTable (id + 1)⟩

/-- Remove a table. The answer has the table too. -/
def dropTable (d : Database) (id : Nat) : Except CatalogError (Table × Database) :=
  match d.tables.find? id with
  | none => .error (.notFound .table (toString id))
  | some t => .ok (t, ⟨d.id, d.name, d.tables.erase id, d.nextTable⟩)

end Database

namespace Catalog

/-- The catalog without databases. -/
def empty : Catalog := ⟨.empty, 0⟩

/-- The database of a name. -/
def databaseNamed? (c : Catalog) (name : String) : Option Database :=
  c.databases.values.find? (·.name = name)

/-- The table of two numbers. -/
def table? (c : Catalog) (ref : TableRef) : Option Table :=
  (c.databases.find? ref.database).bind (·.tables.find? ref.table)

/-- Add an empty database. Neither its number nor its name may be taken. -/
def addDatabase (c : Catalog) (id : Nat) (name : String) : Except CatalogError Catalog :=
  if (c.databaseNamed? name).isSome ∨ (c.databases.find? id).isSome then
    .error (.duplicated .database name)
  else .ok ⟨c.databases.insert id (.empty id name), max c.nextDatabase (id + 1)⟩

/-- Remove a database with its tables. The answer has the database too. -/
def dropDatabase (c : Catalog) (id : Nat) : Except CatalogError (Database × Catalog) :=
  match c.databases.find? id with
  | none => .error (.notFound .database (toString id))
  | some d => .ok (d, ⟨c.databases.erase id, c.nextDatabase⟩)

/-- Change a database. -/
def setDatabase (c : Catalog) (d : Database) : Catalog :=
  ⟨c.databases.insert d.id d, c.nextDatabase⟩

/-- Change a table, if it is there. -/
def modifyTable (c : Catalog) (ref : TableRef) (f : Table → Table) : Catalog :=
  ⟨c.databases.modify ref.database fun d =>
    ⟨d.id, d.name, d.tables.modify ref.table f, d.nextTable⟩, c.nextDatabase⟩

/-- Give a table another schema. -/
def updateSchema (c : Catalog) (ref : TableRef) (schema : Schema) : Catalog :=
  c.modifyTable ref fun t => ⟨t.ref, t.name, schema, t.chunks⟩

/-- Add a chunk to a table. -/
def addChunk (c : Catalog) (ref : TableRef) (chunk : ChunkInfo) : Catalog :=
  c.modifyTable ref fun t => ⟨t.ref, t.name, t.schema, t.chunks ++ [chunk]⟩

end Catalog

end NestedColumns

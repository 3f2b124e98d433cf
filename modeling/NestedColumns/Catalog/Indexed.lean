import NestedColumns.Catalog
import NestedColumns.KeyMap

/-!
# The catalog with its indexes

How the catalog is kept while a program runs. Databases and tables are objects that are
shared: who has found one keeps it, also after it was dropped, and sees what becomes of it.
Every object that was ever made has a place here, and whoever refers to it does so by that
place. The databases of the catalog and the tables of a database are each listed in a roster,
by number, with an index of the numbers by name beside it.

## Main definitions

* `Roster`: Places by number, the numbers by name, and the next number.
* `Roster.add`, `Roster.remove`: Listing another object, and one no more.
* `Roster.named?`, `Roster.numbered?`, `Roster.all`: Finding objects.
* `IndexedDatabase`, `IndexedCatalog`: Databases and tables with their rosters.
* `IndexedCatalog.addDatabase`, `IndexedCatalog.dropDatabase`, `IndexedCatalog.addTable`,
  `IndexedCatalog.dropTable`: Changing what is listed.
* `IndexedCatalog.view`: The catalog that the rosters stand for.
-/

namespace NestedColumns

/-- The objects that are listed under a number and a name each. -/
structure Roster where
  /-- The numbers by name. -/
  numbers : KeyMap String Nat
  /-- The places by number. -/
  places : IdMap Nat
  /-- The number the next new object is given. -/
  next : Nat
  deriving Inhabited

namespace Roster

/-- The roster of nothing. -/
def empty : Roster := ⟨.empty, .empty, 0⟩

/-- The object of a name. -/
def named? (r : Roster) (name : String) : Option Nat :=
  (r.numbers.find? name).bind r.places.find?

/-- The object of a number. -/
def numbered? (r : Roster) (id : Nat) : Option Nat :=
  r.places.find? id

/-- All objects in ascending order of their numbers. -/
def all (r : Roster) : List Nat :=
  r.places.values

/-- The roster with another object. -/
def insert (r : Roster) (id : Nat) (name : String) (place : Nat) : Roster :=
  ⟨r.numbers.insert name id, r.places.insert id place, max r.next (id + 1)⟩

/-- The roster without the object of a number and a name. -/
def erase (r : Roster) (id : Nat) (name : String) : Roster :=
  ⟨r.numbers.erase name, r.places.erase id, r.next⟩

/-- List an object. Neither its number nor its name may be taken. -/
def add (r : Roster) (kind : EntryKind) (id : Nat) (name : String) (place : Nat) :
    Roster × Except CatalogError Unit :=
  if (r.numbers.find? name).isSome ∨ (r.numbered? id).isSome then
    (r, .error (.duplicated kind name))
  else (r.insert id name place, .ok ())

/-- List an object no more. Its name is known from the object. -/
def remove (r : Roster) (kind : EntryKind) (id : Nat) (nameAt : Nat → String) :
    Roster × Except CatalogError Nat :=
  match r.numbered? id with
  | none => (r, .error (.notFound kind (toString id)))
  | some place => (r.erase id (nameAt place), .ok place)

end Roster

/-- A database with the roster of its tables. -/
structure IndexedDatabase where
  id : Nat
  name : String
  roster : Roster
  deriving Inhabited

/-- The roster of the databases, and all databases and tables ever made, by their places. -/
structure IndexedCatalog where
  root : Roster
  databases : List IndexedDatabase
  tables : List Table
  deriving Inhabited

namespace IndexedCatalog

/-- The catalog in which nothing was ever made. -/
def empty : IndexedCatalog := ⟨.empty, [], []⟩

/-- The database at a place. -/
def database (c : IndexedCatalog) (place : Nat) : IndexedDatabase :=
  c.databases.getD place default

/-- The table at a place. -/
def table (c : IndexedCatalog) (place : Nat) : Table :=
  c.tables.getD place default

/-- The catalog with another roster for the database at a place. -/
def setRoster (c : IndexedCatalog) (place : Nat) (r : Roster) : IndexedCatalog :=
  ⟨c.root, c.databases.modify place fun d => ⟨d.id, d.name, r⟩, c.tables⟩

/-- The catalog with another table at a place. -/
def modifyTable (c : IndexedCatalog) (place : Nat) (f : Table → Table) : IndexedCatalog :=
  ⟨c.root, c.databases, c.tables.modify place f⟩

/-- Add an empty database. The answer is its place. -/
def addDatabase (c : IndexedCatalog) (id : Nat) (name : String) :
    IndexedCatalog × Except CatalogError Nat :=
  match c.root.add .database id name c.databases.length with
  | (root, .error e) => (⟨root, c.databases, c.tables⟩, .error e)
  | (root, .ok _) =>
    (⟨root, c.databases ++ [⟨id, name, .empty⟩], c.tables⟩, .ok c.databases.length)

/-- Drop a database. The answer is its place. -/
def dropDatabase (c : IndexedCatalog) (id : Nat) : IndexedCatalog × Except CatalogError Nat :=
  let (root, result) := c.root.remove .database id fun place => (c.database place).name
  (⟨root, c.databases, c.tables⟩, result)

/-- Add an empty table to the database at a place, which may have been dropped. Nobody has a
    database that was never made. -/
def addTable (c : IndexedCatalog) (place : Nat) (id : Nat) (name : String) :
    IndexedCatalog × Except CatalogError Nat :=
  match c.databases[place]? with
  | none => (c, .error (.notFound .database (toString place)))
  | some d =>
    match d.roster.add .table id name c.tables.length with
    | (roster, .error e) => (c.setRoster place roster, .error e)
    | (roster, .ok _) =>
      (⟨c.root, (c.setRoster place roster).databases, c.tables ++ [.empty ⟨d.id, id⟩ name]⟩,
        .ok c.tables.length)

/-- Drop a table of the database at a place, which may have been dropped itself. -/
def dropTable (c : IndexedCatalog) (place : Nat) (id : Nat) :
    IndexedCatalog × Except CatalogError Nat :=
  match c.databases[place]? with
  | none => (c, .error (.notFound .database (toString place)))
  | some d =>
    let (roster, result) := d.roster.remove .table id fun place => (c.table place).name
    (c.setRoster place roster, result)

/-- The table of two numbers. -/
def table? (c : IndexedCatalog) (ref : TableRef) : Option Nat :=
  (c.root.numbered? ref.database).bind fun place =>
    (c.database place).roster.numbered? ref.table

/-- The table of a name in the database of a name. -/
def tableNamed? (c : IndexedCatalog) (database table : String) : Option Nat :=
  (c.root.named? database).bind fun place => (c.database place).roster.named? table

/-- Give a table another schema. -/
def updateSchema (c : IndexedCatalog) (place : Nat) (schema : Schema) : IndexedCatalog :=
  c.modifyTable place fun t => ⟨t.ref, t.name, schema, t.chunks⟩

/-- Add a chunk to a table. -/
def addChunk (c : IndexedCatalog) (place : Nat) (chunk : ChunkInfo) : IndexedCatalog :=
  c.modifyTable place fun t => ⟨t.ref, t.name, t.schema, t.chunks ++ [chunk]⟩

/-- A database as it stands. -/
def viewDatabase (c : IndexedCatalog) (place : Nat) : Database :=
  let d := c.database place
  ⟨d.id, d.name, d.roster.places.map fun _ t => c.table t, d.roster.next⟩

/-- The catalog as it stands. -/
def view (c : IndexedCatalog) : Catalog :=
  ⟨c.root.places.map fun _ place => c.viewDatabase place, c.root.next⟩

end IndexedCatalog

end NestedColumns

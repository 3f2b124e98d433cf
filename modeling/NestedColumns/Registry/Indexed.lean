import NestedColumns.Catalog.Indexed
import NestedColumns.Registry

/-!
# The registry with its indexes

How the registry is kept while a store is open. Beside the catalog there is a map of the
tables that can be worked with, by the numbers of a table, and each of them refers to an
entry of the catalog. Whether a table is there is decided by this map.

## Main definitions

* `IndexedRegistry`: The catalog with its indexes, the map of the tables, and the number of
  the next chunk.
* `IndexedRegistry.apply`, `IndexedRegistry.applyAll`: The registry after operations.
* `IndexedRegistry.replay`: The registry of a log.
* `IndexedRegistry.tableNamed`: Finding a table by names.
* `IndexedRegistry.view`: The registry that it stands for.
-/

namespace NestedColumns

/-- The catalog with its indexes, the map of the tables, and the number of the next chunk. -/
structure IndexedRegistry where
  catalog : IndexedCatalog
  /-- The places of the tables by their numbers. -/
  stored : KeyMap TableRef Nat
  nextChunk : Nat
  deriving Inhabited

namespace IndexedRegistry

/-- The registry without operations. -/
def empty : IndexedRegistry := ⟨.empty, .empty, 0⟩

/-- The registry with another catalog. -/
def setCatalog (r : IndexedRegistry) (c : IndexedCatalog) : IndexedRegistry :=
  ⟨c, r.stored, r.nextChunk⟩

/-- The table of two numbers, if it can be worked with. -/
def tableOf (r : IndexedRegistry) (ref : TableRef) : Except CatalogError Nat :=
  match r.stored.find? ref with
  | none => .error (.notFound .table ref.display)
  | some place => .ok place

/-- The map without the tables at some places. -/
def withoutTables (c : IndexedCatalog) (stored : KeyMap TableRef Nat) (places : List Nat) :
    KeyMap TableRef Nat :=
  places.foldl (fun stored place => stored.erase (c.table place).ref) stored

/-- The registry after a database is made. -/
def createDatabase (r : IndexedRegistry) (id : Nat) (name : String) :
    IndexedRegistry × Except CatalogError Unit :=
  let (c, result) := r.catalog.addDatabase id name
  (r.setCatalog c, result.map fun _ => ())

/-- The registry after a database is dropped, with the tables that it has. -/
def dropDatabase (r : IndexedRegistry) (id : Nat) : IndexedRegistry × Except CatalogError Unit :=
  match r.catalog.dropDatabase id with
  | (c, .error e) => (r.setCatalog c, .error e)
  | (c, .ok place) =>
    (⟨c, withoutTables c r.stored (c.database place).roster.all, r.nextChunk⟩, .ok ())

/-- The registry after a table is made. -/
def createTable (r : IndexedRegistry) (ref : TableRef) (name : String) :
    IndexedRegistry × Except CatalogError Unit :=
  match r.catalog.root.numbered? ref.database with
  | none => (r, .error (.notFound .database (toString ref.database)))
  | some place =>
    match r.catalog.addTable place ref.table name with
    | (c, .error e) => (r.setCatalog c, .error e)
    | (c, .ok table) => (⟨c, r.stored.insert ref table, r.nextChunk⟩, .ok ())

/-- The registry after a table is dropped. -/
def dropTable (r : IndexedRegistry) (ref : TableRef) :
    IndexedRegistry × Except CatalogError Unit :=
  match r.catalog.root.numbered? ref.database with
  | none => (r, .error (.notFound .database (toString ref.database)))
  | some place =>
    match r.catalog.dropTable place ref.table with
    | (c, .error e) => (r.setCatalog c, .error e)
    | (c, .ok _) => (⟨c, r.stored.erase ref, r.nextChunk⟩, .ok ())

/-- The registry after a table that can be worked with is changed. -/
def onTable (r : IndexedRegistry) (ref : TableRef)
    (f : IndexedCatalog → Nat → IndexedCatalog) (nextChunk : Nat) :
    IndexedRegistry × Except CatalogError Unit :=
  match r.tableOf ref with
  | .error e => (r, .error e)
  | .ok place => (⟨f r.catalog place, r.stored, nextChunk⟩, .ok ())

/-- The registry after an operation. -/
def apply (r : IndexedRegistry) : Operation → IndexedRegistry × Except CatalogError Unit
  | .createDatabase id name => r.createDatabase id name
  | .dropDatabase id => r.dropDatabase id
  | .createTable ref name => r.createTable ref name
  | .dropTable ref => r.dropTable ref
  | .updateSchema ref schema => r.onTable ref (·.updateSchema · schema) r.nextChunk
  | .addChunk ref chunk =>
    r.onTable ref (·.addChunk · chunk) (max r.nextChunk (chunk.chunk + 1))

/-- The registry after operations, up to the first that does not fit. -/
def applyAll (r : IndexedRegistry) :
    List Operation → IndexedRegistry × Except CatalogError Unit
  | [] => (r, .ok ())
  | op :: rest =>
    match r.apply op with
    | (r, .error e) => (r, .error e)
    | (r, .ok _) => applyAll r rest

/-- An operation changes a table that is not there. -/
def isStale (r : IndexedRegistry) : Operation → Bool
  | .updateSchema ref _ => !(r.tableOf ref).isOk
  | .addChunk ref _ => !(r.tableOf ref).isOk
  | _ => false

/-- The registry after operations of a log, up to the first that does not fit. -/
def replay (r : IndexedRegistry) : List Operation → IndexedRegistry × Except CatalogError Unit
  | [] => (r, .ok ())
  | op :: rest =>
    if r.isStale op then replay r rest
    else
      match r.apply op with
      | (r, .error e) => (r, .error e)
      | (r, .ok _) => replay r rest

/-- The table of a name in the database of a name. -/
def tableNamed (r : IndexedRegistry) (database table : String) : Except CatalogError Nat :=
  match r.catalog.root.named? database with
  | none => .error (.notFound .database database)
  | some d =>
    match (r.catalog.database d).roster.named? table with
    | none => .error (.notFound .table table)
    | some t => r.tableOf (r.catalog.table t).ref

/-- The registry as it stands. -/
def view (r : IndexedRegistry) : Registry :=
  ⟨r.catalog.view, r.nextChunk⟩

end IndexedRegistry

end NestedColumns

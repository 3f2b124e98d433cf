import NestedColumns.Catalog
import NestedColumns.Schema.Text

/-!
# Log entries

Every change of the catalog is an operation, and the operations of one change
stand in the log between an entry that opens a transaction and one that closes
it. Entries are written as JSON without anything between them: a bare word for
the two marks, an object with one member for an operation.

## Main definitions

* `Operation`: A change of the catalog.
* `LogEntry`: An operation, or a mark.
* `LogEntry.toJson`, `LogEntry.print`: Writing an entry.
* `LogEntry.reader`: Reading one.
* `LogEntry.transaction`: The text of a transaction.
-/

namespace NestedColumns

/-- A change of the catalog. -/
inductive Operation where
  | createDatabase (id : Nat) (name : String)
  | dropDatabase (id : Nat)
  | createTable (ref : TableRef) (name : String)
  | dropTable (ref : TableRef)
  | updateSchema (ref : TableRef) (schema : Schema)
  | addChunk (ref : TableRef) (chunk : ChunkInfo)
  deriving Inhabited

/-- An entry of the log. -/
inductive LogEntry where
  | opening
  | closing
  | operation (op : Operation)
  deriving Inhabited

/-- The numbers of a table as JSON. -/
def TableRef.toJson (r : TableRef) : Json :=
  .object [("database_id", .ofNat r.database), ("table_id", .ofNat r.table)]

/-- The reader of the numbers of a table. -/
def TableRef.reader : Json.Reader TableRef :=
  (Json.Reader.two "database_id" (Json.Reader.natBelow idBound)
    "table_id" (Json.Reader.natBelow idBound)).map fun (database, table) => ⟨database, table⟩

/-- A chunk as JSON. -/
def ChunkInfo.toJson (c : ChunkInfo) : Json :=
  .object [("chunk_id", .ofNat c.chunk), ("record_count", .ofNat c.recordCount),
    ("columns", .array (c.columns.map .ofNat))]

/-- The reader of a chunk. -/
def ChunkInfo.reader : Json.Reader ChunkInfo :=
  (Json.Reader.three "chunk_id" (Json.Reader.natBelow idBound)
    "record_count" (Json.Reader.natBelow idBound)
    "columns" (Json.Reader.list (Json.Reader.natBelow idBound))).map
    fun (chunk, records, columns) => ⟨chunk, records, columns⟩

namespace Operation

/-- An operation as JSON. -/
def toJson : Operation → Json
  | .createDatabase id name =>
    .object [("CreateDatabase", .object [("database_id", .ofNat id), ("name", .string name)])]
  | .dropDatabase id => .object [("DropDatabase", .object [("database_id", .ofNat id)])]
  | .createTable ref name =>
    .object [("CreateTable", .object [("table_id", ref.toJson), ("name", .string name)])]
  | .dropTable ref => .object [("DropTable", .object [("table_id", ref.toJson)])]
  | .updateSchema ref schema =>
    .object [("UpdateSchema", .object [("table_id", ref.toJson), ("schema", schema.toJson)])]
  | .addChunk ref chunk =>
    .object [("AddChunk", .object [("table_id", ref.toJson), ("chunk", chunk.toJson)])]

/-- The operations by the word that tells them apart. -/
def variants : List (String × Json.Reader.Variant Operation) :=
  [("CreateDatabase", .holding ((Json.Reader.two
      "database_id" (Json.Reader.natBelow idBound) "name" Json.Reader.string).map
      fun (id, name) => .createDatabase id name)),
    ("DropDatabase", .holding ((Json.Reader.one
      "database_id" (Json.Reader.natBelow idBound)).map .dropDatabase)),
    ("CreateTable", .holding ((Json.Reader.two
      "table_id" TableRef.reader "name" Json.Reader.string).map
      fun (ref, name) => .createTable ref name)),
    ("DropTable", .holding ((Json.Reader.one "table_id" TableRef.reader).map .dropTable)),
    ("UpdateSchema", .holding ((Json.Reader.two
      "table_id" TableRef.reader "schema" Schema.reader).map
      fun (ref, schema) => .updateSchema ref schema)),
    ("AddChunk", .holding ((Json.Reader.two
      "table_id" TableRef.reader "chunk" ChunkInfo.reader).map
      fun (ref, chunk) => .addChunk ref chunk))]

end Operation

namespace LogEntry

/-- An entry as JSON. -/
def toJson : LogEntry → Json
  | .opening => .string "Begin"
  | .closing => .string "End"
  | .operation op => op.toJson

/-- The text of an entry. -/
def print (e : LogEntry) : List Char :=
  e.toJson.print

/-- The reader of an alternative with its operation as an entry. -/
def ofVariant : String × Json.Reader.Variant Operation →
    String × Json.Reader.Variant LogEntry
  | (tag, .bare op) => (tag, .bare (.operation op))
  | (tag, .holding reader) => (tag, .holding (reader.map .operation))

/-- The reader of an entry. -/
def reader : Json.Reader LogEntry :=
  Json.Reader.tagged (Operation.variants.map ofVariant ++
    [("Begin", .bare .opening), ("End", .bare .closing)])

/-- The text of a transaction: its entries between the two marks. -/
def transaction (entries : List LogEntry) : List Char :=
  print .opening ++ entries.flatMap print ++ print .closing

end LogEntry

end NestedColumns

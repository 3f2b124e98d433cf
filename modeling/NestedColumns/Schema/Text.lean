import NestedColumns.Schema.Basic
import NestedColumns.Json.Printer
import NestedColumns.Json.Reader

/-!
# Schemas as text

A schema is kept in the log as JSON: its fields and the number of its next
column. A shape is an object with one member, which says by its name whether it
is a leaf, an object or an array.

## Main definitions

* `Schema.toJson`, `Schema.text`: Writing.
* `Schema.reader`, `Schema.read?`: Reading.
-/

namespace NestedColumns

/-- Numbers of columns, chunks, tables and databases are below this bound in
    texts and files. -/
def idBound : Nat := 2 ^ 32

/-- A whole number as JSON. -/
def Json.ofNat (n : Nat) : Json :=
  .number (.whole n)

namespace DataType

/-- The reader of a type's name. -/
def reader : Json.Reader DataType :=
  Json.Reader.tagged (all.map fun type => (type.name, .bare type))

end DataType

namespace Schema

namespace Node

mutual

/-- A shape as JSON. -/
def toJson : Node → Json
  | .leaf column type =>
    .object [("leaf", .object [("column_id", .ofNat column), ("data_type", .string type.name)])]
  | .object fields => .object [("object", .array (fieldsToJson fields))]
  | .array element => .object [("array", toJson element)]

/-- The fields of an object as JSON. -/
def fieldsToJson : List (String × Node) → List Json
  | [] => []
  | (name, node) :: rest =>
    .object [("name", .string name), ("node", toJson node)] :: fieldsToJson rest

end

/-- The reader of a shape that nests at most `depth` shapes. -/
def readerTo : Nat → Json.Reader Node
  | 0 => fun _ _ => .error .malformed
  | depth + 1 =>
    Json.Reader.tagged [
      ("leaf", .holding ((Json.Reader.two "column_id" (Json.Reader.natBelow idBound)
        "data_type" DataType.reader).map fun (column, type) => .leaf column type)),
      ("object", .holding ((Json.Reader.list
        (Json.Reader.two "name" Json.Reader.string "node" (readerTo depth))).map .object)),
      ("array", .holding ((readerTo depth).map .array))]

/-- The reader of a shape. Every shape opens a bracket of its own, so the brackets
    a text may open bound the nesting. -/
def reader : Json.Reader Node :=
  readerTo (Json.maxNesting + 1)

end Node

/-- A schema as JSON. -/
def toJson (schema : Schema) : Json :=
  .object [("fields", .array (Node.fieldsToJson schema.fields)),
    ("next_column_id", .ofNat schema.nextColumn)]

/-- The text of a schema. -/
def text (schema : Schema) : String :=
  schema.toJson.text

/-- The reader of a schema. -/
def reader : Json.Reader Schema :=
  (Json.Reader.two
    "fields" (Json.Reader.list (Json.Reader.two "name" Json.Reader.string "node" Node.reader))
    "next_column_id" (Json.Reader.natBelow idBound)).map fun (fields, next) => ⟨fields, next⟩

/-- The schema that a text holds. -/
def read? (text : String) : Option Schema :=
  (Json.Reader.whole reader text.toList).toOption

end Schema

end NestedColumns

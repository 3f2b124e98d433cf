import NestedColumns.Json.Basic
import NestedColumns.Double.Text
import NestedColumns.Text.Quoted

/-!
# Leaf values

What a column holds: the scalars of JSON, each with one of four types. `null`
is no value, and neither is anything with parts; those live in the shape of a
record, not in a column.

## Main definitions

* `DataType`: The type of a column.
* `DataType.accepts`, `DataType.widen`: Which values a column takes, and the
  common type of a whole-number column and a float.
* `DataValue`: A value.
* `DataValue.ofJson?`, `DataValue.toJson`: To and from documents.
-/

namespace NestedColumns

/-- The type of a column. -/
inductive DataType where
  | boolean
  | integer
  | float
  | string
  deriving DecidableEq, Repr, Inhabited

namespace DataType

/-- The name of a type in schemas and messages. -/
def name : DataType → String
  | .boolean => "boolean"
  | .integer => "integer"
  | .float => "float"
  | .string => "string"

/-- All types. -/
def all : List DataType :=
  [.boolean, .integer, .float, .string]

/-- A column of the first type can hold values of the second unchanged: those of
    its own type, and whole numbers among floats. -/
def accepts : DataType → DataType → Bool
  | .float, .integer => true
  | a, b => a == b

/-- The type that takes in both, for a whole number and a float. -/
def widen : DataType → DataType → Option DataType
  | .integer, .float => some .float
  | .float, .integer => some .float
  | _, _ => none

end DataType

/-- A value of a column. -/
inductive DataValue where
  | bool (b : Bool)
  | int (n : Int64)
  | float (d : Double)
  | string (s : String)
  deriving DecidableEq, Repr, Inhabited

namespace DataValue

/-- The type of a value. -/
def type : DataValue → DataType
  | .bool _ => .boolean
  | .int _ => .integer
  | .float _ => .float
  | .string _ => .string

/-- The value of a scalar. A whole number beyond the signed 64-bit range is kept
    as the nearest double. -/
def ofJson? : Json → Option DataValue
  | .bool b => some (.bool b)
  | .number n =>
    match n.asInt64? with
    | some i => some (.int i)
    | none => some (.float n.toDouble)
  | .string s => some (.string s)
  | .null | .array _ | .object _ => none

/-- The JSON form of a value. Infinities and NaNs have none and become `null`. -/
def toJson : DataValue → Json
  | .bool b => .bool b
  | .int n => .number (.whole n.toInt)
  | .float d => if d.isFinite then .number (.double d) else .null
  | .string s => .string s

/-- How much room a value takes in memory, roughly. -/
def estimatedSize : DataValue → Nat
  | .bool _ => 1
  | .int _ => 8
  | .float _ => 8
  | .string s => 4 + s.utf8ByteSize

/-- A value in a message. -/
def display : DataValue → String
  | .bool b => if b then "true" else "false"
  | .int n => toString n.toInt
  | .float d => d.plainText
  | .string s => Quoted.text s

end DataValue

end NestedColumns

import NestedColumns.Double.Basic

/-!
# JSON values

The documents a table takes in and the records it gives back. Objects keep the
order in which their members were written, because the order of a table's
fields comes from it.

Whole numbers and other numbers are told apart as they are in the text: a
spelling without fraction and exponent is whole while it fits in 64 bits, with
or without a sign, and everything else is a double.

## Main definitions

* `Json.Number`, `Json`: The values.
* `Json.Number.asInt64?`: A whole number in the signed 64-bit range.
* `Json.kind`: What a value is called in messages.
* `Json.setMember`: A repeated name keeps its first place and its last value.
* `Json.same`: Equality that does not look at the order of members.
-/

namespace NestedColumns

/-- A number of a JSON text. -/
inductive Json.Number where
  | whole (n : Int)
  | double (d : Double)
  deriving DecidableEq, Repr, Inhabited

/-- A JSON value. -/
inductive Json where
  | null
  | bool (b : Bool)
  | number (n : Json.Number)
  | string (s : String)
  | array (items : List Json)
  | object (members : List (String × Json))
  deriving Repr, Inhabited

namespace Json

namespace Number

/-- The whole numbers with a signed 64-bit form. -/
def asInt64? : Number → Option Int64
  | .whole n => if -(2 ^ 63) ≤ n ∧ n < 2 ^ 63 then some (Int64.ofInt n) else none
  | .double _ => none

/-- The double nearest to the number. -/
def toDouble : Number → Double
  | .whole n => Double.ofInt n
  | .double d => d

/-- Equality of numbers: a whole number and a double differ. -/
def same : Number → Number → Bool
  | .whole a, .whole b => a == b
  | .double a, .double b => a.sameNumber b
  | _, _ => false

end Number

/-- What a value is called in messages. A whole number beyond the signed
    64-bit range is called a float, because it is stored as one. -/
def kind : Json → String
  | .null => "null"
  | .bool _ => "boolean"
  | .number n => if n.asInt64?.isSome then "integer" else "float"
  | .string _ => "string"
  | .array _ => "array"
  | .object _ => "object"

/-- The value is `null`. -/
def isNull : Json → Bool
  | .null => true
  | _ => false

/-- The members of an object by name. -/
def member? (members : List (String × Json)) (name : String) : Option Json :=
  (members.find? (·.1 == name)).map (·.2)

/-- Give a member a value: in its place if the name is there, else at the end. -/
def setMember (name : String) (value : Json) : List (String × Json) → List (String × Json)
  | [] => [(name, value)]
  | (n, v) :: rest =>
    if n = name then (n, value) :: rest else (n, v) :: setMember name value rest

mutual

/-- Equality of values as JSON: members are compared by name. -/
def same : Json → Json → Bool
  | .null, .null => true
  | .bool a, .bool b => a == b
  | .number a, .number b => a.same b
  | .string a, .string b => a == b
  | .array a, .array b => sameItems a b
  | .object a, .object b => a.length == b.length && sameMembers a b
  | _, _ => false

/-- Item by item. -/
def sameItems : List Json → List Json → Bool
  | [], [] => true
  | a :: as, b :: bs => same a b && sameItems as bs
  | _, _ => false

/-- Every member on the left is on the right with the same value. -/
def sameMembers : List (String × Json) → List (String × Json) → Bool
  | [], _ => true
  | (name, a) :: rest, other =>
    (match member? other name with
      | some b => same a b
      | none => false) && sameMembers rest other

end

end Json

end NestedColumns

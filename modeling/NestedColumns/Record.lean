import NestedColumns.Schema.Basic
import NestedColumns.Json.Printer

/-!
# Records

A document put together again. While it is assembled, a record is a tree of
slots that knows no names: the members of an object stand at the places of
their fields in the schema, and a slot may still be absent. With the schema it
becomes a JSON value, or is printed directly; absent members are left out.

## Main definitions

* `DataValue.print`: The text of a value.
* `Slot`: A part of a record under assembly.
* `Slot.modifyAt`: Change the slot at the end of some steps, with what is on the way.
* `Record`, `Record.toJson`, `Record.print`: A record with its schema, as a value
  and as text.
-/

namespace NestedColumns

/-- The text of a value of a column, which does not become a JSON value first.
    Infinities and NaNs have none and are printed as `null`. -/
def DataValue.print : DataValue → List Char
  | .bool b => if b then "true".toList else "false".toList
  | .int n => (toString n.toInt).toList
  | .float d => if d.isFinite then d.jsonText.toList else "null".toList
  | .string s => Json.quoted s

/-- A part of a record under assembly. -/
inductive Slot where
  | absent
  | value (v : DataValue)
  /-- Members by the place of their field in the schema. -/
  | object (members : List Slot)
  | array (elements : List Slot)
  deriving Repr, Inhabited

namespace Slot

/-- Nothing is here. -/
def isAbsent : Slot → Bool
  | .absent => true
  | _ => false

/-- The members of an object; none of anything else. -/
def members : Slot → List Slot
  | .object members => members
  | _ => []

/-- The elements of an array; none of anything else. -/
def elements : Slot → List Slot
  | .array elements => elements
  | _ => []

/-- The slot as an object, with the members it has. -/
def asObject (s : Slot) : Slot := .object s.members

/-- The slot as an array, with the elements it has. -/
def asArray (s : Slot) : Slot := .array s.elements

/-- Change the slot at a place of a list, which is filled up to it with absent
    slots. -/
def modifyPlace (f : Slot → Slot) : Nat → List Slot → List Slot
  | 0, [] => [f .absent]
  | 0, s :: rest => f s :: rest
  | place + 1, [] => .absent :: modifyPlace f place []
  | place + 1, s :: rest => s :: modifyPlace f place rest

end Slot

/-- A record: its slots and the fields that name them. -/
structure Record where
  fields : List (String × Schema.Node)
  root : Slot
  deriving Inhabited

namespace Record

mutual

/-- A slot of a shape as JSON. What does not fit the shape is `null`. -/
def slotToJson (node : Schema.Node) (slot : Slot) : Json :=
  match slot, node with
  | .value v, _ => v.toJson
  | .object members, .object fields => .object (membersToJson fields members [])
  | .array elements, .array element => .array (elementsToJson element elements)
  | _, _ => .null

/-- The members that are there, by name, after those in `named`. -/
def membersToJson (fields : List (String × Schema.Node)) (members : List Slot)
    (named : List (String × Json)) : List (String × Json) :=
  match members, fields with
  | slot :: members, (name, node) :: fields =>
    membersToJson fields members
      (if slot.isAbsent then named else Json.setMember name (slotToJson node slot) named)
  | _, _ => named

/-- The elements of an array in order. -/
def elementsToJson (node : Schema.Node) (elements : List Slot) : List Json :=
  match elements with
  | [] => []
  | slot :: rest => slotToJson node slot :: elementsToJson node rest

end

/-- A record as a JSON value. -/
def toJson (r : Record) : Json :=
  .object (membersToJson r.fields r.root.members [])

mutual

/-- The text of a slot of a shape. -/
def printSlot (node : Schema.Node) (slot : Slot) : List Char :=
  match slot, node with
  | .value v, _ => v.print
  | .object members, .object fields =>
    '\x7b' :: (Json.commaSeparated (printMembers fields members) ++ ['\x7d'])
  | .array elements, .array element =>
    '[' :: (Json.commaSeparated (printElements element elements) ++ [']'])
  | _, _ => "null".toList

/-- The texts of the members that are there. -/
def printMembers (fields : List (String × Schema.Node)) (members : List Slot) :
    List (List Char) :=
  match members, fields with
  | slot :: members, (name, node) :: fields =>
    (if slot.isAbsent then [] else [Json.quoted name ++ ':' :: printSlot node slot]) ++
      printMembers fields members
  | _, _ => []

/-- The texts of the elements of an array. -/
def printElements (node : Schema.Node) (elements : List Slot) : List (List Char) :=
  match elements with
  | [] => []
  | slot :: rest => printSlot node slot :: printElements node rest

end

/-- The text of a record, written as it is walked. -/
def print (r : Record) : List Char :=
  '\x7b' :: (Json.commaSeparated (printMembers r.fields r.root.members) ++ ['\x7d'])

/-- The text of a record as a `String`. -/
def text (r : Record) : String :=
  String.ofList r.print

/-- Records are the same when their JSON values are. -/
def same (a b : Record) : Bool :=
  Json.same a.toJson b.toJson

end Record

end NestedColumns

import NestedColumns.Value

/-!
# Schemas

The shape of the documents of a table: a tree of named fields whose leaves are
columns. An array has one element shape for all of its elements. Every leaf
has a column number, which names its data on disk for good; the schema also
keeps the next number to give out.

A path of names goes through arrays without mentioning them, so a column has a
dotted path, and two levels that say what is on it: how many arrays, and how
many fields and arrays. They have no width here; `Schema.leaves?` is the listing
of the columns that counts them in eight bits.

## Main definitions

* `Schema.Node`, `Schema`: The tree and the number of the next column.
* `Schema.LeafColumn`, `Schema.leaves`: The columns in the order of the tree.
* `Schema.ofFields`: A schema of fields whose columns are numbered already.
* `Schema.Node.kindName`, `Schema.outline`: The schema in messages and listings.
-/

namespace NestedColumns

/-- The shape of a value. -/
inductive Schema.Node where
  /-- A scalar, kept in a column. -/
  | leaf (column : Nat) (type : DataType)
  /-- An object, with its fields in order. -/
  | object (fields : List (String × Schema.Node))
  /-- An array of elements of one shape. -/
  | array (element : Schema.Node)
  deriving Repr, Inhabited

/-- The shape of the documents of a table. -/
structure Schema where
  /-- The fields of a document, in order. -/
  fields : List (String × Schema.Node)
  /-- The number the next new leaf is given. -/
  nextColumn : Nat
  deriving Repr, Inhabited

namespace Schema

/-- The schema of a table without documents. -/
def empty : Schema := ⟨[], 0⟩

/-- A named shape. -/
abbrev Field := String × Node

namespace Node

mutual

/-- Equality of shapes, order of fields included. -/
def beq : Node → Node → Bool
  | .leaf c t, .leaf c' t' => c == c' && t == t'
  | .object fs, .object fs' => beqFields fs fs'
  | .array e, .array e' => beq e e'
  | _, _ => false

/-- Equality of fields, one after another. -/
def beqFields : List (String × Node) → List (String × Node) → Bool
  | [], [] => true
  | (n, a) :: fs, (n', a') :: fs' => n == n' && beq a a' && beqFields fs fs'
  | _, _ => false

end

instance : BEq Node := ⟨beq⟩

/-- The fields of the object reached through any number of arrays. -/
def objectFields? : Node → Option (List (String × Node))
  | .leaf _ _ => none
  | .object fields => some fields
  | .array element => element.objectFields?

/-- The column of the leaf reached through any number of arrays. -/
def leafColumn? : Node → Option Nat
  | .leaf column _ => some column
  | .object _ => none
  | .array element => element.leafColumn?

/-- What a shape is called in messages. -/
def kindName : Node → String
  | .leaf _ type => type.name
  | .object _ => "object"
  | .array element => "array<" ++ element.kindName ++ ">"

end Node

instance : BEq Schema := ⟨fun a b => Node.beqFields a.fields b.fields && a.nextColumn == b.nextColumn⟩

/-- A leaf of a schema: its column, where it is, and how many steps lead to it. -/
structure LeafColumn where
  column : Nat
  /-- The names on the way, with dots between them. -/
  path : String
  type : DataType
  /-- How many arrays are on the way. -/
  maxRep : Nat
  /-- How many fields and arrays are on the way. -/
  maxDef : Nat
  deriving DecidableEq, Repr, Inhabited

mutual

/-- The leaves at and below a shape that is reached on `path` through `rep`
    arrays and `depth` fields and arrays. -/
def leavesBelow (node : Node) (path : String) (rep depth : Nat) : List LeafColumn :=
  match node with
  | .leaf column type => [⟨column, path, type, rep, depth⟩]
  | .object fields => leavesOfFields fields path rep depth
  | .array element => leavesBelow element path (rep + 1) (depth + 1)

/-- The leaves of the fields of an object, in order. -/
def leavesOfFields (fields : List (String × Node)) (path : String) (rep depth : Nat) :
    List LeafColumn :=
  match fields with
  | [] => []
  | (name, node) :: rest =>
    leavesBelow node (path ++ "." ++ name) rep (depth + 1) ++ leavesOfFields rest path rep depth

end

/-- The leaves of a schema, depth first. -/
def leaves (schema : Schema) : List LeafColumn :=
  schema.fields.flatMap fun (name, node) => leavesBelow node name 0 1

/-- A schema of fields whose columns were numbered elsewhere. The next number is
    the one after the highest. -/
def ofFields (fields : List (String × Node)) : Schema :=
  ⟨fields, ((leaves ⟨fields, 0⟩).map (·.column + 1)).foldl max 0⟩

/-- The field of a name. Names are unique in schemas grown from documents; else
    the first counts. -/
def field? (fields : List (String × Node)) (name : String) : Option Node :=
  fields.lookup name

/-- A schema without fields. -/
def isEmpty (schema : Schema) : Bool :=
  schema.fields.isEmpty

/-- The line of a field: its kind, and its column if only arrays are in between. -/
def outlineLine (name : String) (node : Node) (indent : Nat) : String :=
  "".pushn ' ' indent ++ name ++ ": " ++ node.kindName ++
    (match node.leafColumn? with
      | some column => " #" ++ toString column ++ "\n"
      | none => "\n")

mutual

/-- The lines of the fields of the object at a shape, through arrays. -/
def outlineBelow (node : Node) (indent : Nat) : String :=
  match node with
  | .leaf _ _ => ""
  | .object fields => outlineFields fields indent
  | .array element => outlineBelow element indent

/-- The lines of fields in order, each followed by those of the fields below it. -/
def outlineFields (fields : List (String × Node)) (indent : Nat) : String :=
  match fields with
  | [] => ""
  | (name, node) :: rest =>
    outlineLine name node indent ++ outlineBelow node (indent + 2) ++ outlineFields rest indent

end

/-- The schema as an indented list of fields. -/
def outline (schema : Schema) : String :=
  if schema.isEmpty then "(empty)\n" else outlineFields schema.fields 0

end Schema

end NestedColumns

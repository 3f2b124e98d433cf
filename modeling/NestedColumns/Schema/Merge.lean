import NestedColumns.Schema.Basic

/-!
# Growing a schema

A schema grows by the documents that are added to its table. Members that it
does not know become new fields at the end; a column of whole numbers that
meets a float becomes a column of floats, if the policy allows it; everything
else has to fit.

A value may say nothing about its type: `null` and arrays without data do. So
an array is looked at twice. The first item that says something gives the
element its shape, the items after it are merged into that shape, and then the
items before it are, since an empty array in front of an object is as much a
conflict as one behind it.

## Main definitions

* `ConflictPolicy`, `MergeOptions`: How documents may change a schema.
* `SchemaError`: Why a document does not fit, with its message.
* `Schema.mergeNode`, `Schema.inferNode`: A value against a shape, and the shape
  of a value.
* `Schema.merge`: A document against a schema.
-/

namespace NestedColumns

/-- What happens when a float meets a column of whole numbers. -/
inductive ConflictPolicy where
  /-- The column becomes one of floats. -/
  | widen
  /-- The document is refused. -/
  | strict
  deriving DecidableEq, Repr, Inhabited

/-- How documents may change a schema. -/
structure MergeOptions where
  policy : ConflictPolicy
  /-- How many steps of fields and arrays a document may be deep. -/
  maxLevel : Nat
  deriving DecidableEq, Repr, Inhabited

/-- Why a document does not fit a schema. -/
inductive SchemaError where
  | conflict (path expected found : String)
  | notAnObject (found : String)
  | tooDeep (path : String) (max : Nat)
  deriving DecidableEq, Repr, Inhabited

/-- The message of a schema error. -/
def SchemaError.message : SchemaError → String
  | .conflict path expected found =>
    "schema conflict at `" ++ path ++ "`: expected " ++ expected ++ ", found " ++ found
  | .notAnObject found => "document must be a JSON object, found " ++ found
  | .tooDeep path max =>
    "document nests deeper than " ++ toString max ++ " levels at `" ++ path ++ "`"

namespace Schema

/-- The dotted form of the names that lead to a value. -/
def dotted (path : List String) : String :=
  ".".intercalate path

/-- What a merge carries along: the number of the next new column, and whether
    anything was added or widened. -/
structure Growth where
  nextColumn : Nat
  changed : Bool
  deriving DecidableEq, Repr

/-- A leaf against a scalar. -/
def mergeLeaf (policy : ConflictPolicy) (path : List String) (column : Nat) (type : DataType)
    (value : Json) (growth : Growth) : Except SchemaError (Node × Growth) :=
  match DataValue.ofJson? value with
  | none =>
    if value.isNull then .ok (.leaf column type, growth)
    else .error (.conflict (dotted path) type.name value.kind)
  | some found =>
    if type.accepts found.type then .ok (.leaf column type, growth)
    else
      match type.widen found.type, policy with
      | some wider, .widen => .ok (.leaf column wider, ⟨growth.nextColumn, true⟩)
      | _, _ => .error (.conflict (dotted path) type.name found.type.name)

/-- Give the field of a name another shape. -/
def setField (name : String) (node : Node) : List (String × Node) → List (String × Node)
  | [] => []
  | (n, old) :: rest =>
    if n = name then (n, node) :: rest else (n, old) :: setField name node rest

mutual

/-- A value against the shape at its path, `depth` steps from the document. -/
def mergeNode (options : MergeOptions) (path : List String) (depth : Nat) (node : Node) :
    Json → Growth → Except SchemaError (Node × Growth)
  | value, growth =>
    if options.maxLevel < depth then .error (.tooDeep (dotted path) options.maxLevel)
    else
      match node, value with
      | .object fields, .object members => do
        let (fields, growth) ← mergeMembers options path depth fields members growth
        return (.object fields, growth)
      | .array element, .array items => do
        let (element, growth) ← mergeItems options path (depth + 1) element items growth
        return (.array element, growth)
      | .leaf column type, value => mergeLeaf options.policy path column type value growth
      | node, value => .error (.conflict (dotted path) node.kindName value.kind)

/-- The items of an array against the shape of its elements. -/
def mergeItems (options : MergeOptions) (path : List String) (depth : Nat) (element : Node) :
    List Json → Growth → Except SchemaError (Node × Growth)
  | [], growth => .ok (element, growth)
  | item :: rest, growth =>
    if item.isNull then mergeItems options path depth element rest growth
    else do
      let (element, growth) ← mergeNode options path depth element item growth
      mergeItems options path depth element rest growth

/-- The items among the first `count` of an array against the shape of its
    elements. -/
def mergeLeading (options : MergeOptions) (path : List String) (depth : Nat) (element : Node) :
    Nat → List Json → Growth → Except SchemaError (Node × Growth)
  | 0, _, growth => .ok (element, growth)
  | _ + 1, [], growth => .ok (element, growth)
  | count + 1, item :: rest, growth =>
    if item.isNull then mergeLeading options path depth element count rest growth
    else do
      let (element, growth) ← mergeNode options path depth element item growth
      mergeLeading options path depth element count rest growth

/-- The members of an object against its fields, in the order of the members. -/
def mergeMembers (options : MergeOptions) (path : List String) (depth : Nat)
    (fields : List (String × Node)) :
    List (String × Json) → Growth → Except SchemaError (List (String × Node) × Growth)
  | [], growth => .ok (fields, growth)
  | (name, value) :: rest, growth =>
    if value.isNull then mergeMembers options path depth fields rest growth
    else
      match field? fields name with
      | some node => do
        let (node, growth) ← mergeNode options (path ++ [name]) (depth + 1) node value growth
        mergeMembers options path depth (setField name node fields) rest growth
      | none => do
        let (node?, growth) ← inferNode options (path ++ [name]) (depth + 1) value growth
        match node? with
        | some node =>
          mergeMembers options path depth (fields ++ [(name, node)]) rest
            ⟨growth.nextColumn, true⟩
        | none => mergeMembers options path depth fields rest growth

/-- The shape of a value whose path has none yet; `none` if it says nothing. -/
def inferNode (options : MergeOptions) (path : List String) (depth : Nat) :
    Json → Growth → Except SchemaError (Option Node × Growth)
  | value, growth =>
    if options.maxLevel < depth then .error (.tooDeep (dotted path) options.maxLevel)
    else
      match value with
      | .null => .ok (none, growth)
      | .object members => do
        let (fields, growth) ← mergeMembers options path depth [] members growth
        return (some (.object fields), growth)
      | .array items => do
        let (found, growth) ← inferItems options path (depth + 1) 0 items growth
        match found with
        | none => return (none, growth)
        | some (element, leading) =>
          let (element, growth) ←
            mergeLeading options path (depth + 1) element leading items growth
          return (some (.array element), growth)
      | value =>
        match DataValue.ofJson? value with
        | none => .ok (none, growth)
        | some scalar =>
          .ok (some (.leaf growth.nextColumn scalar.type),
            ⟨growth.nextColumn + 1, growth.changed⟩)

/-- The shape of the elements of an array: the first item that says something
    gives it, and those after it are merged. The number is that of the items
    before, `seen` of which are behind already. -/
def inferItems (options : MergeOptions) (path : List String) (depth : Nat) (seen : Nat) :
    List Json → Growth → Except SchemaError (Option (Node × Nat) × Growth)
  | [], growth => .ok (none, growth)
  | item :: rest, growth =>
    if item.isNull then inferItems options path depth (seen + 1) rest growth
    else do
      let (node?, growth) ← inferNode options path depth item growth
      match node? with
      | none => inferItems options path depth (seen + 1) rest growth
      | some node =>
        let (node, growth) ← mergeItems options path depth node rest growth
        return (some (node, seen), growth)

end

/-- Merge a document into a schema. The answer is the grown schema, or `none` if
    the document fits as it is. -/
def merge (options : MergeOptions) (schema : Schema) (document : Json) :
    Except SchemaError (Option Schema) :=
  match document with
  | .object members => do
    let (fields, growth) ←
      mergeMembers options [] 0 schema.fields members ⟨schema.nextColumn, false⟩
    return (if growth.changed then some ⟨fields, growth.nextColumn⟩ else none)
  | value => .error (.notAnObject value.kind)

/-- The schema after a document, grown or not. -/
def mergeInto (options : MergeOptions) (schema : Schema) (document : Json) :
    Except SchemaError Schema :=
  (merge options schema document).map (·.getD schema)

end Schema

end NestedColumns

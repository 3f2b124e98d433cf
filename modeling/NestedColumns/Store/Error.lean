import NestedColumns.Assembly
import NestedColumns.Catalog
import NestedColumns.Disk
import NestedColumns.Halt
import NestedColumns.Log.Replay
import NestedColumns.Options.Basic
import NestedColumns.Page.Decode
import NestedColumns.PageIndex
import NestedColumns.Projection.Resolve

/-!
# Errors of a store

What can go wrong when a store is used, by its cause, with one message each. A
caller who wants to react rather than report looks at the kind instead.

## Main definitions

* `StoreError`: The causes.
* `StoreError.message`: Their messages.
* `EngineError`: An error of the store, or of the paths asked for.
* `ErrorKind`, `EngineError.kind`: What a caller can react to.
-/

namespace NestedColumns

/-- What can go wrong when a store is used. -/
inductive StoreError where
  | notFound (kind : EntryKind) (item : String)
  | duplicated (kind : EntryKind) (item : String)
  | invalidName (kind : EntryKind) (name : String)
  /-- Another session writes to the table. -/
  | sessionConflict (table : String)
  /-- A text that is to be a document is none. -/
  | notADocument (fault : Json.Fault)
  /-- An array of documents is followed by something else. -/
  | contentAfterArray
  | schema (e : SchemaError)
  | config (e : ConfigError)
  | file (e : FileError)
  | log (e : LogError)
  | page (e : PageError)
  | index (e : IndexError)
  | assembly (e : AssemblyError)
  /-- The index of a column covers another number of documents than its chunk. -/
  | coverage (column chunk found expected : Nat)
  /-- A column has fewer documents than its table. -/
  | columnEnded (path : String) (emitted total : Nat)
  deriving DecidableEq, Repr

namespace StoreError

/-- The error of an entry in the catalog. -/
def ofCatalog : CatalogError → StoreError
  | .notFound kind item => .notFound kind item
  | .duplicated kind item => .duplicated kind item

/-- The message of an error. -/
def message : StoreError → String
  | .notFound kind item => kind.name ++ "(" ++ item ++ ") not found"
  | .duplicated kind item => "duplicated " ++ kind.name ++ ": " ++ item
  | .invalidName kind name => "invalid " ++ kind.name ++ " name: " ++ Quoted.text name
  | .sessionConflict table => "table " ++ table ++ " has an open insert session"
  | .notADocument .incomplete => "malformed document: unexpected end"
  | .notADocument .malformed => "malformed document: invalid JSON"
  | .contentAfterArray =>
    "malformed document: unexpected content after the array of documents"
  | .schema e => e.message
  | .config e => "invalid config: " ++ e.message
  | .file e => "IO error: " ++ e.message
  | .log .notText => "IO error: " ++ FileError.notText.message
  | .log .badEntry => "JSON decode error: invalid entry"
  | .log .closingWithoutOpening => undecodable "manifest: found txn end without begin"
  | .page e => e.message
  | .index e => e.message
  | .assembly e => e.message
  | .coverage column chunk found expected =>
    undecodable ("column " ++ toString column ++ " of chunk " ++ toString chunk ++ " covers " ++
      toString found ++ " documents, expected " ++ toString expected)
  | .columnEnded path emitted total =>
    undecodable ("column " ++ path ++ " ended after " ++ toString emitted ++ " of " ++
      toString total ++ " documents")

end StoreError

/-- An error of a store, or of the paths that a reader asks for. -/
inductive EngineError where
  | store (e : StoreError)
  | plan (e : PlanError)
  deriving DecidableEq, Repr

/-- An error of the store as the engine returns it. -/
def Halt.ofStore (e : StoreError) : Halt EngineError :=
  .failed (.store e)

/-- What a caller can react to. -/
inductive ErrorKind where
  | alreadyExists
  | notFound
  | invalidName
  | schemaConflict
  | malformedDocument
  | sessionConflict
  | unknownColumn
  | ioFailure
  | invalidConfig
  deriving DecidableEq, Repr

/-- The kind of a schema error. -/
def SchemaError.kind : SchemaError → ErrorKind
  | .conflict .. => .schemaConflict
  | .notAnObject _ => .malformedDocument
  | .tooDeep .. => .malformedDocument

/-- The kind of a store error. -/
def StoreError.kind : StoreError → ErrorKind
  | .notFound .. => .notFound
  | .duplicated .. => .alreadyExists
  | .invalidName .. => .invalidName
  | .sessionConflict _ => .sessionConflict
  | .notADocument _ => .malformedDocument
  | .contentAfterArray => .malformedDocument
  | .schema e => e.kind
  | .config _ => .invalidConfig
  | _ => .ioFailure

namespace EngineError

/-- The kind of an error. -/
def kind : EngineError → ErrorKind
  | .store e => e.kind
  | .plan _ => .unknownColumn

/-- The message of an error. -/
def message : EngineError → String
  | .store e => "storage error: " ++ e.message
  | .plan e => "plan error: " ++ e.message

end EngineError

end NestedColumns

import NestedColumns.Column
import NestedColumns.Schema.Merge
import NestedColumns.Text.Utf8
import NestedColumns.Toml.Reader

/-!
# Options of a store

Where a store is and how it writes. Options come from a file, in which every
key may be left out, and are checked before a store is opened.

## Main definitions

* `StoreOptions`: The options.
* `StoreOptions.validate`: What they have to satisfy.
* `StoreOptions.read`: The options of a file.
* `ConfigError`: What is wrong with options.
-/

namespace NestedColumns

/-- How column files are read. -/
inductive ReadBackend where
  /-- At a given position. -/
  | positioned
  /-- After moving to a position. -/
  | sequential
  deriving DecidableEq, Repr, Inhabited

/-- Where a store is and how it writes. -/
structure StoreOptions where
  path : String
  /-- How many pages are kept in memory. -/
  cacheSize : Nat
  /-- The size at which the documents of a session are written to disk. -/
  targetChunkSize : Nat
  targetPageSize : Nat
  checksum : ChecksumType
  backend : ReadBackend
  policy : ConflictPolicy
  /-- How deep documents may be. -/
  maxLevel : Nat
  /-- Files are synchronised with the device. -/
  synced : Bool
  deriving DecidableEq, Repr, Inhabited

/-- What is wrong with options. -/
inductive ConfigError where
  | emptyPath
  | targetSize
  | maxLevel
  /-- The file cannot be read as text. -/
  | unreadable
  /-- The text is not one of settings. -/
  | syntaxError
  | unknownKey (key : String)
  /-- A key with a value that it cannot have. -/
  | badValue (key : String)
  deriving DecidableEq, Repr

/-- The message of a configuration error. -/
def ConfigError.message : ConfigError → String
  | .emptyPath => "path must not be empty"
  | .targetSize => "target sizes must be positive"
  | .maxLevel => "max_nested_level must be within 1..=255"
  | .unreadable => "cannot read the file"
  | .syntaxError => "invalid settings"
  | .unknownKey key => "unknown field " ++ key
  | .badValue key => "invalid value of " ++ key

namespace StoreOptions

/-- The options of a store that nobody configured. -/
def standard : StoreOptions :=
  ⟨"nestdb.db", 262144, 64 * 2 ^ 20, 16 * 2 ^ 10, .crc32, .positioned, .widen, 32, true⟩

/-- The options of a small store for trials. -/
def small (path : String) : StoreOptions :=
  ⟨path, 1024, 2 ^ 20, 4 * 2 ^ 10, .crc32, .sequential, .widen, 32, false⟩

/-- The options can be used: there is a path, targets are positive, and levels
    fit in a byte. -/
def validate (o : StoreOptions) : Except ConfigError Unit :=
  if o.path.isEmpty then .error .emptyPath
  else if o.targetPageSize = 0 ∨ o.targetChunkSize = 0 then .error .targetSize
  else if o.maxLevel = 0 ∨ 255 < o.maxLevel then .error .maxLevel
  else .ok ()

/-- How the documents of a store may change schemas. -/
def mergeOptions (o : StoreOptions) : MergeOptions :=
  ⟨o.policy, o.maxLevel⟩

/-- How the column files of a store are written. -/
def columnOptions (o : StoreOptions) : ColumnOptions :=
  ⟨o.targetPageSize, o.checksum⟩

/-- The text of a setting. -/
def asString (key : String) : Toml.Value → Except ConfigError String
  | .string s => .ok s
  | _ => .error (.badValue key)

/-- The natural number of a setting. -/
def asNat (key : String) : Toml.Value → Except ConfigError Nat
  | .integer n => if 0 ≤ n then .ok n.toNat else .error (.badValue key)
  | _ => .error (.badValue key)

/-- The truth value of a setting. -/
def asBool (key : String) : Toml.Value → Except ConfigError Bool
  | .boolean b => .ok b
  | _ => .error (.badValue key)

/-- The word that a setting is, or the one key of a table whose value has nothing
    in it: a choice that needs no more than its name may be written as both. -/
def choiceWord? : Toml.Value → Option String
  | .string s => some s
  | .table _ [(word, v)] => if v.isVoid then some word else none
  | _ => none

/-- One of the words that a setting may be. -/
def asChoice (key : String) (choices : List (String × α)) (v : Toml.Value) :
    Except ConfigError α :=
  match (choiceWord? v).bind fun word => choices.lookup word with
  | some a => .ok a
  | none => .error (.badValue key)

/-- The options with one of them set. -/
def set (o : StoreOptions) (key : String) (v : Toml.Value) : Except ConfigError StoreOptions :=
  match key with
  | "path" => do return { o with path := ← asString key v }
  | "cache_size" => do return { o with cacheSize := ← asNat key v }
  | "target_chunk_size" => do return { o with targetChunkSize := ← asNat key v }
  | "target_page_size" => do return { o with targetPageSize := ← asNat key v }
  | "checksum" => do
    return { o with checksum := ← asChoice key [("none", .none), ("crc32", .crc32)] v }
  | "io_backend" => do
    return { o with
      backend := ← asChoice key [("positioned", .positioned), ("normal", .sequential)] v }
  | "type_conflict" => do
    return { o with policy := ← asChoice key [("widen", .widen), ("strict", .strict)] v }
  | "max_nested_level" => do return { o with maxLevel := ← asNat key v }
  | "enable_fsync" => do return { o with synced := ← asBool key v }
  | _ => .error (.unknownKey key)

/-- The options that a text of settings gives, over the standard ones. -/
def ofText (text : List Char) : Except ConfigError StoreOptions :=
  match Toml.read? text with
  | none => .error .syntaxError
  | some settings => do
    let o ← settings.foldlM (fun o (key, v) => set o key v) standard
    validate o
    return o

/-- The options of a file, of which the bytes are given if it can be read. -/
def read (file : Option (List UInt8)) : Except ConfigError StoreOptions :=
  match file.bind Utf8.read? with
  | some text => ofText text
  | none => .error .unreadable

end StoreOptions

end NestedColumns

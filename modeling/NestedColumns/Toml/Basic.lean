/-!
# Settings

A file of options is written in TOML, of which it needs strings, whole numbers,
truth values, tables and arrays without items: everything else is a value that no
option takes.

A table is written in pieces. Keys with dots add to a table, a header opens one,
and braces hold a whole one, but no key is given twice and no table is written in
two ways. So a table remembers how it came to be.

## Main definitions

* `Toml.Origin`: How a table came to be.
* `Toml.Value`: A value of a key.
* `Toml.add`: A key, given in a table.
* `Toml.openTable`: A table, opened by its header.
* `Toml.addWithin`: A key, given below a header.
-/

namespace NestedColumns

namespace Toml

/-- How a table came to be. -/
inductive Origin where
  /-- Only tables inside it have headers so far. -/
  | implied
  /-- By its own header. -/
  | header
  /-- By keys with dots. -/
  | dotted
  /-- Between braces. -/
  | braces
  deriving DecidableEq, Repr

/-- A value of a key. -/
inductive Value where
  | string (s : String)
  | integer (n : Int)
  | boolean (b : Bool)
  /-- An array without items. -/
  | noItems
  | table (origin : Origin) (entries : List (String × Value))
  deriving Repr

/-- Keys with their values, in the order in which they were given. -/
abbrev Entries := List (String × Value)

/-- The value has nothing in it. -/
def Value.isVoid : Value → Bool
  | .noItems => true
  | .table _ [] => true
  | _ => false

/-- The entries with another value of a key that they have. -/
def replace (entries : Entries) (key : String) (v : Value) : Entries :=
  entries.map fun (k, old) => if k = key then (k, v) else (k, old)

/-- The entries with one more key, which may have dots. A key is given once, and
    dots lead only into tables that dots have made. -/
def add (v : Value) : List String → Entries → Option Entries
  | [], _ => none
  | [key], entries =>
    match entries.lookup key with
    | none => some (entries ++ [(key, v)])
    | some _ => none
  | key :: rest, entries =>
    match entries.lookup key with
    | none => (add v rest []).map fun inner => entries ++ [(key, .table .dotted inner)]
    | some (.table .dotted inner) =>
      (add v rest inner).map fun inner => replace entries key (.table .dotted inner)
    | some _ => none

/-- The entries with a table that its header opens. A table has one header, and
    none if it came to be by dots or braces; a header may lead through any table
    but one between braces. -/
def openTable : List String → Entries → Option Entries
  | [], _ => none
  | [key], entries =>
    match entries.lookup key with
    | none => some (entries ++ [(key, .table .header [])])
    | some (.table .implied inner) => some (replace entries key (.table .header inner))
    | some _ => none
  | key :: rest, entries =>
    match entries.lookup key with
    | none => (openTable rest []).map fun inner => entries ++ [(key, .table .implied inner)]
    | some (.table .braces _) => none
    | some (.table origin inner) =>
      (openTable rest inner).map fun inner => replace entries key (.table origin inner)
    | some _ => none

/-- The entries with one more key, given below the header of a table. -/
def addWithin (v : Value) (keys : List String) : List String → Entries → Option Entries
  | [], entries => add v keys entries
  | name :: rest, entries =>
    match entries.lookup name with
    | some (.table origin inner) =>
      (addWithin v keys rest inner).map fun inner => replace entries name (.table origin inner)
    | _ => none

end Toml

end NestedColumns

import NestedColumns.Toml.Basic
import NestedColumns.Toml.Lexical

/-!
# Reading settings

A text of settings consists of lines, each with a key and its value or with the
header of the table that the keys after it are in. A value may take several
lines.

## Main definitions

* `Toml.scanValue`: A value.
* `Toml.read?`: The keys of a text with their values.
-/

namespace NestedColumns

namespace Toml

/-- The characters of a word: all up to a blank, a comment, the end of the line
    or the end of what the word is in. -/
def isWordChar (c : Char) : Bool :=
  !(c == ' ' || c == '\t' || c == '#' || c == '\n' || c == '\r' || c == ',' || c == '\x7d' ||
    c == ']')

/-- A value that is one word. -/
def scanBare (cs : List Char) : Option (Value × List Char) :=
  let word := cs.takeWhile isWordChar
  let rest := cs.dropWhile isWordChar
  if word = "true".toList then some (.boolean true, rest)
  else if word = "false".toList then some (.boolean false, rest)
  else (integer? word).map fun n => (.integer n, rest)

mutual

/-- A value and the characters after it. Each step takes a character, so their
    number bounds the steps. -/
def scanValueFrom : Nat → List Char → Option (Value × List Char)
  | 0, _ => none
  | fuel + 1, cs =>
    match cs with
    | '"' :: rest => (scanString .double rest).map fun (s, rest) =>
      (.string (String.ofList s), rest)
    | '\'' :: rest => (scanString .single rest).map fun (s, rest) =>
      (.string (String.ofList s), rest)
    | '[' :: rest =>
      match skipLayout rest with
      | ']' :: rest => some (.noItems, rest)
      | _ => none
    | '\x7b' :: rest =>
      match skipSpace rest with
      | '\x7d' :: rest => some (.table .braces [], rest)
      | rest => scanBraces fuel [] rest
    | cs => scanBare cs

/-- The table between braces that has these entries before the characters that
    are left. -/
def scanBraces : Nat → Entries → List Char → Option (Value × List Char)
  | 0, _, _ => none
  | fuel + 1, entries, cs =>
    match scanPath cs with
    | some (keys, '=' :: rest) =>
      match scanValueFrom fuel (skipSpace rest) with
      | none => none
      | some (v, rest) =>
        match add v keys entries, skipSpace rest with
        | some entries, ',' :: rest => scanBraces fuel entries rest
        | some entries, '\x7d' :: rest => some (.table .braces entries, rest)
        | _, _ => none
    | _ => none

end

/-- A value and the characters after it. -/
def scanValue (cs : List Char) : Option (Value × List Char) :=
  scanValueFrom (cs.length + 1) cs

/-- A key, perhaps with dots, with its value, and the text after its line. -/
def scanSetting (cs : List Char) : Option ((List String × Value) × List Char) :=
  match scanPath cs with
  | some (keys, '=' :: rest) =>
    match scanValue (skipSpace rest) with
    | some (v, rest) => (endLine? rest).map fun rest => ((keys, v), rest)
    | none => none
  | _ => none

/-- The keys of a header after its bracket, and the text after its line. -/
def scanHeader (cs : List Char) : Option (List String × List Char) :=
  match scanPath cs with
  | some (keys, ']' :: rest) => (endLine? rest).map fun rest => (keys, rest)
  | _ => none

/-- The entries of a text, after those that are there already, which were read
    up to a line below the header `header`. Each step takes a line, so the number
    of characters bounds the steps. -/
def readFrom : Nat → List String → Entries → List Char → Option Entries
  | 0, _, entries, _ => some entries
  | _ + 1, _, entries, [] => some entries
  | fuel + 1, header, entries, cs =>
    match endLine? cs with
    | some rest => readFrom fuel header entries rest
    | none =>
      match skipSpace cs with
      | '[' :: rest =>
        match scanHeader rest with
        | none => none
        | some (header, rest) =>
          match openTable header entries with
          | none => none
          | some entries => readFrom fuel header entries rest
      | cs =>
        match scanSetting cs with
        | none => none
        | some ((keys, v), rest) =>
          match addWithin v keys header entries with
          | none => none
          | some entries => readFrom fuel header entries rest

/-- The keys of a text with their values. A byte order mark before them is passed
    over. -/
def read? (cs : List Char) : Option Entries :=
  let cs := if cs.head? = some '\uFEFF' then cs.drop 1 else cs
  readFrom (cs.length + 1) [] [] cs

end Toml

end NestedColumns

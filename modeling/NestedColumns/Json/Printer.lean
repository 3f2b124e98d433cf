import NestedColumns.Json.Basic
import NestedColumns.Double.Text

/-!
# Printing JSON

Values are printed without blanks. The text is built as a list of characters,
so that what a reader makes of it can be stated character by character.

## Main definitions

* `Json.escaped`, `Json.quoted`: Characters of a string, and a string.
* `Json.print`: A value.
* `Json.text`: A value as a `String`.
-/

namespace NestedColumns

namespace Json

/-- A lower-case hexadecimal digit. -/
def hexDigit (n : Nat) : Char :=
  if n < 10 then Char.ofNat (48 + n) else Char.ofNat (87 + n)

/-- A character inside a string. Quotes, backslashes and control characters
    are written as escapes, everything else as itself. -/
def escaped (c : Char) : List Char :=
  if c = '"' then ['\\', '"']
  else if c = '\\' then ['\\', '\\']
  else if c = '\x08' then ['\\', 'b']
  else if c = '\x0c' then ['\\', 'f']
  else if c = '\n' then ['\\', 'n']
  else if c = '\r' then ['\\', 'r']
  else if c = '\t' then ['\\', 't']
  else if c.toNat < 0x20 then
    ['\\', 'u', '0', '0', hexDigit (c.toNat / 16), hexDigit (c.toNat % 16)]
  else [c]

/-- A string in quotes. -/
def quoted (s : String) : List Char :=
  '"' :: (s.toList.flatMap escaped ++ ['"'])

/-- A number. Only finite doubles have a JSON text; the others are printed as
    `null`. -/
def Number.print : Number → List Char
  | .whole n => (toString n).toList
  | .double d => if d.isFinite then d.jsonText.toList else "null".toList

/-- Texts with commas between them. -/
def commaSeparated : List (List Char) → List Char
  | [] => []
  | [text] => text
  | text :: rest => text ++ ',' :: commaSeparated rest

mutual

/-- A value without blanks. -/
def print : Json → List Char
  | .null => "null".toList
  | .bool b => if b then "true".toList else "false".toList
  | .number n => n.print
  | .string s => quoted s
  | .array items => '[' :: (commaSeparated (printItems items) ++ [']'])
  | .object members => '\x7b' :: (commaSeparated (printMembers members) ++ ['\x7d'])

/-- The texts of the items of an array. -/
def printItems : List Json → List (List Char)
  | [] => []
  | item :: rest => print item :: printItems rest

/-- The texts of the members of an object. -/
def printMembers : List (String × Json) → List (List Char)
  | [] => []
  | (name, value) :: rest => (quoted name ++ ':' :: print value) :: printMembers rest

end

/-- The text of a value. -/
def text (v : Json) : String :=
  String.ofList v.print

end Json

end NestedColumns

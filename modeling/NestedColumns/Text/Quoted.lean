import NestedColumns.Text.Unseen

/-!
# Quoted names

Names in messages stand in quotes, so that an empty name or one with blanks is
seen, and characters that are not seen by themselves are spelled out.

## Main definitions

* `Quoted.character`: How one character is written.
* `Quoted.text`: A name in quotes.
-/

namespace NestedColumns

namespace Quoted

/-- A quote, a backslash and the blanks of line layout are written as short
    escapes, other characters that are not seen by their code point, and all
    else as itself. -/
def character (c : Char) : List Char :=
  if c = '"' then ['\\', '"']
  else if c = '\\' then ['\\', '\\']
  else if c = '\n' then ['\\', 'n']
  else if c = '\t' then ['\\', 't']
  else if c = '\r' then ['\\', 'r']
  else if c = '\x00' then ['\\', '0']
  else if Unseen.isUnseen c then
    "\\u\x7b".toList ++ Nat.toDigits 16 c.toNat ++ ['\x7d']
  else [c]

/-- A name in quotes. -/
def text (name : String) : String :=
  String.ofList ('"' :: name.toList.flatMap character ++ ['"'])

end Quoted

end NestedColumns

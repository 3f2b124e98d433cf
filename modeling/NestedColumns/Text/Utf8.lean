import NestedColumns.Numerals

/-!
# UTF-8

Texts in files are bytes. `decode` reads them one byte at a time and says for
each stretch of the input either which character it is or that it is none, so
that each use can decide what an ill-formed stretch means: a log is refused, a
document is refused where the stretch is reached, and a listing shows a
replacement character.

An ill-formed stretch is the longest start of a character that the bytes break
off, or a single byte that starts none. The byte that breaks a character off is
read again as a first byte.

## Main definitions

* `Utf8.encode`: The bytes of a text.
* `Utf8.decode`: The characters and ill-formed stretches of bytes.
* `Utf8.read?`: The text, if all of it is well-formed.
* `Utf8.readWith`: The text with a character in place of each ill-formed stretch.
-/

namespace NestedColumns

namespace Utf8

/-- The bytes of a text. -/
def encode (text : List Char) : List UInt8 :=
  text.flatMap String.utf8EncodeChar

/-- A character that is not complete: what the bytes so far contribute to its
    code point, how many bytes are owed, and the range of the next one. The
    range is narrower than that of a continuation byte after the first bytes
    that could begin an overlong form, a surrogate, or a code point too large. -/
structure Unfinished where
  value : Nat
  owed : Nat
  low : Nat
  high : Nat
  deriving DecidableEq, Repr

/-- What a first byte is. -/
inductive Start where
  | character (c : Char)
  | unfinished (p : Unfinished)
  | illFormed

/-- The reading of a first byte. -/
def start (b : Nat) : Start :=
  if b < 0x80 then .character (Char.ofNat b)
  else if b < 0xC2 then .illFormed
  else if b < 0xE0 then .unfinished ⟨b - 0xC0, 1, 0x80, 0xBF⟩
  else if b = 0xE0 then .unfinished ⟨0, 2, 0xA0, 0xBF⟩
  else if b = 0xED then .unfinished ⟨0xD, 2, 0x80, 0x9F⟩
  else if b < 0xF0 then .unfinished ⟨b - 0xE0, 2, 0x80, 0xBF⟩
  else if b = 0xF0 then .unfinished ⟨0, 3, 0x90, 0xBF⟩
  else if b < 0xF4 then .unfinished ⟨b - 0xF0, 3, 0x80, 0xBF⟩
  else if b = 0xF4 then .unfinished ⟨4, 3, 0x80, 0x8F⟩
  else .illFormed

/-- The reading of a continuation byte within its range. -/
def Unfinished.advance (p : Unfinished) (b : Nat) : Start :=
  let value := p.value * 64 + (b - 0x80)
  if p.owed ≤ 1 then .character (Char.ofNat value)
  else .unfinished ⟨value, p.owed - 1, 0x80, 0xBF⟩

/-- Read bytes after an incomplete character, if there is one. -/
def decodeFrom : Option Unfinished → List UInt8 → List (Option Char)
  | none, [] => []
  | some _, [] => [none]
  | none, b :: rest =>
    match start b.toNat with
    | .character c => some c :: decodeFrom none rest
    | .unfinished p => decodeFrom (some p) rest
    | .illFormed => none :: decodeFrom none rest
  | some p, b :: rest =>
    if p.low ≤ b.toNat ∧ b.toNat ≤ p.high then
      match p.advance b.toNat with
      | .character c => some c :: decodeFrom none rest
      | .unfinished q => decodeFrom (some q) rest
      | .illFormed => none :: decodeFrom none rest
    else
      match start b.toNat with
      | .character c => none :: some c :: decodeFrom none rest
      | .unfinished q => none :: decodeFrom (some q) rest
      | .illFormed => none :: none :: decodeFrom none rest

/-- The characters of a byte string, with `none` for each ill-formed stretch. -/
def decode (bytes : List UInt8) : List (Option Char) :=
  decodeFrom none bytes

/-- The text of a byte string that is well-formed throughout. -/
def read? (bytes : List UInt8) : Option (List Char) :=
  (decode bytes).mapM id

/-- The text of a byte string, with a character for each ill-formed stretch. -/
def readWith (replacement : Char) (bytes : List UInt8) : List Char :=
  (decode bytes).map (·.getD replacement)

/-- How many bytes a text takes. -/
def byteLength (text : List Char) : Nat :=
  (text.map Char.utf8Size).sum

end Utf8

end NestedColumns

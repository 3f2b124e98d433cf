import NestedColumns.Json.Basic

/-!
# The words of JSON

Reading the parts of a JSON text that hold no other parts: blanks, literals,
numbers and strings. Each function takes the characters that are left and gives
back those after what it read.

A text can be refused for two reasons that a log has to tell apart. It may end
where more was needed, as a text does whose writing was interrupted, or it may
hold something that no continuation repairs.

## Main definitions

* `Json.Fault`: Why a text is refused.
* `Json.Scan`: What is left after a part, or a fault.
* `Json.scanString`, `Json.scanNumber`, `Json.scanLiteral`: The parts.
* `Json.skipBlanks`: The characters after blanks.
-/

namespace NestedColumns

namespace Json

/-- Why a text is refused. -/
inductive Fault where
  /-- It ends where more was needed. -/
  | incomplete
  /-- It is wrong, however it goes on. -/
  | malformed
  deriving DecidableEq, Repr

/-- A value and the characters after it, or the reason there is none. -/
abbrev Scan (α : Type) := Except Fault (α × List Char)

/-- The blanks of JSON: space, tab, line feed, carriage return. -/
def isBlank (c : Char) : Bool :=
  c == ' ' || c == '\t' || c == '\n' || c == '\r'

/-- The characters after blanks. -/
def skipBlanks : List Char → List Char
  | [] => []
  | c :: rest => if isBlank c then skipBlanks rest else c :: rest

/-- The decimal digits. -/
def isDigit (c : Char) : Bool :=
  decide ('0' ≤ c ∧ c ≤ '9')

/-- The fault of meeting a character that cannot stand here, or the end. -/
def faultAt : List Char → Fault
  | [] => .incomplete
  | _ :: _ => .malformed

/-- The characters after an expected word. -/
def scanWord : List Char → List Char → Except Fault (List Char)
  | [], rest => .ok rest
  | _ :: _, [] => .error .incomplete
  | expected :: word, c :: rest => if c = expected then scanWord word rest else .error .malformed

/-- A literal of JSON, by its first character. -/
def scanLiteral (first : Char) (rest : List Char) : Option (Scan Json) :=
  match first with
  | 'n' => some ((scanWord "ull".toList rest).map (Json.null, ·))
  | 't' => some ((scanWord "rue".toList rest).map (Json.bool true, ·))
  | 'f' => some ((scanWord "alse".toList rest).map (Json.bool false, ·))
  | _ => none

/-- The value of a hexadecimal digit, in either case. -/
def hexValue? (c : Char) : Option Nat :=
  if '0' ≤ c ∧ c ≤ '9' then some (c.toNat - 48)
  else if 'a' ≤ c ∧ c ≤ 'f' then some (c.toNat - 87)
  else if 'A' ≤ c ∧ c ≤ 'F' then some (c.toNat - 55)
  else none

/-- The number that four hexadecimal digits spell. Fewer than four bytes left
    in the text count as an end, whatever they are. -/
def hexQuad (cs : List Char) : Except Fault Nat :=
  if (cs.take 4 |>.map Char.utf8Size).sum < 4 then .error .incomplete
  else
    match (cs.take 4).mapM hexValue? with
    | some digits => .ok (digits.foldl (fun n d => n * 16 + d) 0)
    | none => .error .malformed

/-- The character that an escape with one letter stands for. -/
def escapeLetter? : Char → Option Char
  | '"' => some '"'
  | '\\' => some '\\'
  | '/' => some '/'
  | 'b' => some '\x08'
  | 'f' => some '\x0c'
  | 'n' => some '\n'
  | 'r' => some '\r'
  | 't' => some '\t'
  | _ => none

/-- Where a reader stands inside a string. -/
inductive StringState where
  /-- Between characters. -/
  | plain
  /-- After a backslash. -/
  | escape
  /-- Within the four digits of an escape, with the half before it if that was
      the leading half of a pair. -/
  | digits (owed : Nat) (value : Nat) (leading : Option Nat)
  /-- After a leading half, whose trailing half has to follow. -/
  | pair (leading : Nat)
  /-- After the backslash of the trailing half. -/
  | pairEscape (leading : Nat)
  deriving DecidableEq, Repr

/-- What four digits of an escape make: a character, or the first half of one. A
    half without its other half is malformed. -/
def ofUnits (value : Nat) : Option Nat → Except Fault (Char ⊕ Nat)
  | none =>
    if 0xDC00 ≤ value ∧ value ≤ 0xDFFF then .error .malformed
    else if 0xD800 ≤ value ∧ value ≤ 0xDBFF then .ok (.inr value)
    else .ok (.inl (Char.ofNat value))
  | some leading =>
    if 0xDC00 ≤ value ∧ value ≤ 0xDFFF then
      .ok (.inl (Char.ofNat (0x10000 + (leading - 0xD800) * 0x400 + (value - 0xDC00))))
    else .error .malformed

/-- Read a string from the state `state`, with the characters read so far in
    reverse, up to and including its closing quote. -/
def scanStringFrom : StringState → List Char → List Char → Scan String
  | _, _, [] => .error .incomplete
  | .plain, read, c :: rest =>
    if c = '"' then .ok (String.ofList read.reverse, rest)
    else if c = '\\' then scanStringFrom .escape read rest
    else if c.toNat < 0x20 then .error .malformed
    else scanStringFrom .plain (c :: read) rest
  | .escape, read, c :: rest =>
    if c = 'u' then
      match hexQuad rest with
      | .error fault => .error fault
      | .ok _ => scanStringFrom (.digits 4 0 none) read rest
    else
      match escapeLetter? c with
      | some letter => scanStringFrom .plain (letter :: read) rest
      | none => .error .malformed
  | .digits owed value leading, read, c :: rest =>
    let value := value * 16 + (hexValue? c).getD 0
    if 1 < owed then scanStringFrom (.digits (owed - 1) value leading) read rest
    else
      match ofUnits value leading with
      | .error fault => .error fault
      | .ok (.inl character) => scanStringFrom .plain (character :: read) rest
      | .ok (.inr half) => scanStringFrom (.pair half) read rest
  | .pair leading, read, c :: rest =>
    if c = '\\' then scanStringFrom (.pairEscape leading) read rest else .error .malformed
  | .pairEscape leading, read, c :: rest =>
    if c = 'u' then
      match hexQuad rest with
      | .error fault => .error fault
      | .ok _ => scanStringFrom (.digits 4 0 (some leading)) read rest
    else .error .malformed

/-- A string, after its opening quote. -/
def scanString (cs : List Char) : Scan String :=
  scanStringFrom .plain [] cs

/-- The number that decimal digits spell. -/
def digitsValue (digits : List Char) : Nat :=
  digits.foldl (fun n c => n * 10 + (c.toNat - 48)) 0

/-- Digits up to the first other character. At least one has to be there. -/
def scanDigits (cs : List Char) : Scan (List Char) :=
  let digits := cs.takeWhile isDigit
  let rest := cs.dropWhile isDigit
  if digits.isEmpty then .error (faultAt rest) else .ok (digits, rest)

/-- The whole part of a number: digits, of which a zero may only be the first if
    it is the last as well. -/
def scanWhole (cs : List Char) : Except Fault (List Char × List Char) := do
  let (digits, rest) ← scanDigits cs
  if digits.head? = some '0' ∧ digits.length ≠ 1 then throw .malformed
  return (digits, rest)

/-- The digits after a point, if there is one. -/
def scanFraction : List Char → Scan (Option (List Char))
  | '.' :: rest => (scanDigits rest).map fun (digits, rest) => (some digits, rest)
  | rest => .ok (none, rest)

/-- A sign in front of an exponent. -/
def scanSign : List Char → Bool × List Char
  | '-' :: rest => (true, rest)
  | '+' :: rest => (false, rest)
  | rest => (false, rest)

/-- The power of ten of a number, if one is written. -/
def scanExponent : List Char → Except Fault (Option Int × List Char)
  | c :: rest =>
    if c = 'e' ∨ c = 'E' then do
      let (negative, rest) := scanSign rest
      let (digits, rest) ← scanDigits rest
      let n : Int := digitsValue digits
      return (some (if negative then -n else n), rest)
    else .ok (none, c :: rest)
  | [] => .ok (none, [])

/-- The number that its parts stand for. Whole spellings are whole numbers while
    they fit in 64 bits; a negative zero is a double, since whole numbers have
    one zero only. A double too large to be finite is refused. -/
def ofParts (negative : Bool) (whole : List Char) (fraction : Option (List Char))
    (exponent : Option Int) : Except Fault Number :=
  let asDouble : Except Fault Number :=
    let places := fraction.getD []
    let d := Double.ofDecimal negative (digitsValue (whole ++ places))
      (exponent.getD 0 - places.length)
    if d.isFinite then .ok (.double d) else .error .malformed
  match fraction, exponent with
  | none, none =>
    let n := digitsValue whole
    if negative then
      if n = 0 ∨ 2 ^ 63 < n then asDouble else .ok (.whole (-(n : Int)))
    else if n < 2 ^ 64 then .ok (.whole n) else asDouble
  | _, _ => asDouble

/-- A number, from its sign or first digit. -/
def scanNumber (cs : List Char) : Except Fault (Number × List Char) := do
  let (negative, rest) :=
    match cs with
    | '-' :: rest => (true, rest)
    | rest => (false, rest)
  let (whole, rest) ← scanWhole rest
  let (fraction, rest) ← scanFraction rest
  let (exponent, rest) ← scanExponent rest
  let n ← ofParts negative whole fraction exponent
  return (n, rest)

/-- A value that holds no other values, by its first character. `none` if no
    such value starts here. -/
def scanScalar : List Char → Option (Scan Json)
  | [] => none
  | '"' :: rest => some ((scanString rest).map fun (s, rest) => (.string s, rest))
  | c :: rest =>
    if c = '-' ∨ isDigit c then
      some ((scanNumber (c :: rest)).map fun (n, rest) => (.number n, rest))
    else scanLiteral c rest

end Json

end NestedColumns

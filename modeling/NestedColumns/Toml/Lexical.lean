import NestedColumns.Json.Lexical

/-!
# The words of settings

The parts of a TOML text that hold no other parts: strings, whole numbers, keys
and line ends. Strings are written with single or double quotes, on one line or,
with three quotes, on several. Each function takes the characters that are left
and gives back those after what it read, if it can be read.

## Main definitions

* `Toml.scanString`: A string.
* `Toml.integer?`: The number that a word spells.
* `Toml.scanKey`, `Toml.scanPath`: A key, and several with dots between them.
* `Toml.endLine?`: The text after the end of a line.
-/

namespace NestedColumns

namespace Toml

/-- The characters after spaces and tabs. -/
def skipSpace : List Char → List Char
  | [] => []
  | c :: rest => if c = ' ' ∨ c = '\t' then skipSpace rest else c :: rest

/-- Characters that may stand in a string or a comment: all but control
    characters other than the tab. -/
def isPrintable (c : Char) : Bool :=
  c == '\t' || (0x20 ≤ c.toNat && c.toNat != 0x7F)

/-- The characters of a key without quotes. -/
def isKeyChar (c : Char) : Bool :=
  Json.isDigit c || ('a' ≤ c && c ≤ 'z') || ('A' ≤ c && c ≤ 'Z') || c == '_' || c == '-'

/-- The character that hexadecimal digits name. -/
def ofHex? (digits : List Char) : Option Char := do
  let values ← digits.mapM Json.hexValue?
  let n := values.foldl (fun n d => n * 16 + d) 0
  if n < 0xD800 ∨ (0xE000 ≤ n ∧ n < 0x110000) then some (Char.ofNat n) else none

/-- The character that an escape with one letter stands for. -/
def escapeLetter? : Char → Option Char
  | 'b' => some '\x08'
  | 't' => some '\t'
  | 'n' => some '\n'
  | 'f' => some '\x0c'
  | 'r' => some '\r'
  | '"' => some '"'
  | '\\' => some '\\'
  | _ => none

/-- The character that an escape stands for, after its backslash. -/
def scanEscape : List Char → Option (Char × List Char)
  | 'u' :: a :: b :: c :: d :: rest => (ofHex? [a, b, c, d]).map (·, rest)
  | 'U' :: a :: b :: c :: d :: e :: f :: g :: h :: rest =>
    (ofHex? [a, b, c, d, e, f, g, h]).map (·, rest)
  | letter :: rest => (escapeLetter? letter).map (·, rest)
  | [] => none

/-- The quotes of strings. -/
inductive Quote where
  /-- Nothing inside has another meaning. -/
  | single
  /-- A backslash starts an escape. -/
  | double
  deriving DecidableEq, Repr

/-- The character of a quote. -/
def Quote.char : Quote → Char
  | .single => '\''
  | .double => '"'

/-- The characters after blanks and line breaks. -/
def skipLines : List Char → List Char
  | [] => []
  | '\r' :: '\n' :: rest => skipLines rest
  | c :: rest => if c = ' ' ∨ c = '\t' ∨ c = '\n' then skipLines rest else c :: rest

/-- The text after a backslash that ends its line: the next character of the
    string, on whatever line that is. -/
def afterBrokenLine? (cs : List Char) : Option (List Char) :=
  match skipSpace cs with
  | '\n' :: rest => some (skipLines rest)
  | '\r' :: '\n' :: rest => some (skipLines rest)
  | _ => none

/-- A string on one line, after its quote. Each step takes a character, so their
    number bounds the steps. -/
def scanShort (quote : Quote) : Nat → List Char → Option (List Char × List Char)
  | 0, _ => none
  | _ + 1, [] => none
  | fuel + 1, c :: rest =>
    if c = quote.char then some ([], rest)
    else if c = '\\' ∧ quote = .double then do
      let (x, rest) ← scanEscape rest
      let (s, rest) ← scanShort quote fuel rest
      return (x :: s, rest)
    else if isPrintable c then do
      let (s, rest) ← scanShort quote fuel rest
      return (c :: s, rest)
    else none

/-- The end of a string on several lines: three quotes, and up to two before them
    that belong to the string. -/
def longEnd? (quote : Char) (cs : List Char) : Option (List Char × List Char) :=
  let run := (cs.take 5).takeWhile (· = quote)
  if run.length < 3 then none else some (run.drop 3, cs.drop run.length)

/-- A string on several lines, after its quotes. Each step takes a character. -/
def scanLong (quote : Quote) : Nat → List Char → Option (List Char × List Char)
  | 0, _ => none
  | fuel + 1, cs =>
    let after (c : Char) (rest : List Char) : Option (List Char × List Char) :=
      (scanLong quote fuel rest).map fun (s, rest) => (c :: s, rest)
    match longEnd? quote.char cs, cs with
    | some found, _ => some found
    | none, [] => none
    | none, '\n' :: rest => after '\n' rest
    | none, '\r' :: '\n' :: rest => after '\n' rest
    | none, c :: rest =>
      if c = '\\' ∧ quote = .double then
        match afterBrokenLine? rest with
        | some rest => scanLong quote fuel rest
        | none =>
          match scanEscape rest with
          | some (x, rest) => after x rest
          | none => none
      else if isPrintable c then after c rest
      else none

/-- A string, after its first quote. A line break that directly follows three
    quotes is no part of it. -/
def scanString (quote : Quote) (cs : List Char) : Option (List Char × List Char) :=
  if cs.take 2 = [quote.char, quote.char] then
    match cs.drop 2 with
    | '\n' :: rest => scanLong quote (rest.length + 1) rest
    | '\r' :: '\n' :: rest => scanLong quote (rest.length + 1) rest
    | rest => scanLong quote (rest.length + 1) rest
  else scanShort quote (cs.length + 1) cs

/-- Digits of a base, with single underscores between them. -/
def digits? (base : Nat) : List Char → Option (List Nat)
  | [] => some []
  | '_' :: c :: rest => if c = '_' then none else digits? base (c :: rest)
  | c :: rest => do
    let d ← Json.hexValue? c
    if base ≤ d then none
    let ds ← digits? base rest
    return d :: ds

/-- The number that a word spells in a base. -/
def natural? (base : Nat) (word : List Char) : Option Nat :=
  if word.isEmpty ∨ word.head? = some '_' ∨ word.getLast? = some '_' then none
  else (digits? base word).map fun ds => ds.foldl (fun n d => n * base + d) 0

/-- The number that a word spells. Only decimal numbers have a sign, and they
    start with a zero only if they are zero. -/
def integer? (word : List Char) : Option Int :=
  let decimal (word : List Char) : Option Nat :=
    if word.head? = some '0' ∧ word.length ≠ 1 then none else natural? 10 word
  let n? : Option Int :=
    match word with
    | '0' :: 'x' :: rest => (natural? 16 rest).map Int.ofNat
    | '0' :: 'o' :: rest => (natural? 8 rest).map Int.ofNat
    | '0' :: 'b' :: rest => (natural? 2 rest).map Int.ofNat
    | '-' :: rest => (decimal rest).map fun n => -(n : Int)
    | '+' :: rest => (decimal rest).map Int.ofNat
    | rest => (decimal rest).map Int.ofNat
  n?.filter fun n => -(2 ^ 63) ≤ n && n < 2 ^ 63

/-- A key and the characters after it. -/
def scanKey : List Char → Option (String × List Char)
  | '"' :: rest => (scanShort .double (rest.length + 1) rest).map fun (s, rest) =>
    (String.ofList s, rest)
  | '\'' :: rest => (scanShort .single (rest.length + 1) rest).map fun (s, rest) =>
    (String.ofList s, rest)
  | cs =>
    let word := cs.takeWhile isKeyChar
    if word.isEmpty then none else some (String.ofList word, cs.dropWhile isKeyChar)

/-- Keys with dots between them, and the characters after them and blanks. Each
    step takes a key, so the number of characters bounds the steps. -/
def scanPathFrom : Nat → List Char → Option (List String × List Char)
  | 0, _ => none
  | fuel + 1, cs =>
    match scanKey cs with
    | none => none
    | some (key, rest) =>
      match skipSpace rest with
      | '.' :: rest => (scanPathFrom fuel (skipSpace rest)).map fun (keys, rest) =>
        (key :: keys, rest)
      | rest => some ([key], rest)

/-- Keys with dots between them, and the characters after them and blanks. -/
def scanPath (cs : List Char) : Option (List String × List Char) :=
  scanPathFrom (cs.length + 1) (skipSpace cs)

/-- The text after the end of a line, before which are only blanks and a
    comment. -/
def endLine? (cs : List Char) : Option (List Char) :=
  let rest :=
    match skipSpace cs with
    | '#' :: rest => rest.dropWhile isPrintable
    | rest => rest
  match rest with
  | [] => some []
  | '\n' :: rest => some rest
  | '\r' :: '\n' :: rest => some rest
  | _ => none

/-- The text after blanks, comments and line ends. Each step takes a line, so the
    number of characters bounds the steps. -/
def skipLayoutFrom : Nat → List Char → List Char
  | 0, cs => cs
  | fuel + 1, cs =>
    match endLine? cs with
    | some rest => skipLayoutFrom fuel rest
    | none => skipSpace cs

/-- The text after blanks, comments and line ends. -/
def skipLayout (cs : List Char) : List Char :=
  skipLayoutFrom (cs.length + 1) cs

end Toml

end NestedColumns

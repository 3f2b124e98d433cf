import NestedColumns.Json.Lexical

/-!
# Readers of JSON

A reader turns the start of a JSON text into a value and gives back the rest.
Readers go straight from characters to the values they are for: a log entry is
refused at the first character that shows it is none, not after all of its JSON
has been read. So the fault of a text with two faults is that of the first one.

A reader is given the number of brackets that may still be opened. Every
opening bracket uses one up, and a text that opens more at once is malformed;
this bounds the recursion of readers too.

## Main definitions

* `Json.Reader`: A reader.
* `Json.maxNesting`: How many brackets a text may open at once.
* `Json.document`: The reader of any JSON value.
* `Json.Reader.list`, `Json.Reader.fields`, `Json.Reader.tagged`: Readers of
  lists, of structures and of alternatives.
* `Json.Reader.whole`, `Json.Reader.next`: A text that holds one value, and the
  next value of a text that holds several.
-/

namespace NestedColumns

namespace Json

/-- A reader is given the brackets it may still open and the text. -/
abbrev Reader (α : Type) := Nat → List Char → Scan α

/-- How many brackets a text may open at once. -/
def maxNesting : Nat := 127

/-- What follows inside brackets: another part, at the given place, or the
    closing bracket, with the text after it. -/
inductive Next (α : Type) where
  | more (part : α)
  | done (rest : List Char)

/-- The next item of an array. `first` says that no item was read yet, so that
    no comma is due. -/
def nextItem (first : Bool) (cs : List Char) : Except Fault (Next (List Char)) :=
  match skipBlanks cs with
  | [] => .error .incomplete
  | ']' :: rest => .ok (.done rest)
  | c :: rest =>
    if first then .ok (.more (c :: rest))
    else if c = ',' then
      match skipBlanks rest with
      | [] => .error .incomplete
      | ']' :: _ => .error .malformed
      | rest => .ok (.more rest)
    else .error .malformed

/-- The end of an array that has all its items. -/
def endItems (cs : List Char) : Except Fault (List Char) :=
  match skipBlanks cs with
  | [] => .error .incomplete
  | ']' :: rest => .ok rest
  | _ :: _ => .error .malformed

/-- The name of the next member of an object, with the text before its colon. -/
def nextName (first : Bool) (cs : List Char) : Except Fault (Next (String × List Char)) :=
  match skipBlanks cs with
  | [] => .error .incomplete
  | '\x7d' :: rest => .ok (.done rest)
  | c :: rest =>
    if first then
      if c = '"' then (scanString rest).map .more else .error .malformed
    else if c = ',' then
      match skipBlanks rest with
      | '"' :: rest => (scanString rest).map .more
      | rest => .error (faultAt rest)
    else .error .malformed

/-- The text after a colon. -/
def skipColon (cs : List Char) : Except Fault (List Char) :=
  match skipBlanks cs with
  | ':' :: rest => .ok rest
  | rest => .error (faultAt rest)

/-- A value after its colon. -/
def afterColon (value : List Char → Scan α) (cs : List Char) : Scan α :=
  match skipColon cs with
  | .error fault => .error fault
  | .ok rest => value rest

/-- The items of an array, after its opening bracket. Each item takes at least
    one character, which bounds their number. -/
def scanItems (item : List Char → Scan α) : Nat → Bool → List α → List Char → Scan (List α)
  | 0, _, _, _ => .error .malformed
  | fuel + 1, first, read, cs =>
    match nextItem first cs with
    | .error fault => .error fault
    | .ok (.done rest) => .ok (read.reverse, rest)
    | .ok (.more rest) =>
      match item rest with
      | .error fault => .error fault
      | .ok (a, rest) => scanItems item fuel false (a :: read) rest

/-- The members of an object, after its opening bracket, each taken in by
    `member` from before its colon. -/
def scanMembers (member : σ → String → List Char → Scan σ) :
    Nat → Bool → σ → List Char → Scan σ
  | 0, _, _, _ => .error .malformed
  | fuel + 1, first, state, cs =>
    match nextName first cs with
    | .error fault => .error fault
    | .ok (.done rest) => .ok (state, rest)
    | .ok (.more (name, rest)) =>
      match member state name rest with
      | .error fault => .error fault
      | .ok (state, rest) => scanMembers member fuel false state rest

/-- Any JSON value. A repeated name keeps its first place and its last value. -/
def document : Reader Json
  | room, cs =>
    match skipBlanks cs, room with
    | [], _ => .error .incomplete
    | '[' :: _, 0 => .error .malformed
    | '[' :: rest, room + 1 =>
      (scanItems (document room) (rest.length + 1) true [] rest).map
        fun (items, rest) => (.array items, rest)
    | '\x7b' :: _, 0 => .error .malformed
    | '\x7b' :: rest, room + 1 =>
      (scanMembers (fun members name cs =>
          (afterColon (document room) cs).map
            fun (value, rest) => (setMember name value members, rest))
        (rest.length + 1) true [] rest).map
        fun (members, rest) => (.object members, rest)
    | cs, _ => (scanScalar cs).getD (.error .malformed)

/-- The fault of a value of another kind than the one expected. A value without
    parts is read first, and is at fault itself if it is not one. -/
def mismatch (cs : List Char) : Fault :=
  match scanScalar cs with
  | some (.error fault) => fault
  | _ => match cs with
    | [] => .incomplete
    | _ :: _ => .malformed

/-! ### Values that are passed over -/

/-- A number that nobody reads. Its spelling is checked, and one that the text
    cuts off is malformed. -/
def passNumber (cs : List Char) : Except Fault (List Char) :=
  let sign := match cs with
    | '-' :: rest => rest
    | rest => rest
  let spelled : Except Fault (List Char) := do
    let (_, rest) ← scanWhole sign
    let (_, rest) ← scanFraction rest
    let (_, rest) ← scanExponent rest
    return rest
  spelled.mapError fun _ => .malformed

/-- A string that nobody reads, after its opening quote. Escapes have to be
    well-formed one by one; halves of pairs need not be matched. -/
def passString : List Char → Except Fault (List Char)
  | [] => .error .incomplete
  | '"' :: rest => .ok rest
  | '\\' :: c :: rest =>
    if c = 'u' then
      match hexQuad rest with
      | .error fault => .error fault
      | .ok _ => passString rest
    else if (escapeLetter? c).isSome then passString rest
    else .error .malformed
  | c :: rest => if c = '\\' then .error .incomplete
    else if c.toNat < 0x20 then .error .malformed else passString rest

/-- A kind of bracket that is open. -/
inductive Bracket where
  | square
  | curly
  deriving DecidableEq, Repr

/-- The text after the name and the colon that a member of an object starts
    with. -/
def passName (cs : List Char) : Except Fault (List Char) :=
  match skipBlanks cs with
  | '"' :: rest => do skipColon (← passString rest)
  | rest => .error (faultAt rest)

/-- What the reader of a passed-over value does next. -/
inductive Passing where
  /-- A value is due. -/
  | value
  /-- A value has ended inside the open brackets. -/
  | after
  /-- The innermost bracket has just been opened. -/
  | opened
  deriving DecidableEq, Repr

/-- A part of an array or object that starts at the next value. -/
def passInto (bracket : Bracket) (cs : List Char) : Except Fault (List Char) :=
  match bracket with
  | .square => .ok cs
  | .curly => passName cs

/-- Pass over a value inside open brackets, innermost first. Each step takes at
    least one character or ends an opening, so twice the length bounds them. -/
def passFrom : Nat → Passing → List Bracket → List Char → Except Fault (List Char)
  | 0, _, _, _ => .error .malformed
  | _ + 1, .after, [], cs => .ok cs
  | _ + 1, .opened, [], _ => .error .malformed
  | fuel + 1, .value, brackets, cs =>
    match skipBlanks cs with
    | [] => .error .incomplete
    | '[' :: rest => passFrom fuel .opened (.square :: brackets) rest
    | '\x7b' :: rest => passFrom fuel .opened (.curly :: brackets) rest
    | '"' :: rest => do passFrom fuel .after brackets (← passString rest)
    | c :: rest =>
      if c = '-' ∨ isDigit c then do passFrom fuel .after brackets (← passNumber (c :: rest))
      else
        match scanLiteral c rest with
        | some (.ok (_, rest)) => passFrom fuel .after brackets rest
        | some (.error fault) => .error fault
        | none => .error .malformed
  | fuel + 1, .opened, bracket :: brackets, cs =>
    match skipBlanks cs, bracket with
    | [], _ => .error .incomplete
    | ']' :: rest, .square => passFrom fuel .after brackets rest
    | '\x7d' :: rest, .curly => passFrom fuel .after brackets rest
    | cs, bracket => do passFrom fuel .value (bracket :: brackets) (← passInto bracket cs)
  | fuel + 1, .after, bracket :: brackets, cs =>
    match skipBlanks cs, bracket with
    | [], _ => .error .incomplete
    | ']' :: rest, .square => passFrom fuel .after brackets rest
    | '\x7d' :: rest, .curly => passFrom fuel .after brackets rest
    | ',' :: rest, bracket => do passFrom fuel .value (bracket :: brackets) (← passInto bracket rest)
    | _, _ => .error .malformed

/-- The text after a value that nobody reads. Such a value may nest to any
    depth. -/
def passValue (cs : List Char) : Except Fault (List Char) :=
  passFrom (2 * cs.length + 2) .value [] cs

/-! ### Readers of structures -/

namespace Reader

/-- A string. -/
def string : Reader String := fun _ cs =>
  match skipBlanks cs with
  | '"' :: rest => scanString rest
  | cs => .error (mismatch cs)

/-- A whole number from zero up to but not including a bound. -/
def natBelow (bound : Nat) : Reader Nat := fun _ cs =>
  match skipBlanks cs with
  | [] => .error .incomplete
  | c :: rest =>
    if c = '-' ∨ isDigit c then
      match scanNumber (c :: rest) with
      | .error fault => .error fault
      | .ok (.whole n, rest) =>
        if 0 ≤ n ∧ n < bound then .ok (n.toNat, rest) else .error .malformed
      | .ok (.double _, _) => .error .malformed
    else .error (mismatch (c :: rest))

/-- The value `null`. -/
def null : Reader Unit := fun _ cs =>
  match skipBlanks cs with
  | 'n' :: rest => (scanWord "ull".toList rest).map ((), ·)
  | cs => .error (mismatch cs)

/-- The value of another reader, changed. -/
def map (f : α → β) (reader : Reader α) : Reader β := fun room cs =>
  (reader room cs).map fun (a, rest) => (f a, rest)

/-- An array of values of one kind. -/
def list (item : Reader α) : Reader (List α) := fun room cs =>
  match skipBlanks cs, room with
  | '[' :: _, 0 => .error .malformed
  | '[' :: rest, room + 1 => scanItems (item room) (rest.length + 1) true [] rest
  | cs, _ => .error (mismatch cs)

/-- A field of a structure that is being read: its name, whether it was read
    already, and how it is read into the structure. -/
structure Field (σ : Type) where
  name : String
  isSet : σ → Bool
  read : σ → Reader σ

/-- The fields of a structure in order, as items of an array. -/
def scanInOrder : List (Field σ) → Nat → Bool → σ → List Char → Scan σ
  | [], _, _, state, cs => (endItems cs).map (state, ·)
  | field :: fields, room, first, state, cs =>
    match nextItem first cs with
    | .error fault => .error fault
    | .ok (.done _) => .error .malformed
    | .ok (.more rest) =>
      match field.read state room rest with
      | .error fault => .error fault
      | .ok (state, rest) => scanInOrder fields room false state rest

/-- One member of a structure. A field may be given once; names that are no
    field are passed over. -/
def scanField (fields : List (Field σ)) (room : Nat) (state : σ) (name : String)
    (cs : List Char) : Scan σ :=
  match fields.find? (·.name == name) with
  | some field =>
    if field.isSet state then .error .malformed
    else afterColon (field.read state room) cs
  | none => afterColon (fun rest => (passValue rest).map (state, ·)) cs

/-- A structure, written as an object with its fields in any order or as an array
    of them in their order. -/
def fields (fields : List (Field σ)) (start : σ) : Reader σ := fun room cs =>
  match skipBlanks cs, room with
  | '[' :: _, 0 => .error .malformed
  | '[' :: rest, room + 1 => scanInOrder fields room true start rest
  | '\x7b' :: _, 0 => .error .malformed
  | '\x7b' :: rest, room + 1 =>
    scanMembers (scanField fields room) (rest.length + 1) true start rest
  | cs, _ => .error (mismatch cs)

/-- A value that another reader may leave unfinished. -/
def complete (reader : Reader (Option α)) : Reader α := fun room cs =>
  match reader room cs with
  | .ok (some a, rest) => .ok (a, rest)
  | .ok (none, _) => .error .malformed
  | .error fault => .error fault

/-- A structure of one field. -/
def one (name : String) (reader : Reader α) : Reader α :=
  complete (fields [⟨name, Option.isSome, fun _ => reader.map some⟩] none)

/-- A structure of two fields. -/
def two (name₁ : String) (reader₁ : Reader α) (name₂ : String) (reader₂ : Reader β) :
    Reader (α × β) :=
  let first : Field (Option α × Option β) :=
    ⟨name₁, fun s => s.1.isSome, fun s => reader₁.map fun a => (some a, s.2)⟩
  let second : Field (Option α × Option β) :=
    ⟨name₂, fun s => s.2.isSome, fun s => reader₂.map fun b => (s.1, some b)⟩
  complete ((fields [first, second] (none, none)).map fun
    | (some a, some b) => some (a, b)
    | _ => none)

/-- A structure of three fields. -/
def three (name₁ : String) (reader₁ : Reader α) (name₂ : String) (reader₂ : Reader β)
    (name₃ : String) (reader₃ : Reader γ) : Reader (α × β × γ) :=
  let first : Field (Option α × Option β × Option γ) :=
    ⟨name₁, fun s => s.1.isSome, fun s => reader₁.map fun a => (some a, s.2)⟩
  let second : Field (Option α × Option β × Option γ) :=
    ⟨name₂, fun s => s.2.1.isSome, fun s => reader₂.map fun b => (s.1, some b, s.2.2)⟩
  let third : Field (Option α × Option β × Option γ) :=
    ⟨name₃, fun s => s.2.2.isSome, fun s => reader₃.map fun c => (s.1, s.2.1, some c)⟩
  complete ((fields [first, second, third] (none, none, none)).map fun
    | (some a, some b, some c) => some (a, b, c)
    | _ => none)

/-- One alternative of a tagged value: a bare tag, or a tag with a value. -/
inductive Variant (α : Type) where
  | bare (a : α)
  | holding (reader : Reader α)

/-- The reader of an alternative's value in an object. That of a bare tag is
    `null`. -/
def Variant.reader : Variant α → Reader α
  | .bare a => null.map fun _ => a
  | .holding reader => reader

/-- The end of a tagged value: the bracket that closes its object. -/
def endTagged (a : α) (cs : List Char) : Scan α :=
  match skipBlanks cs with
  | '\x7d' :: rest => .ok (a, rest)
  | rest => .error (faultAt rest)

/-- A tagged value: an object with the tag as its only name, or the tag alone as
    a string. -/
def tagged (variants : List (String × Variant α)) : Reader α := fun room cs =>
  match skipBlanks cs, room with
  | [], _ => .error .incomplete
  | '\x7b' :: _, 0 => .error .malformed
  | '\x7b' :: rest, room + 1 =>
    match string room rest with
    | .error fault => .error fault
    | .ok (tag, rest) =>
      match variants.lookup tag with
      | none => .error .malformed
      | some variant =>
        match afterColon (variant.reader room) rest with
        | .error fault => .error fault
        | .ok (a, rest) => endTagged a rest
  | '"' :: rest, _ =>
    match scanString rest with
    | .error fault => .error fault
    | .ok (tag, rest) =>
      match variants.lookup tag with
      | some (.bare a) => .ok (a, rest)
      | _ => .error .malformed
  | _, _ => .error .malformed

/-! ### Texts -/

/-- A text that holds one value and blanks. -/
def whole (reader : Reader α) (cs : List Char) : Except Fault α :=
  match reader maxNesting cs with
  | .error fault => .error fault
  | .ok (a, rest) => if skipBlanks rest = [] then .ok a else .error .malformed

/-- A value that starts with `c` shows where it ends. The others end only where
    something follows that could not be a part of them. -/
def isDelimited (c : Char) : Bool :=
  c == '[' || c == '"' || c == '\x7b'

/-- The characters that may follow a value directly. -/
def endsValue (c : Char) : Bool :=
  isBlank c || c == '"' || c == '[' || c == ']' || c == '\x7b' || c == '\x7d' || c == ',' ||
    c == ':'

/-- The next value of a text that holds several, with the text after it; `none`
    at the end of the text. -/
def next (reader : Reader α) (cs : List Char) : Except Fault (Option (α × List Char)) :=
  match skipBlanks cs with
  | [] => .ok none
  | c :: rest =>
    match reader maxNesting (c :: rest) with
    | .error fault => .error fault
    | .ok (a, rest) =>
      if isDelimited c || (rest.head?.all endsValue) then .ok (some (a, rest))
      else .error .malformed

/-- The values of a text that holds several, up to the first that is none. Each
    takes at least one character, which bounds their number. -/
def valuesFrom (reader : Reader α) : Nat → List Char → List α × Option Fault
  | 0, _ => ([], none)
  | fuel + 1, cs =>
    match next reader cs with
    | .error fault => ([], some fault)
    | .ok none => ([], none)
    | .ok (some (a, rest)) =>
      let (others, fault) := valuesFrom reader fuel rest
      (a :: others, fault)

/-- The values of a text that holds several, with the fault of the first that is
    none. -/
def values (reader : Reader α) (cs : List Char) : List α × Option Fault :=
  valuesFrom reader (cs.length + 1) cs

end Reader

/-- The document that a text holds. -/
def read? (cs : List Char) : Except Fault Json :=
  Reader.whole document cs

end Json

end NestedColumns

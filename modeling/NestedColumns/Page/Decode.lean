import NestedColumns.Page.Basic

/-!
# Reading pages

A page that comes from a file may hold any bytes. Its checksum is checked first,
with the kind of the page and of the checksum; then its parts are taken apart
one after another, and each has to be there in full before it is looked at.
What is read in the end are the entries of each document, whose levels stay
within those of the column.

## Main definitions

* `PageError`: What is wrong with a page.
* `DataValue.decode`: A value and the bytes after it.
* `Page.verified`: The body of a page with its kind and checksum.
* `Page.decode`: The entries of a body.
-/

namespace NestedColumns

/-- What is wrong with a page. -/
inductive PageError where
  /-- No room for kind and checksum. -/
  | noTrailer
  | unknownKind
  | checksum (e : ChecksumError)
  /-- No room for the counts of documents and entries. -/
  | noHeader
  /-- The page is of a column with other levels. -/
  | levels (pageRep pageDef maxRep maxDef : Nat)
  | truncated
  /-- The entries of the documents are not all the entries. -/
  | counts
  /-- An entry has a level beyond those of the column. -/
  | levelTooHigh
  | valueTruncated
  | valueText
  | unknownTag (tag : Nat)
  | trailingBytes
  deriving DecidableEq, Repr

/-- The message of a page error. -/
def PageError.message : PageError → String
  | .noTrailer => undecodable "page is smaller than meta size"
  | .unknownKind => undecodable "expected valid page type"
  | .checksum e => e.message
  | .noHeader => undecodable "page is smaller than header size"
  | .levels pageRep pageDef maxRep maxDef =>
    undecodable ("page levels (" ++ toString pageRep ++ ", " ++ toString pageDef ++
      ") do not match column (" ++ toString maxRep ++ ", " ++ toString maxDef ++ ")")
  | .truncated => undecodable "page is truncated"
  | .counts => undecodable "page counts do not match value count"
  | .levelTooHigh => undecodable "level exceeds column maximum"
  | .valueTruncated => undecodable "unexpected end of value data"
  | .valueText => undecodable "invalid UTF-8 in string value"
  | .unknownTag tag => undecodable ("unknown value tag " ++ toString tag)
  | .trailingBytes => undecodable "trailing bytes in page"

/-- The first bytes of a value, which have to be there. -/
def DataValue.need (n : Nat) (bytes : List UInt8) :
    Except PageError (List UInt8 × List UInt8) :=
  match Bytes.split? n bytes with
  | some parts => .ok parts
  | none => .error .valueTruncated

/-- A value and the bytes after it. -/
def DataValue.decode (bytes : List UInt8) : Except PageError (DataValue × List UInt8) :=
  match bytes with
  | [] => .error .valueTruncated
  | tag :: rest =>
    match tag.toNat with
    | 0 => do
      let (b, rest) ← need 1 rest
      return (.bool (b != [0]), rest)
    | 1 => do
      let (n, rest) ← need 8 rest
      return (.int (UInt64.ofNat (Bytes.ofLittle n)).toInt64, rest)
    | 2 => do
      let (d, rest) ← need 8 rest
      return (.float ⟨UInt64.ofNat (Bytes.ofLittle d)⟩, rest)
    | 3 => do
      let (length, rest) ← need 4 rest
      let (text, rest) ← need (Bytes.ofLittle length) rest
      match Utf8.read? text with
      | some s => return (.string (String.ofList s), rest)
      | none => throw .valueText
    | other => .error (.unknownTag other)

namespace Page

/-- The body of a page that ends with its kind and checksum. -/
def verified (data : List UInt8) : Except PageError (List UInt8) :=
  if data.length < trailerSize then .error .noTrailer
  else do
    let body := data.take (data.length - trailerSize)
    let tail := data.drop (data.length - trailerSize)
    if Bytes.ofBig (tail.take 4) ≠ kind then throw .unknownKind
    let checksum ← (ChecksumType.ofCode (Bytes.ofBig ((tail.drop 4).take 4))).mapError .checksum
    (checksum.verify (data.take (data.length - checksumSize))
      (Bytes.ofBig (tail.drop 8))).mapError .checksum
    return body

/-- Numbers of four bytes each, least significant byte first. -/
def decodeCounts : Nat → List UInt8 → List Nat
  | 0, _ => []
  | n + 1, bytes => Bytes.ofLittle (bytes.take 4) :: decodeCounts n (bytes.drop 4)

/-- The entries of a page, by their levels; a value is taken for each entry at
    the highest definition level. All values have to be taken in the end. -/
def decodeTriples (layout : PageLayout) :
    List (Nat × Nat) → List UInt8 → Except PageError (List Triple)
  | [], [] => .ok []
  | [], _ :: _ => .error .trailingBytes
  | (rep, level) :: levels, values =>
    if layout.maxRep < rep ∨ layout.maxDef < level then .error .levelTooHigh
    else if level = layout.maxDef then do
      let (v, values) ← DataValue.decode values
      let rest ← decodeTriples layout levels values
      return ⟨some v, rep, level⟩ :: rest
    else do
      let rest ← decodeTriples layout levels values
      return .absent rep level :: rest

/-- Cut a list into pieces of given lengths. -/
def cut : List Nat → List α → List (List α)
  | [], _ => []
  | n :: counts, xs => xs.take n :: cut counts (xs.drop n)

/-- The entries of each document in the body of a page. -/
def decode (layout : PageLayout) (body : List UInt8) : Except PageError Page :=
  match body with
  | r₀ :: r₁ :: r₂ :: r₃ :: v₀ :: v₁ :: v₂ :: v₃ :: pageRep :: pageDef :: rest =>
    let records := Bytes.ofLittle [r₀, r₁, r₂, r₃]
    let entries := Bytes.ofLittle [v₀, v₁, v₂, v₃]
    if (pageRep.toNat, pageDef.toNat) ≠ (layout.maxRep, layout.maxDef) then
      .error (.levels pageRep.toNat pageDef.toNat layout.maxRep layout.maxDef)
    else
      let repSize := if layout.maxRep = 0 then 0 else entries
      if rest.length < 4 * records + repSize + entries then .error .truncated
      else
        let counts := decodeCounts records rest
        if counts.sum ≠ entries then .error .counts
        else do
          let rest := rest.drop (4 * records)
          let reps :=
            if layout.maxRep = 0 then List.replicate entries 0
            else (rest.take entries).map UInt8.toNat
          let rest := rest.drop repSize
          let levels := (rest.take entries).map UInt8.toNat
          let triples ← decodeTriples layout (reps.zip levels) (rest.drop entries)
          return cut counts triples
  | _ => .error .noHeader

end Page

end NestedColumns

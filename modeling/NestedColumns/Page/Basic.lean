import NestedColumns.Bytes
import NestedColumns.Checksum
import NestedColumns.Triple
import NestedColumns.Text.Utf8

/-!
# Pages

The unit in which a column file is read. A page holds the entries of a run of
whole documents: first how many entries each document has, then the levels of
all entries, then the values of those that have one. Repetition levels are left
out in columns without arrays, where they are all zero.

The body of a page is followed by its kind and a checksum of body and kind.

## Main definitions

* `Page`: The entries of each document of a run.
* `PageLayout`: The levels of the column, which every page repeats.
* `Page.body`: The bytes of a page.
* `Page.withChecksum`: The bytes with kind and checksum.
* `Page.size`: How many bytes that will be.
-/

namespace NestedColumns

/-- The entries of each document of a run. -/
abbrev Page := List (List Triple)

/-- The highest levels of a column. -/
structure PageLayout where
  maxRep : Nat
  maxDef : Nat
  deriving DecidableEq, Repr, Inhabited

namespace DataValue

/-- The bytes of a value: a tag for its type, then the value. -/
def encode : DataValue → List UInt8
  | .bool b => [0, if b then 1 else 0]
  | .int n => 1 :: Bytes.little 8 n.toUInt64.toNat
  | .float d => 2 :: Bytes.little 8 d.bits.toNat
  | .string s =>
    let bytes := Utf8.encode s.toList
    3 :: (Bytes.little 4 bytes.length ++ bytes)

/-- How many bytes a value takes. -/
def encodedSize : DataValue → Nat
  | .bool _ => 2
  | .int _ => 9
  | .float _ => 9
  | .string s => 5 + Utf8.byteLength s.toList

end DataValue

namespace Page

/-- The size of what is before the counts: how many documents and entries there
    are, and the levels of the column. -/
def headerSize : Nat := 10

/-- The size of what is behind the body: kind, kind of checksum, checksum. -/
def trailerSize : Nat := 16

/-- The size of the part of it that the checksum does not cover. -/
def checksumSize : Nat := 12

/-- The only kind of pages there is. -/
def kind : Nat := 1

/-- The repetition levels of a column without arrays are not written. -/
def repBytes (layout : PageLayout) (triples : List Triple) : List UInt8 :=
  if layout.maxRep = 0 then [] else triples.map fun t => UInt8.ofNat t.rep

/-- The bytes of the values of those entries that have one. -/
def valueBytes (triples : List Triple) : List UInt8 :=
  triples.flatMap fun t => (t.value.map DataValue.encode).getD []

/-- The bytes of a page. -/
def body (layout : PageLayout) (page : Page) : List UInt8 :=
  let triples := page.flatten
  Bytes.little 4 page.length ++ Bytes.little 4 triples.length ++
    [UInt8.ofNat layout.maxRep, UInt8.ofNat layout.maxDef] ++
    page.flatMap (fun triples => Bytes.little 4 triples.length) ++
    repBytes layout triples ++ triples.map (fun t => UInt8.ofNat t.level) ++
    valueBytes triples

/-- A body with its kind. -/
def withKind (body : List UInt8) : List UInt8 :=
  body ++ Bytes.big 4 kind

/-- A body with its kind and checksum. -/
def withChecksum (checksum : ChecksumType) (body : List UInt8) : List UInt8 :=
  let data := withKind body
  data ++ Bytes.big 4 checksum.code ++ Bytes.big 8 (checksum.sum data)

/-- How many bytes the entries of one document add to a page. -/
def recordSize (layout : PageLayout) (triples : List Triple) : Nat :=
  let levels := if layout.maxRep = 0 then 1 else 2
  4 + (triples.map fun t => levels + (t.value.map DataValue.encodedSize).getD 0).sum

/-- How many bytes a page takes with its kind and checksum. -/
def size (layout : PageLayout) (page : Page) : Nat :=
  headerSize + trailerSize + (page.map (recordSize layout)).sum

end Page

end NestedColumns

import NestedColumns.Page.Basic
import NestedColumns.PageIndex

/-!
# Column files

The entries of a column, document by document, become pages of about a target
size. A page takes in documents as long as it stays within the target; no
document is split, and a page holds at least one, however large it is.

## Main definitions

* `ColumnOptions`: The target size of pages and the kind of their checksums.
* `Column.pack`: The documents of each page.
* `Column.encode`: The column file and its index.
-/

namespace NestedColumns

/-- How column files are written. -/
structure ColumnOptions where
  targetPageSize : Nat
  checksum : ChecksumType
  deriving DecidableEq, Repr, Inhabited

/-- A column file and its index. -/
structure EncodedColumn where
  data : List UInt8
  index : List UInt8
  deriving DecidableEq, Repr, Inhabited

namespace Column

/-- The pages of the documents `rest` after those of the page `current`, which
    are in reverse order. `size` is that of the current page. -/
def packFrom (layout : PageLayout) (target : Nat) (current : Page) (size : Nat) :
    List (List Triple) → List Page
  | [] => if current.isEmpty then [] else [current.reverse]
  | record :: rest =>
    let more := Page.recordSize layout record
    -- A document that is too large for any page gets one of its own.
    if current.isEmpty ∨ size + more ≤ target then
      packFrom layout target (record :: current) (size + more) rest
    else
      current.reverse ::
        packFrom layout target [record] (Page.size layout [record]) rest

/-- The documents of each page. -/
def pack (layout : PageLayout) (target : Nat) (records : List (List Triple)) : List Page :=
  packFrom layout target [] (Page.size layout []) records

/-- The bytes of pages and their entries in the index, from an offset in the file
    and the number of a document. -/
def encodePages (layout : PageLayout) (checksum : ChecksumType) :
    Nat → Nat → List Page → List UInt8 × PageIndex
  | _, _, [] => ([], [])
  | offset, first, page :: rest =>
    let bytes := Page.withChecksum checksum (Page.body layout page)
    let (others, index) :=
      encodePages layout checksum (offset + bytes.length) (first + page.length) rest
    (bytes ++ others,
      ⟨offset, bytes.length, first, page.length, page.flatten.length⟩ :: index)

/-- The column file of documents and its index. -/
def encode (layout : PageLayout) (options : ColumnOptions) (records : List (List Triple)) :
    EncodedColumn :=
  let (data, index) :=
    encodePages layout options.checksum 0 0 (pack layout options.targetPageSize records)
  ⟨data, PageIndex.encode options.checksum index⟩

end Column

end NestedColumns

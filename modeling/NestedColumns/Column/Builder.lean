import NestedColumns.Column

/-!
# Building column files

How a column file comes about while documents arrive one at a time. The parts of the page
that is being built are in buffers of their own. Before a document is taken in, the size
that the page would then have is worked out from the sizes of the buffers and from those
of the values of the document, of which nothing is encoded yet. If that is more than the
target, the page is finished and the document begins another one.

## Main definitions

* `PageBuilder`: The buffers of a page, and how documents are added to them.
* `ColumnBuilder`: The finished pages, their entries, and the page that is being built.
-/

namespace NestedColumns

/-- A page that is being built. -/
structure PageBuilder where
  /-- How many entries each document has. -/
  counts : List Nat
  reps : List UInt8
  defs : List UInt8
  values : List UInt8
  deriving DecidableEq, Repr, Inhabited

namespace PageBuilder

/-- A page without documents. -/
def empty : PageBuilder := ⟨[], [], [], []⟩

/-- An entry goes into each of the buffers. -/
def push (layout : PageLayout) (b : PageBuilder) (t : Triple) : PageBuilder :=
  { b with
    reps := if layout.maxRep = 0 then b.reps else b.reps ++ [UInt8.ofNat t.rep]
    defs := b.defs ++ [UInt8.ofNat t.level]
    values := b.values ++ (t.value.map DataValue.encode).getD [] }

/-- The page with one more document. -/
def append (layout : PageLayout) (b : PageBuilder) (record : List Triple) : PageBuilder :=
  record.foldl (push layout) { b with counts := b.counts ++ [record.length] }

/-- How long the page would be if it was finished now. -/
def estimatedSize (b : PageBuilder) : Nat :=
  Page.headerSize + b.counts.length * 4 + b.reps.length + b.defs.length + b.values.length +
    Page.trailerSize

/-- Whether the page has to be finished before the next document. -/
def shouldFinish (layout : PageLayout) (target : Nat) (b : PageBuilder) (next : List Triple) :
    Bool :=
  !b.counts.isEmpty && decide (target < b.estimatedSize + Page.recordSize layout next)

/-- The bytes of the finished page. -/
def finish (layout : PageLayout) (checksum : ChecksumType) (b : PageBuilder) : List UInt8 :=
  Page.withChecksum checksum
    (Bytes.little 4 b.counts.length ++ Bytes.little 4 b.defs.length ++
      [UInt8.ofNat layout.maxRep, UInt8.ofNat layout.maxDef] ++
      b.counts.flatMap (Bytes.little 4) ++ b.reps ++ b.defs ++ b.values)

end PageBuilder

/-- A column file that is being built. -/
structure ColumnBuilder where
  /-- The finished pages. -/
  data : List UInt8
  current? : Option PageBuilder
  /-- The number of the first document of the page that is being built. -/
  firstRecord : Nat
  index : PageIndex
  deriving DecidableEq, Repr, Inhabited

namespace ColumnBuilder

/-- A file without documents. -/
def empty : ColumnBuilder := ⟨[], none, 0, []⟩

variable (layout : PageLayout) (options : ColumnOptions)

/-- The page that is being built is finished, if there is one. -/
def finishPage (b : ColumnBuilder) : ColumnBuilder :=
  match b.current? with
  | none => b
  | some page =>
    let bytes := page.finish layout options.checksum
    { data := b.data ++ bytes
      current? := none
      firstRecord := b.firstRecord + page.counts.length
      index := b.index ++
        [⟨b.data.length, bytes.length, b.firstRecord, page.counts.length, page.defs.length⟩] }

/-- The page that is finished to make room for a document. -/
def full? (b : ColumnBuilder) (record : List Triple) : Option PageBuilder :=
  b.current?.filter (·.shouldFinish layout options.targetPageSize record)

/-- The file with one more document. -/
def append (b : ColumnBuilder) (record : List Triple) : ColumnBuilder :=
  let b := if (full? layout options b record).isSome then finishPage layout options b else b
  { b with current? := some ((b.current?.getD .empty).append layout record) }

/-- The file of all documents so far, and its index. -/
def finish (b : ColumnBuilder) : EncodedColumn :=
  let b := finishPage layout options b
  ⟨b.data, PageIndex.encode options.checksum b.index⟩

/-- The pages that are finished while documents are added, and with the file. -/
def finishedPages (b : ColumnBuilder) : List (List Triple) → List PageBuilder
  | [] => b.current?.toList
  | record :: rest =>
    (full? layout options b record).toList ++ finishedPages (append layout options b record) rest

end ColumnBuilder

end NestedColumns

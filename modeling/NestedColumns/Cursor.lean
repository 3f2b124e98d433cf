import NestedColumns.Volume

/-!
# Cursors

A cursor goes through one column of a table, document by document, over its
chunks. Chunks that do not have the column count their documents all the same.
It moves only forwards, and opens a chunk when it reaches it.

A chunk whose column cannot be opened is passed over by the next step, while a
page that cannot be read is tried again. Only opening a column can panic.

## Main definitions

* `ColumnReader`: What is left of one column file.
* `Cursor`: What is left of a column.
* `Cursor.next`: The entries of the next document.
-/

namespace NestedColumns

/-- What is left of one column file: the pages not read yet with their numbers,
    and the documents of the last page read. -/
structure ColumnReader where
  column : OpenColumn
  layout : PageLayout
  pages : List (Nat × PageEntry)
  records : List (List Triple)
  deriving Inhabited

/-- Where a cursor stands in its current chunk. -/
inductive CursorState where
  | idle
  /-- The chunk does not have the column, and has so many documents left. -/
  | missing (remaining : Nat)
  | reading (reader : ColumnReader)
  deriving Inhabited

/-- What is left of a column. -/
structure Cursor where
  column : Nat
  layout : PageLayout
  chunks : List DiskChunk
  state : CursorState
  deriving Inhabited

namespace ColumnReader

/-- A column file of which nothing was read. -/
def ofColumn (column : OpenColumn) (layout : PageLayout) : ColumnReader :=
  ⟨column, layout, column.index.zipIdx.map fun (entry, i) => (i, entry), []⟩

/-- The next document, after those of the pages `pages`; `none` at the end. -/
def nextFrom (v : Volume) (column : OpenColumn) (layout : PageLayout) :
    List (Nat × PageEntry) → List (List Triple) →
      Volume × Except StoreError (Option (List Triple)) × ColumnReader
  | pages, record :: rest => (v, .ok (some record), ⟨column, layout, pages, rest⟩)
  | [], [] => (v, .ok none, ⟨column, layout, [], []⟩)
  | (number, entry) :: pages, [] =>
    let stay : ColumnReader := ⟨column, layout, (number, entry) :: pages, []⟩
    match v.page column number entry with
    -- The page is not passed over: the next step tries it again.
    | (v, .error e) => (v, .error e, stay)
    | (v, .ok body) =>
      match Page.decode layout body with
      | .error e => (v, .error (.page e), stay)
      | .ok records => nextFrom v column layout pages records

/-- The next document of a column file. -/
def next (r : ColumnReader) (v : Volume) :
    Volume × Except StoreError (Option (List Triple)) × ColumnReader :=
  nextFrom v r.column r.layout r.pages r.records

end ColumnReader

namespace Cursor

/-- A cursor before the first document. -/
def ofChunks (column : Nat) (layout : PageLayout) (chunks : List DiskChunk) : Cursor :=
  ⟨column, layout, chunks, .idle⟩

/-- The next document of the chunks that are left. -/
def nextChunk (v : Volume) (column : Nat) (layout : PageLayout) :
    List DiskChunk → Volume × Except (Halt StoreError) (Option (List Triple)) × Cursor
  | [] => (v, .ok none, ⟨column, layout, [], .idle⟩)
  | chunk :: chunks =>
    match v.openColumn chunk column with
    | .error e => (v, .error e, ⟨column, layout, chunks, .idle⟩)
    | .ok none =>
      match chunk.info.recordCount with
      | 0 => nextChunk v column layout chunks
      | remaining + 1 => (v, .ok (some []), ⟨column, layout, chunks, .missing remaining⟩)
    | .ok (some c) =>
      match (ColumnReader.ofColumn c layout).next v with
      | (v, .ok none, _) => nextChunk v column layout chunks
      | (v, result, reader) =>
        (v, result.mapError .failed, ⟨column, layout, chunks, .reading reader⟩)

/-- The entries of the next document; `none` after the last. -/
def next (c : Cursor) (v : Volume) :
    Volume × Except (Halt StoreError) (Option (List Triple)) × Cursor :=
  match c.state with
  | .missing (remaining + 1) =>
    (v, .ok (some []), ⟨c.column, c.layout, c.chunks, .missing remaining⟩)
  | .reading reader =>
    match reader.next v with
    | (v, .ok none, _) => nextChunk v c.column c.layout c.chunks
    | (v, result, reader) =>
      (v, result.mapError .failed, ⟨c.column, c.layout, c.chunks, .reading reader⟩)
  | _ => nextChunk v c.column c.layout c.chunks

end Cursor

end NestedColumns

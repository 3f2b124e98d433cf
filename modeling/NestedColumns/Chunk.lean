import NestedColumns.Column
import NestedColumns.Shredding

/-!
# Chunks

Documents are collected in memory and written together, as a chunk: for each
column that one of them touched, a column file and its index. A document that
did not touch a column has no entries in it; neither do the documents before the
first that did and after the last, which the buffer does not even mention.

## Main definitions

* `ChunkBuffer`: Shredded documents on their way to a chunk.
* `ChunkBuffer.append`, `ChunkBuffer.estimatedSize`: Adding a document.
* `ChunkBuffer.encode`: The files of the chunk.
-/

namespace NestedColumns

/-- Shredded documents on their way to a chunk. -/
structure ChunkBuffer where
  recordCount : Nat
  /-- For each column the entries of each document, up to the last that touched
      it. -/
  columns : IdMap (Array (List Triple))
  /-- How much room the documents take in memory, roughly. -/
  estimatedSize : Nat
  deriving Inhabited

/-- The files of a chunk by column. -/
structure EncodedChunk where
  recordCount : Nat
  columns : List (Nat × EncodedColumn)
  deriving Inhabited

namespace ChunkBuffer

/-- The buffer without documents. -/
def empty : ChunkBuffer := ⟨0, .empty, 0⟩

/-- No document is waiting. -/
def isEmpty (b : ChunkBuffer) : Bool :=
  b.recordCount == 0

/-- The documents of a column, filled up to `count` with documents that do not
    touch it. -/
def padTo (count : Nat) (records : Array (List Triple)) : Array (List Triple) :=
  records ++ Array.replicate (count - records.size) []

/-- The room that a stream takes, and a count. -/
def streamSize (stream : List Triple) : Nat :=
  4 + (stream.map Triple.estimatedSize).sum

/-- The columns with the streams of one more document. -/
def addStreams (count : Nat) (columns : IdMap (Array (List Triple)))
    (streams : Shredding.Streams) : IdMap (Array (List Triple)) :=
  streams.entries.foldl
    (fun columns (id, stream) =>
      columns.insert id ((padTo count ((columns.find? id).getD #[])).push stream)) columns

/-- Add a document. -/
def append (b : ChunkBuffer) (streams : Shredding.Streams) : ChunkBuffer :=
  ⟨b.recordCount + 1, addStreams b.recordCount b.columns streams,
    b.estimatedSize + (streams.values.map streamSize).sum⟩

/-- The leaf of a column. -/
def leaf? (schema : Schema) (column : Nat) : Option Schema.LeafColumn :=
  schema.leaves.reverse.find? (·.column = column)

/-- The files of the columns. The levels are those of the schema; a column that
    it does not have cannot be written, and its number is the error. -/
def encodeColumns (b : ChunkBuffer) (schema : Schema) (options : ColumnOptions) :
    List (Nat × Array (List Triple)) → Except Nat (List (Nat × EncodedColumn))
  | [] => .ok []
  | (id, records) :: rest =>
    match leaf? schema id with
    | none => .error id
    | some leaf => do
      let file :=
        Column.encode ⟨leaf.maxRep, leaf.maxDef⟩ options (padTo b.recordCount records).toList
      let others ← encodeColumns b schema options rest
      return (id, file) :: others

/-- The files of the chunk. -/
def encode (b : ChunkBuffer) (schema : Schema) (options : ColumnOptions) :
    Except Nat EncodedChunk :=
  (encodeColumns b schema options b.columns.entries).map fun columns => ⟨b.recordCount, columns⟩

end ChunkBuffer

/-- The numbers of the columns that a chunk has. -/
def EncodedChunk.columnIds (c : EncodedChunk) : List Nat :=
  c.columns.map (·.1)

end NestedColumns

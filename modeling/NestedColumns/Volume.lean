import NestedColumns.Store.Error
import Std.Data.HashMap

/-!
# Reading column files

A volume is a disk together with the pages that were read from it. A page is
checked when it is read and kept afterwards, under the chunk, the column and its
place, so it is read once while the volume is in use. To make room for others it
may be forgotten at any time, and is then read again.

## Main definitions

* `PageKey`, `Volume`: A page's place, and a disk with its pages.
* `DiskChunk`, `OpenColumn`: A chunk in its directory, and a column file of it.
* `Volume.openColumn`: Opening a column of a chunk.
* `Volume.page`: The body of a page.
* `Volume.forget`: A volume without some of its pages.
-/

namespace NestedColumns

/-- The place of a page. -/
structure PageKey where
  chunk : Nat
  column : Nat
  page : Nat
  deriving DecidableEq, Repr, Hashable

/-- A disk with the pages that were read from it. -/
structure Volume where
  disk : Disk
  backend : ReadBackend
  /-- How many pages may be kept; none are if it is zero, and else some may be
      forgotten. -/
  capacity : Nat
  pages : Std.HashMap PageKey (List UInt8)

/-- A committed chunk and the directory it is in. -/
structure DiskChunk where
  directory : Path
  info : ChunkInfo
  deriving Repr, Inhabited

/-- A column file that is open, with its index. A directory can be opened in
    place of a file, but not read. -/
structure OpenColumn where
  chunk : Nat
  column : Nat
  index : PageIndex
  file : Option Nat
  deriving Repr, Inhabited

namespace DiskChunk

/-- The path of the file of a column. -/
def dataPath (c : DiskChunk) (column : Nat) : Path :=
  c.directory ++ [toString column ++ ".col"]

/-- The path of the index of a column. -/
def indexPath (c : DiskChunk) (column : Nat) : Path :=
  c.directory ++ [toString column ++ ".idx"]

end DiskChunk

namespace Volume

/-- A disk of which no page was read. -/
def ofDisk (disk : Disk) (backend : ReadBackend) (capacity : Nat) : Volume :=
  ⟨disk, backend, capacity, ∅⟩

instance : Inhabited Volume := ⟨.ofDisk .empty .positioned 0⟩

/-- Another disk with the same pages. -/
def setDisk (v : Volume) (disk : Disk) : Volume :=
  ⟨disk, v.backend, v.capacity, v.pages⟩

/-- Open a column of a chunk; `none` if no document of the chunk touched it. Its
    index has to cover the documents of the chunk. -/
def openColumn (v : Volume) (chunk : DiskChunk) (column : Nat) :
    Except (Halt StoreError) (Option OpenColumn) :=
  if !chunk.info.columns.contains column then .ok none
  else do
    let bytes ← (v.disk.read (chunk.indexPath column)).mapError fun e => .failed (.file e)
    let index ← (PageIndex.decode bytes).mapError (.map .index)
    if PageIndex.recordCount index ≠ chunk.info.recordCount then
      throw (.failed (.coverage column chunk.info.chunk (PageIndex.recordCount index)
        chunk.info.recordCount))
    match v.disk.node? (chunk.dataPath column) with
    | none => throw (.failed (.file .notFound))
    | some .directory => return some ⟨chunk.info.chunk, column, index, none⟩
    | some (.file number) => return some ⟨chunk.info.chunk, column, index, some number⟩

/-- The bytes of an open file from a position. Moving to a position that no file
    can have fails even if nothing is to be read there. -/
def readRange (v : Volume) (file : Option Nat) (offset length : Nat) :
    Except FileError (List UInt8) :=
  if 2 ^ 63 ≤ offset ∧ (v.backend = .sequential ∨ length ≠ 0) then .error .badPosition
  else if length = 0 then .ok []
  else
    match file with
    | none => .error .isADirectory
    | some number =>
      let bytes := v.disk.contentsOf number
      if offset + length ≤ bytes.length then .ok ((bytes.drop offset).take length)
      else .error .endOfFile

/-- Read a page from its file and check it. -/
def loadPage (v : Volume) (file : Option Nat) (entry : PageEntry) :
    Except StoreError (List UInt8) := do
  let data ← (v.readRange file entry.offset entry.length).mapError .file
  (Page.verified data).mapError .page

/-- The body of a page: the one that was kept, or the one in the file, which is
    kept from then on. A page that cannot be read is not kept. -/
def page (v : Volume) (column : OpenColumn) (number : Nat) (entry : PageEntry) :
    Volume × Except StoreError (List UInt8) :=
  let key : PageKey := ⟨column.chunk, column.column, number⟩
  match v.pages[key]? with
  | some body => (v, .ok body)
  | none =>
    match v.loadPage column.file entry with
    | .error e => (v, .error e)
    | .ok body =>
      -- Pages never change once they are committed, so what is kept stays right.
      if v.capacity = 0 then (v, .ok body)
      else (⟨v.disk, v.backend, v.capacity, v.pages.insert key body⟩, .ok body)

/-- The volume without the pages of some places. Which pages go, and when, is left
    to whoever keeps them. -/
def forget (v : Volume) (keys : List PageKey) : Volume :=
  ⟨v.disk, v.backend, v.capacity, keys.foldl (fun pages key => pages.erase key) v.pages⟩

end Volume

end NestedColumns

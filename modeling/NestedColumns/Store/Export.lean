import NestedColumns.Disk.Walk
import NestedColumns.RecordReader
import NestedColumns.Store.Basic

/-!
# Reading tables

The records of a table are read at some paths, one after another, or all of them
as one JSON array. A reader sees what was committed when it was made, and nothing
that is committed later. A file with the array appears in full or not at all: it
is written under a hidden name and renamed.

## Main definitions

* `Record.printAll`: Records as one array.
* `Record.writeEach`: Records written one after another.
* `Store.reader`: A reader of a table.
* `Store.records`: All records of a table.
* `Store.exportText`: All records as one array.
* `Store.reveal`: A hidden file, renamed.
* `Store.exportFile`: The array in a file.
-/

namespace NestedColumns

/-- The text of records as an array. -/
def Record.printAll (records : List Record) : List Char :=
  '[' :: (Json.commaSeparated (records.map Record.print) ++ [']'])

/-- The texts of records written one after another, with commas between them, and
    how many there are then; `count` were written before. -/
def Record.writeEach (count : Nat) : List Record → List Char × Nat
  | [] => ([], count)
  | r :: rest =>
    let (text, total) := writeEach (count + 1) rest
    ((if 0 < count then [','] else []) ++ r.print ++ text, total)

namespace Store

/-- The chunks of a table where they are on the disk. -/
def diskChunks (s : Store) (t : Table) : List DiskChunk :=
  t.chunks.map fun c => ⟨s.options.chunkPath t.ref c.chunk, c⟩

/-- A reader of a table at some paths; of all fields if there are none. -/
def reader (s : Store) (database table : String) (paths : List String) :
    Except EngineError RecordReader :=
  match s.tableNamed database table with
  | .error e => .error (.store e)
  | .ok t =>
    match Projection.resolve t.schema paths with
    | .error e => .error (.plan e)
    | .ok projection =>
      let cursors := projection.reads.map fun column =>
        Cursor.ofChunks column.column ⟨column.maxRep, column.maxDef⟩ (s.diskChunks t)
      .ok ⟨projection, cursors, t.recordCount, 0⟩

/-- All records that a reader has left. -/
def drain (s : Store) (r : RecordReader) : Store × Except (Halt StoreError) (List Record) :=
  let (v, result) := r.all s.volume
  (s.setVolume v, result)

/-- All records of a table. -/
def records (s : Store) (database table : String) (paths : List String) :
    Store × Except (Halt EngineError) (List Record) :=
  match s.reader database table paths with
  | .error e => (s, .error (.failed e))
  | .ok r =>
    let (s, result) := s.drain r
    (s, result.mapError (.map .store))

/-- All records of a table as one array. -/
def exportText (s : Store) (database table : String) (paths : List String) :
    Store × Except (Halt EngineError) (List Char) :=
  let (s, result) := s.records database table paths
  (s, result.map Record.printAll)

/-- Write the records that a reader has left to a file. The answer is their
    number. -/
def writeRecords (s : Store) (r : RecordReader) (path : Path) :
    Store × Except (Halt StoreError) Nat :=
  -- A file that cannot be written is found before any record is read.
  match s.perform (.replaceFile path []) with
  | (s, .error e) => (s, .error (.failed e))
  | (s, .ok _) =>
    match s.drain r with
    | (s, .error e) => (s, .error e)
    | (s, .ok records) =>
      let (text, count) := Record.writeEach 0 records
      match s.perform (.replaceFile path (Utf8.encode ('[' :: (text ++ [']'])))) with
      | (s, .error e) => (s, .error (.failed e))
      | (s, .ok _) => (s, .ok count)

/-- Put a hidden file that is written in its place at the end of a route. -/
def reveal (s : Store) (hidden : Path) (output : Route) : Store × Except StoreError Unit :=
  match s.disk.place output with
  | .error e => (s, .error (.file e))
  | .ok path => s.perform (.rename hidden path)

/-- Write all records of a table to a file as one array. The answer is their
    number. If they cannot be written, the hidden file is removed; if it cannot be
    renamed, it stays, and so it does after a panic. -/
def exportFile (s : Store) (database table : String) (paths : List String) (output : Route) :
    Store × Except (Halt EngineError) Nat :=
  match s.reader database table paths with
  | .error e => (s, .error (.failed e))
  | .ok r =>
    match s.disk.place output.hiddenSibling with
    | .error e => (s, .error (.failed (.store (.file e))))
    | .ok hidden =>
      match s.writeRecords r hidden with
      | (s, .error (.failed e)) =>
        (s.setDisk (s.disk.removeFile hidden).1, .error (.failed (.store e)))
      | (s, .error .panicked) => (s, .error .panicked)
      | (s, .ok count) =>
        match s.reveal hidden output with
        | (s, .error e) => (s, .error (.failed (.store e)))
        | (s, .ok _) => (s, .ok count)

end Store

end NestedColumns

import NestedColumns.Disk
import NestedColumns.Log.Replay

/-!
# The log file

The log is kept open while its store is. A transaction is written behind the
last one that is known to be complete; if its writing fails, the file is cut
back to that point, so that a part of it is never followed by another
transaction.

## Main definitions

* `LogFile`: The open file, the position in it, and the committed length.
* `LogFile.openAt`: Opening and replaying it.
* `LogFile.append`: Writing a transaction.
-/

namespace NestedColumns

/-- The log while it is open. -/
structure LogFile where
  path : Path
  file : Nat
  /-- Where the next byte is written. -/
  position : Nat
  /-- The length up to the end of the last complete transaction. -/
  committed : Nat
  deriving DecidableEq, Repr, Inhabited

/-- Why the log cannot be used. -/
inductive LogFileError where
  | file (e : FileError)
  | log (e : LogError)
  deriving DecidableEq, Repr

namespace LogFile

/-- The number of the log's file, which is made if it is not there. -/
def openFile (d : Disk) (path : Path) : Disk × Except FileError Nat :=
  match d.node? path with
  | some .directory => (d, .error .isADirectory)
  | some (.file number) => (d, .ok number)
  | none =>
    match d.perform (.createFile path []) with
    | (d, .error e) => (d, .error e)
    | (d, .ok _) =>
      match d.node? path with
      | some (.file number) => (d, .ok number)
      | _ => (d, .error .notFound)

/-- Replay the log of an open file, and cut off what follows the last complete
    transaction. -/
def replay (d : Disk) (path : Path) (file : Nat) :
    Disk × Except LogFileError (LogFile × List Operation) :=
  let bytes := d.contentsOf file
  match Replay.ofBytes bytes with
  | .error e => (d, .error (.log e))
  | .ok r =>
    let log : LogFile := ⟨path, file, r.committed, r.committed⟩
    if r.committed < bytes.length then
      match d.perform (.truncate file path r.committed) with
      | (d, .error e) => (d, .error (.file e))
      | (d, .ok _) => (d, .ok (log, r.operations))
    else (d, .ok (log, r.operations))

/-- Open the log and replay it. -/
def openAt (d : Disk) (path : Path) : Disk × Except LogFileError (LogFile × List Operation) :=
  match openFile d path with
  | (d, .error e) => (d, .error (.file e))
  | (d, .ok file) => replay d path file

/-- How many bytes of a write took place on a disk that notes them. -/
def writtenBytes (before after : Disk) : Nat :=
  match after.performed.drop before.performed.length with
  | [.writeAt _ _ _ bytes] => bytes.length
  | _ => 0

/-- Write a transaction behind the last one. If that fails, the file is cut back
    to the last complete transaction. -/
def append (log : LogFile) (d : Disk) (entries : List LogEntry) :
    Disk × Except FileError Unit × LogFile :=
  let bytes := Utf8.encode (LogEntry.transaction entries)
  match d.perform (.writeAt log.file log.path log.position bytes) with
  | (after, .ok _) =>
    (after, .ok (),
      ⟨log.path, log.file, log.position + bytes.length, log.committed + bytes.length⟩)
  | (after, .error e) =>
    -- A part of the transaction may be in the file by now.
    let position := log.position + writtenBytes d after
    match after.perform (.truncate log.file log.path log.committed) with
    | (after, .ok _) => (after, .error e, ⟨log.path, log.file, log.committed, log.committed⟩)
    | (after, .error _) => (after, .error e, ⟨log.path, log.file, position, log.committed⟩)

end LogFile

end NestedColumns

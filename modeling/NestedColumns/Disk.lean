import NestedColumns.IdMap
import NestedColumns.Path

/-!
# The disk

What a store keeps lies in directories and files. A disk is a value: the paths
that exist, each a directory or a file, and the contents of the files by their
number. A file that is open keeps its number, so it can be read and written
after its path is gone, as an open file can.

A disk changes by single effects, one after another. Each may fail, because the
disk as it is does not admit it or because the plan of faults says so; a plan
that fails everything from some effect on is a crash. A write that fails may
have written a part. The effects that took place are kept in order.

## Main definitions

* `Disk`: Paths, contents, and the plan of faults.
* `Effect`, `Disk.apply`: A single change.
* `Disk.perform`: A change that may fail.
* `Disk.removeTree`: A directory with all it contains, removed path by path.
-/

namespace NestedColumns

/-- What is at a path. -/
inductive DiskNode where
  | directory
  | file (number : Nat)
  deriving DecidableEq, Repr, Inhabited

/-- Why a change or a look at the disk fails. -/
inductive FileError where
  | notFound
  | alreadyExists
  | notADirectory
  | isADirectory
  | notEmpty
  /-- A file ends before what is to be read of it. -/
  | endOfFile
  /-- A position that no file can have. -/
  | badPosition
  /-- A name that no file can have. -/
  | badName
  /-- A directory that cannot be replaced or removed where it is. -/
  | busy
  /-- What is read as text is none. -/
  | notText
  /-- The device failed. -/
  | device
  deriving DecidableEq, Repr

/-- The message of a file error. -/
def FileError.message : FileError → String
  | .notFound => "no such file or directory"
  | .alreadyExists => "file exists"
  | .notADirectory => "not a directory"
  | .isADirectory => "is a directory"
  | .notEmpty => "directory not empty"
  | .endOfFile => "failed to fill whole buffer"
  | .badPosition => "invalid argument"
  | .badName => "invalid file name"
  | .busy => "device or resource busy"
  | .notText => "stream did not contain valid UTF-8"
  | .device => "input/output error"

/-- A single change of a disk. -/
inductive Effect where
  /-- A directory, and those above it that are missing. -/
  | makeDirectories (path : Path)
  /-- A file that must not exist yet. -/
  | createFile (path : Path) (bytes : List UInt8)
  /-- A file that may exist and loses its contents then. -/
  | replaceFile (path : Path) (bytes : List UInt8)
  /-- Bytes at a position of an open file. -/
  | writeAt (file : Nat) (path : Path) (position : Nat) (bytes : List UInt8)
  /-- An open file has another length: bytes are cut off, or zeros added. -/
  | truncate (file : Nat) (path : Path) (length : Nat)
  /-- A file, or a directory that is empty, is gone. -/
  | remove (path : Path)
  /-- A file is at another path, in place of one that may be there. -/
  | rename (source target : Path)
  deriving DecidableEq, Repr

/-- Directories and files. Paths above a path come before it. -/
structure Disk where
  entries : List (Path × DiskNode)
  contents : IdMap (List UInt8)
  nextFile : Nat
  /-- How many effects were attempted. -/
  attempts : Nat
  /-- The attempts that fail, with the number of bytes that are still written. -/
  faults : Nat → Option Nat
  /-- The effects that took place, in order. -/
  performed : List Effect

namespace Disk

/-- A disk with nothing on it, whose attempts do not fail. -/
def empty : Disk := ⟨[], .empty, 0, 0, fun _ => none, []⟩

instance : Inhabited Disk := ⟨empty⟩

/-- What is at a path. What is there whatever the disk holds is a directory. -/
def node? (d : Disk) (path : Path) : Option DiskNode :=
  if path.isGiven then some .directory else d.entries.lookup path

/-- The contents of an open file. -/
def contentsOf (d : Disk) (file : Nat) : List UInt8 :=
  (d.contents.find? file).getD []

/-- The contents of the file at a path. -/
def read (d : Disk) (path : Path) : Except FileError (List UInt8) :=
  match d.node? path with
  | none => .error .notFound
  | some .directory => .error .isADirectory
  | some (.file number) => .ok (d.contentsOf number)

/-- The names in a directory, with what they are. -/
def list (d : Disk) (path : Path) : List (String × DiskNode) :=
  d.entries.filterMap fun (p, node) =>
    match p.getLast? with
    | some name => if p.dropLast = path then some (name, node) else none
    | none => none

/-- The directory that a path is to be made in is there. -/
def checkParent (d : Disk) (path : Path) : Except FileError Unit :=
  match d.node? path.dropLast with
  | some .directory => .ok ()
  | some (.file _) => .error .notADirectory
  | none => .error .notFound

/-- A new file. -/
def addFile (d : Disk) (path : Path) (bytes : List UInt8) : Disk :=
  ⟨d.entries ++ [(path, .file d.nextFile)], d.contents.insert d.nextFile bytes,
    d.nextFile + 1, d.attempts, d.faults, d.performed⟩

/-- Other paths. -/
def setEntries (d : Disk) (entries : List (Path × DiskNode)) : Disk :=
  ⟨entries, d.contents, d.nextFile, d.attempts, d.faults, d.performed⟩

/-- Other contents of a file. -/
def setContents (d : Disk) (file : Nat) (bytes : List UInt8) : Disk :=
  ⟨d.entries, d.contents.insert file bytes, d.nextFile, d.attempts, d.faults, d.performed⟩

/-- The directories `done ++ [name₁]`, `done ++ [name₁, name₂]`, … -/
def makeFrom (d : Disk) (done : Path) : Path → Except FileError Disk
  | [] => .ok d
  | name :: rest =>
    let path := done ++ [name]
    match d.node? path with
    | some .directory => makeFrom d path rest
    | some (.file _) => .error (if rest.isEmpty then .alreadyExists else .notADirectory)
    | none => makeFrom (d.setEntries (d.entries ++ [(path, .directory)])) path rest

/-- Bytes with others written over them from a position on. What is between the
    end and the position becomes zero. -/
def overwrite (bytes : List UInt8) (position : Nat) (new : List UInt8) : List UInt8 :=
  bytes.take position ++ List.replicate (position - bytes.length) 0 ++ new ++
    bytes.drop (position + new.length)

/-- Bytes cut off, or filled with zeros, to a length. -/
def resize (bytes : List UInt8) (length : Nat) : List UInt8 :=
  bytes.take length ++ List.replicate (length - bytes.length) 0

/-- The disk after a change, if the disk admits it. -/
def apply (d : Disk) : Effect → Except FileError Disk
  | .makeDirectories path => makeFrom d [] path
  | .createFile path bytes =>
    match d.node? path, d.checkParent path with
    | some _, _ => .error .alreadyExists
    | none, .error e => .error e
    | none, .ok _ => .ok (d.addFile path bytes)
  | .replaceFile path bytes =>
    match d.node? path, d.checkParent path with
    | some .directory, _ => .error .isADirectory
    | some (.file number), _ => .ok (d.setContents number bytes)
    | none, .error e => .error e
    | none, .ok _ => .ok (d.addFile path bytes)
  | .writeAt file _ position bytes =>
    .ok (d.setContents file (overwrite (d.contentsOf file) position bytes))
  | .truncate file _ length =>
    .ok (d.setContents file (resize (d.contentsOf file) length))
  | .remove path =>
    match d.node? path with
    | none => .error .notFound
    | some .directory =>
      if (d.list path).isEmpty then .ok (d.setEntries (d.entries.filter (·.1 ≠ path)))
      else .error .notEmpty
    | some (.file _) => .ok (d.setEntries (d.entries.filter (·.1 ≠ path)))
  | .rename source target =>
    match d.node? source, d.node? target, d.checkParent target with
    | none, _, _ => .error .notFound
    | some .directory, _, _ => .error .isADirectory
    | some (.file _), some .directory, _ => .error .isADirectory
    | some (.file _), none, .error e => .error e
    | some (.file number), _, _ =>
      .ok (d.setEntries ((d.entries.filter fun (p, _) => p ≠ source && p ≠ target) ++
        [(target, .file number)]))

/-- The part of a change that took place when its device failed after `written`
    bytes. Only writes have parts. -/
def Effect.torn (written : Nat) : Effect → Option Effect
  | .createFile path bytes => some (.createFile path (bytes.take written))
  | .replaceFile path bytes => some (.replaceFile path (bytes.take written))
  | .writeAt file path position bytes => some (.writeAt file path position (bytes.take written))
  | _ => none

/-- The disk after one more attempt. -/
def attempted (d : Disk) : Disk :=
  ⟨d.entries, d.contents, d.nextFile, d.attempts + 1, d.faults, d.performed⟩

/-- The disk with a change in its history. -/
def noted (d : Disk) (e : Effect) : Disk :=
  ⟨d.entries, d.contents, d.nextFile, d.attempts, d.faults, d.performed ++ [e]⟩

/-- Attempt a change. -/
def perform (d : Disk) (e : Effect) : Disk × Except FileError Unit :=
  let before := d.attempted
  match d.faults d.attempts with
  | none =>
    match before.apply e with
    | .ok after => (after.noted e, .ok ())
    | .error fault => (before, .error fault)
  | some written =>
    match Effect.torn written e with
    | none => (before, .error .device)
    | some part =>
      match before.apply part with
      | .ok after => (after.noted part, .error .device)
      | .error fault => (before, .error fault)

/-- Attempt changes one after another, up to the first that fails. -/
def performAll (d : Disk) : List Effect → Disk × Except FileError Unit
  | [] => (d, .ok ())
  | e :: rest =>
    match d.perform e with
    | (d, .ok _) => performAll d rest
    | (d, .error fault) => (d, .error fault)

/-- The paths at and below a path, the innermost first. -/
def pathsBelow (d : Disk) (path : Path) : List Path :=
  ((d.entries.map (·.1)).filter (path.isPrefixOf ·)).reverse

/-- Remove a directory with all it contains, path by path. What is gone when a
    removal fails stays so. -/
def removeTree (d : Disk) (path : Path) : Disk × Except FileError Unit :=
  match d.node? path with
  | none => (d, .error .notFound)
  | some (.file _) => (d, .error .notADirectory)
  | some .directory => d.performAll ((d.pathsBelow path).map .remove)

/-- Remove several directories with all they contain, up to the first that
    fails. -/
def removeTrees (d : Disk) : List Path → Disk × Except FileError Unit
  | [] => (d, .ok ())
  | path :: rest =>
    match d.removeTree path with
    | (d, .ok _) => removeTrees d rest
    | (d, .error e) => (d, .error e)

/-- Remove several directories with all they contain, whatever fails. -/
def discardTrees (d : Disk) (paths : List Path) : Disk :=
  paths.foldl (fun d path => (d.removeTree path).1) d

/-- Remove a file. Directories are left alone. -/
def removeFile (d : Disk) (path : Path) : Disk × Except FileError Unit :=
  match d.node? path with
  | none => (d, .error .notFound)
  | some .directory => (d, .error .isADirectory)
  | some (.file _) => d.perform (.remove path)

end Disk

end NestedColumns

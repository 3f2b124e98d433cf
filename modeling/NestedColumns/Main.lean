import NestedColumns.CommandLine.Run

/-!
# The program

Files are read into a disk, the command line is run on it, and the changes that
took place are then made to the files, in the same order. All that the program
decides is decided on the disk.

## Main definitions

* `main`: The program.
-/

namespace NestedColumns

namespace Program

/-- A path as the system spells it. -/
def spelled : Path → String
  | [] => "."
  | "/" :: names => "/" ++ "/".intercalate names
  | names => "/".intercalate names

/-- The disk with what is at a path. Nothing is fine. -/
def lookAt (d : Disk) (path : Path) : IO Disk := do
  if (d.node? path).isSome then return d
  let file := System.mkFilePath [spelled path]
  if ← file.isDir then return d.setEntries (d.entries ++ [(path, .directory)])
  if ← file.pathExists then return d.addFile path (← IO.FS.readBinFile file).toList
  return d

/-- The disk with what is along a route. -/
def lookAlong (d : Disk) (route : Route) : IO Disk :=
  (List.range route.steps.length).foldlM
    (fun d n => lookAt d ((route.steps.take (n + 1)).foldl Path.step route.start)) d

/-- The disk with what is at a path and below it. -/
partial def lookBelow (d : Disk) (path : Path) : IO Disk := do
  let d ← lookAt d path
  match d.node? path with
  | some .directory =>
    let entries ← (System.mkFilePath [spelled path]).readDir
    entries.foldlM (fun d entry => lookBelow d (path ++ [entry.fileName])) d
  | _ => return d

/-- The disk with the files that a command looks at besides its store. -/
def lookFor (d : Disk) : Command → IO Disk
  | .parse _ _ file => lookAlong d (.ofString file)
  | .assemble _ _ _ (some output) => do
    let d ← lookAlong d (.ofString output)
    lookAlong d (Route.ofString output).hiddenSibling
  | _ => return d

/-- The disk that a request is run on. -/
def load : Option Request → IO Disk
  | some (.run config command) => do
    let d ← match config with
      | some file => lookAlong Disk.empty (.ofString file)
      | none => pure Disk.empty
    match Outcome.options d config with
    | .error _ => return d
    | .ok options =>
      let d ← lookAlong d options.route
      lookFor (← lookBelow d options.directory) command
  | _ => return Disk.empty

/-- Write the bytes of a file. -/
def write (path : Path) (bytes : List UInt8) : IO Unit :=
  IO.FS.writeBinFile (spelled path) ⟨bytes.toArray⟩

/-- Change the bytes of a file. -/
def alter (path : Path) (change : List UInt8 → List UInt8) : IO Unit := do
  write path (change (← IO.FS.readBinFile (spelled path)).toList)

/-- Make a change of the disk to the files. -/
def carryOut : Effect → IO Unit
  | .makeDirectories path => IO.FS.createDirAll (spelled path)
  | .createFile path bytes => write path bytes
  | .replaceFile path bytes => write path bytes
  | .writeAt _ path position bytes => alter path (Disk.overwrite · position bytes)
  | .truncate _ path length => alter path (Disk.resize · length)
  | .remove path => do
    if ← (System.mkFilePath [spelled path]).isDir then IO.FS.removeDir (spelled path)
    else IO.FS.removeFile (spelled path)
  | .rename source target => IO.FS.rename (spelled source) (spelled target)

/-- Run a command line. The answer is the exit code. -/
def run (words : List String) : IO UInt32 := do
  let request := Request.ofWords words
  let outcome := Outcome.ofRequest (← load request) request
  outcome.disk.performed.forM carryOut
  IO.print outcome.output
  IO.eprint outcome.complaint
  return outcome.code.toUInt32

end Program

end NestedColumns

/-- The program. -/
def main (words : List String) : IO UInt32 :=
  NestedColumns.Program.run words

import NestedColumns.CommandLine.Request
import NestedColumns.Store.Export
import NestedColumns.Store.Load
import NestedColumns.Store.Open
import NestedColumns.Store.Tables

/-!
# Running commands

A command opens the store, does one thing and ends. What it prints is the answer
of that one thing, and nothing if it fails or panics.

## Main definitions

* `Outcome`: What a run leaves behind.
* `Command.run`: A command on an open store.
* `Outcome.ofWords`: A command line on a disk.
-/

namespace NestedColumns

/-- What a run leaves behind. -/
structure Outcome where
  disk : Disk
  /-- Zero if all went well, one after an error, two if the words were refused, 101
      after a panic. -/
  code : Nat
  output : String
  /-- The message of the error, if there was one. -/
  complaint : String
  deriving Inhabited

namespace Command

/-- What is printed for an answer of the store. -/
def answered {α : Type} (print : α → String) (answer : Except StoreError α) :
    Except (Halt EngineError) String :=
  (answer.map print).mapError .ofStore

/-- Nothing is printed. -/
def quietly (result : Store × Except StoreError Unit) :
    Store × Except (Halt EngineError) String :=
  (result.1, answered (fun _ => "") result.2)

/-- Names, one on a line. -/
def lines (names : List String) : String :=
  "\n".intercalate names ++ "\n"

/-- A command on an open store, with what it prints. -/
def run (s : Store) : Command → Store × Except (Halt EngineError) String
  | .create database none => quietly (s.createDatabase database)
  | .create database (some table) => quietly (s.createTable database table)
  | .drop database none => quietly (s.dropDatabase database)
  | .drop database (some table) => quietly (s.dropTable database table)
  | .parse database table file =>
    let (s, result) := s.loadFile database table (.ofString file)
    (s, answered (fun n => toString n ++ " documents loaded\n") result)
  | .assemble database table columns none =>
    let (s, result) := s.records database table columns
    (s, result.map fun records => String.join (records.map fun r => r.text ++ "\n"))
  | .assemble database table columns (some output) =>
    let (s, result) := s.exportFile database table columns (.ofString output)
    (s, result.map fun n => toString n ++ " records written to " ++ output ++ "\n")
  | .schema database table =>
    (s, answered (fun t => t.schema.outline) (s.tableNamed database table))
  | .list none => (s, .ok (lines s.databaseNames))
  | .list (some database) => (s, answered lines (s.tableNames database))
  | .clean => quietly s.remove

end Command

namespace Outcome

/-- The program's name and version. -/
def versionText : String := "nestdb 0.1.0\n"

/-- What the program can be asked. -/
def helpText : String :=
  "Usage: nestdb [--config FILE] COMMAND\n\n" ++
  "create -d DATABASE [-t TABLE]\n" ++
  "drop -d DATABASE [-t TABLE]\n" ++
  "parse -d DATABASE -t TABLE -j FILE\n" ++
  "assemble -d DATABASE -t TABLE [-c COLUMN...] [-o FILE]\n" ++
  "schema -d DATABASE -t TABLE\n" ++
  "list [-d DATABASE]\n" ++
  "clean\n"

/-- The options of a store: those of a file, or the standard ones. -/
def options (d : Disk) (config : Option String) : Except ConfigError StoreOptions :=
  match config with
  | none => .ok .standard
  | some file => StoreOptions.read (d.readAlong (.ofString file)).toOption

/-- The outcome of an error. -/
def failed (d : Disk) (e : EngineError) : Outcome :=
  ⟨d, 1, "", "Error: " ++ e.message ++ "\n"⟩

/-- The outcome of a panic. Its message is that of the runtime. -/
def panicked (d : Disk) : Outcome :=
  ⟨d, 101, "", ""⟩

/-- A command on a disk, with the file that configures it. -/
def ofCommand (d : Disk) (config : Option String) (command : Command) : Outcome :=
  match options d config with
  | .error e => failed d (.store (.config e))
  | .ok options =>
    match Store.openWith options d with
    | (d, .error e) => failed d (.store e)
    | (_, .ok s) =>
      match command.run s with
      | (s, .error (.failed e)) => failed s.disk e
      | (s, .error .panicked) => panicked s.disk
      | (s, .ok output) => ⟨s.disk, 0, output, ""⟩

/-- A request on a disk; a command line that was refused is none. -/
def ofRequest (d : Disk) : Option Request → Outcome
  | none => ⟨d, 2, "", helpText⟩
  | some .help => ⟨d, 0, helpText, ""⟩
  | some .version => ⟨d, 0, versionText, ""⟩
  | some (.run config command) => ofCommand d config command

/-- A command line on a disk. -/
def ofWords (d : Disk) (words : List String) : Outcome :=
  ofRequest d (Request.ofWords words)

end Outcome

end NestedColumns

import NestedColumns.CommandLine.Arguments

/-!
# Requests

What a command line asks for. Each command has its own options, some of which it
cannot do without. A command line that asks for nothing the program knows is
refused as a whole.

## Main definitions

* `Command`: The commands.
* `Request`: A command with the file that configures it, or a question about the
  program.
* `Request.ofWords`: What a command line asks for.
-/

namespace NestedColumns

/-- A command with what it needs. -/
inductive Command where
  /-- Make a database, or a table of it. -/
  | create (database : String) (table : Option String)
  /-- Drop a database, or a table of it. -/
  | drop (database : String) (table : Option String)
  /-- Load a file. -/
  | parse (database table file : String)
  /-- Read some columns of a table, into a file or not. -/
  | assemble (database table : String) (columns : List String) (output : Option String)
  | schema (database table : String)
  /-- The databases, or the tables of one. -/
  | list (database : Option String)
  /-- Remove the store. -/
  | clean
  deriving DecidableEq, Repr

/-- What a command line asks for. -/
inductive Request where
  | run (config : Option String) (command : Command)
  | help
  | version
  deriving DecidableEq, Repr

namespace Request

/-- The option that names a database. -/
def databaseOption : OptionSpec := ⟨"database", some 'd', false, true⟩

/-- The option that names a table. -/
def tableOption : OptionSpec := ⟨"table", some 't', false, true⟩

/-- The option that names the file to load. -/
def fileOption : OptionSpec := ⟨"json", some 'j', false, false⟩

/-- The option that names columns. -/
def columnsOption : OptionSpec := ⟨"columns", some 'c', true, true⟩

/-- The option that names the file to write. -/
def outputOption : OptionSpec := ⟨"output", some 'o', false, false⟩

/-- The option that names the file with the options of the store. -/
def configOption : OptionSpec := ⟨"config", none, false, false⟩

/-- The commands: the options they know, and the command that values make if no
    required one is missing. -/
def commands : List (String × List OptionSpec × (Arguments → Option Command)) :=
  [("create", [databaseOption, tableOption], fun given =>
      (given.value? "database").map fun database => .create database (given.value? "table")),
    ("drop", [databaseOption, tableOption], fun given =>
      (given.value? "database").map fun database => .drop database (given.value? "table")),
    ("parse", [databaseOption, tableOption, fileOption], fun given => do
      return .parse (← given.value? "database") (← given.value? "table") (← given.value? "json")),
    ("assemble", [databaseOption, tableOption, columnsOption, outputOption], fun given => do
      return .assemble (← given.value? "database") (← given.value? "table")
        (given.values "columns") (given.value? "output")),
    ("schema", [databaseOption, tableOption], fun given => do
      return .schema (← given.value? "database") (← given.value? "table")),
    ("list", [databaseOption], fun given => some (.list (given.value? "database"))),
    ("clean", [], fun _ => some .clean)]

/-- A question about the commands, or about one of them. -/
def ofHelp : List String → Option Request
  | [] => some .help
  | [name] => if name = "help" || (commands.lookup name).isSome then some .help else none
  | _ => none

/-- A command by its name, with the words after it. -/
def ofCommand (config : Option String) (name : String) (rest : List String) : Option Request :=
  if name = "help" then ofHelp rest
  else
    match commands.lookup name with
    | none => none
    | some (specs, command?) =>
      match Arguments.read specs false rest with
      | .ended given => (command? given).map (.run config)
      | .help => some .help
      | _ => none

/-- What a command line asks for; `none` if it is refused. -/
def ofWords (words : List String) : Option Request :=
  match Arguments.read [configOption] true words with
  | .word given name rest => ofCommand (given.value? "config") name rest
  | .help => some .help
  | .version => some .version
  | _ => none

end Request

end NestedColumns

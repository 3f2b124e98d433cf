/-!
# Arguments

The words of a command line. Options are written `--name value` or
`--name=value`, and those with a letter also `-n value`, `-nvalue` or `-n=value`.
A word that starts with a minus sign is never the value of the option before it,
except for the minus sign alone. Some options take as many values as follow.

After the options of a level comes at most one plain word. It names a command,
which reads the rest with options of its own.

## Main definitions

* `OptionSpec`: An option that a level knows.
* `Arguments`: The values that were given.
* `Arguments.Reading`: How far a level goes.
* `Arguments.read`: Reading a level.
-/

namespace NestedColumns

/-- An option that a level of the command line knows. -/
structure OptionSpec where
  name : String
  letter : Option Char
  /-- It takes as many values as follow, and may be given again. -/
  many : Bool
  /-- Its values may be empty. -/
  allowsEmpty : Bool
  deriving DecidableEq, Repr, Inhabited

/-- The values that options were given, in the order of the words. -/
abbrev Arguments := List (String × String)

namespace Arguments

/-- The values of an option. -/
def values (given : Arguments) (name : String) : List String :=
  (given.filter (·.1 = name)).map (·.2)

/-- The value of an option that takes one. -/
def value? (given : Arguments) (name : String) : Option String :=
  (given.values name).head?

/-- How far a level goes. -/
inductive Reading where
  /-- All words were options with their values. -/
  | ended (given : Arguments)
  /-- A plain word, and those after it. -/
  | word (given : Arguments) (word : String) (rest : List String)
  | help
  | version
  /-- The words cannot be read. -/
  | refused
  deriving DecidableEq, Repr

/-- A word that can be the value of an option before it. -/
def isPlain (word : String) : Bool :=
  word.toList.head? ≠ some '-' || word = "-"

/-- The values after an option: one, or as many as follow. -/
def takeValues (spec : OptionSpec) (rest : List String) : List String × List String :=
  if spec.many then (rest.takeWhile isPlain, rest.dropWhile isPlain)
  else
    match rest with
    | [] => ([], [])
    | word :: rest => if isPlain word then ([word], rest) else ([], word :: rest)

/-- What an option was given, if it can have that. -/
def give (spec : OptionSpec) (values : List String) (given : Arguments) : Option Arguments :=
  if values.isEmpty then none
  else if !spec.many && given.any (·.1 = spec.name) then none
  else if !spec.allowsEmpty && values.any String.isEmpty then none
  else some (given ++ values.map (spec.name, ·))

/-- A word that starts with a minus sign. -/
inductive Flag where
  /-- The end of all options. -/
  | terminator
  | long (name : String) (attached : Option String)
  | short (letter : Char) (attached : Option String)
  deriving DecidableEq, Repr

/-- The text after a letter is a value, with an equals sign before it or not. -/
def attachedTo : List Char → Option String
  | [] => none
  | '=' :: cs => some (String.ofList cs)
  | cs => some (String.ofList cs)

/-- The flag that a word is. -/
def flag? (word : String) : Option Flag :=
  match word.toList with
  | ['-', '-'] => some .terminator
  | '-' :: '-' :: cs =>
    let name := String.ofList (cs.takeWhile (· ≠ '='))
    match cs.dropWhile (· ≠ '=') with
    | [] => some (.long name none)
    | _ :: value => some (.long name (some (String.ofList value)))
  | '-' :: letter :: cs => some (.short letter (attachedTo cs))
  | _ => none

/-- The option that a flag names, with the value attached to it. -/
def Flag.option? (specs : List OptionSpec) : Flag → Option (OptionSpec × Option String)
  | .terminator => none
  | .long name attached => (specs.find? (·.name = name)).map (·, attached)
  | .short letter attached => (specs.find? (·.letter = some letter)).map (·, attached)

/-- A flag that asks for help. -/
def Flag.isHelp : Flag → Bool
  | .long name attached => name = "help" && attached.isNone
  | .short letter _ => letter = 'h'
  | .terminator => false

/-- A flag that asks for the version. -/
def Flag.isVersion : Flag → Bool
  | .long name attached => name = "version" && attached.isNone
  | .short letter _ => letter = 'V'
  | .terminator => false

/-- Read the words of a level. Only the first level tells the version. Each step
    takes a word, so their number bounds the steps. -/
def readFrom (specs : List OptionSpec) (first : Bool) :
    Nat → Arguments → List String → Reading
  | 0, given, _ => .ended given
  | _ + 1, given, [] => .ended given
  | fuel + 1, given, word :: rest =>
    match flag? word with
    | none => .word given word rest
    | some .terminator => if rest.isEmpty then .ended given else .refused
    | some flag =>
      match flag.option? specs with
      | some (spec, attached) =>
        let (values, rest) :=
          match attached with
          | some value => ([value], rest)
          | none => takeValues spec rest
        match give spec values given with
        | some given => readFrom specs first fuel given rest
        | none => .refused
      | none =>
        if flag.isHelp then .help
        else if first && flag.isVersion then .version
        else .refused

/-- Read the words of a level that knows some options. -/
def read (specs : List OptionSpec) (first : Bool) (words : List String) : Reading :=
  readFrom specs first (words.length + 1) [] words

end Arguments

end NestedColumns

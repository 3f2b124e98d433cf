/-!
# Paths and routes

A file or directory is reached by names, each in the directory before. Its
*path* is the list of them, and there is one path for each file. A *route* is
how a text spells the way: with dots that stay where they are, with double dots
that go up, and perhaps with a slash at its end, which leads to directories only.

Which path a route leads to does not depend on the disk as long as every
directory on the way is there, because going up from a directory undoes going
into it. Whether they are there is a question to the disk.

## Main definitions

* `Path`: The names that lead to a file.
* `Path.step`: The path after one more step.
* `Route`: A way as it is spelled.
* `Route.ofString`: The route that a text spells.
* `Route.path`: The path that a route leads to.
* `Route.hiddenSibling`: The hidden file beside the end of a route.
-/

namespace NestedColumns

/-- The names that lead to a file or directory from where the paths start. One
    from the root of all files starts with the name `/`; one that leaves the
    directory where the paths start begins with double dots. -/
abbrev Path := List String

namespace Path

/-- A file or directory can have this name: it has at most 255 bytes, and none
    of them is zero. -/
def isName (name : String) : Bool :=
  name.utf8ByteSize ≤ 255 && !name.toList.contains '\x00'

/-- The path above a path. Above the root of all files is the root itself. -/
def up (path : Path) : Path :=
  if path = ["/"] then path
  else if path.all (· = "..") then path ++ [".."]
  else path.dropLast

/-- The path after one more step: a dot stays, double dots go up, and any other
    name goes into a directory. -/
def step (path : Path) (name : String) : Path :=
  if name = "." then path
  else if name = ".." then path.up
  else path ++ [name]

/-- Something is there whatever the disk holds: the root of all files, where the
    paths start, and what is above that. -/
def isGiven (path : Path) : Bool :=
  path == ["/"] || path.all (· == "..")

end Path

/-- A way to a file or directory as it is spelled. -/
structure Route where
  /-- It starts at the root of all files. -/
  absolute : Bool
  /-- Names, dots and double dots. -/
  steps : List String
  /-- It ends in a slash. -/
  slashed : Bool
  deriving DecidableEq, Repr, Inhabited

namespace Route

/-- A text cut at every slash. -/
def splitSlashes : List Char → List (List Char)
  | [] => [[]]
  | c :: rest =>
    if c = '/' then [] :: splitSlashes rest
    else
      match splitSlashes rest with
      | [] => [[c]]
      | name :: others => (c :: name) :: others

/-- The route that a text spells. Doubled slashes are as good as one. -/
def ofString (s : String) : Route :=
  let cs := s.toList
  ⟨cs.head? = some '/', ((splitSlashes cs).map String.ofList).filter (· ≠ ""),
    cs.getLast? = some '/'⟩

/-- Where a route starts. -/
def start (r : Route) : Path :=
  if r.absolute then ["/"] else []

/-- The path that a route leads to if every directory on the way is there. -/
def path (r : Route) : Path :=
  r.steps.foldl Path.step r.start

/-- The route of nothing, which an empty text spells. -/
def isEmpty (r : Route) : Bool :=
  !r.absolute && r.steps.isEmpty

/-- The steps without the dots at their end. -/
def properSteps (r : Route) : List String :=
  (r.steps.reverse.dropWhile (· = ".")).reverse

/-- The route to the directory that the last name of a route is in. -/
def parent (r : Route) : Route :=
  ⟨r.absolute, r.properSteps.dropLast, true⟩

/-- The route to the hidden file beside the end of a route that is written
    first. If the route does not end in a name, the file is at its end. -/
def hiddenSibling (r : Route) : Route :=
  match r.properSteps.getLast? with
  | none => ⟨r.absolute, r.steps ++ ["..tmp"], false⟩
  | some name =>
    if name = ".." then ⟨r.absolute, r.steps ++ ["..tmp"], false⟩
    else ⟨r.absolute, r.properSteps.dropLast ++ ["." ++ name ++ ".tmp"], false⟩

end Route

end NestedColumns

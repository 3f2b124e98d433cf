import NestedColumns.Disk

/-!
# Following routes

A route is followed on a disk step by step, and every step but the last has to
end in a directory. A route to a file that is to be made ends in a name, and a
directory is made along a route with those that are missing before it.

## Main definitions

* `Disk.follow`: What a route leads to.
* `Disk.place`: Where a route leads a file that is to be made.
* `Disk.readAlong`: The contents of the file that a route leads to.
* `Disk.makeAlong`: The directories along a route, made where they are missing.
* `Disk.removeAlong`: The directory at the end of a route, removed with all it
  contains.
-/

namespace NestedColumns

namespace Disk

/-- A step from a path, which has to be one of a directory. -/
def stepFrom (d : Disk) (path : Path) (name : String) : Except FileError Path :=
  match d.node? path with
  | none => .error .notFound
  | some (.file _) => .error .notADirectory
  | some .directory => if Path.isName name then .ok (path.step name) else .error .badName

/-- The path at the end of a route, at which there may be nothing. -/
def walk (d : Disk) (r : Route) : Except FileError Path :=
  if r.isEmpty then .error .notFound else r.steps.foldlM d.stepFrom r.start

/-- The path of what a route leads to. -/
def follow (d : Disk) (r : Route) : Except FileError Path :=
  match d.walk r with
  | .error e => .error e
  | .ok path =>
    match d.node? path with
    | none => .error .notFound
    | some .directory => .ok path
    | some (.file _) => if r.slashed then .error .notADirectory else .ok path

/-- The path at the end of a route that ends in a name. -/
def placeOfName (d : Disk) (r : Route) : Except FileError Path :=
  match d.walk r with
  | .error e => .error e
  | .ok path =>
    match r.steps.getLast? with
    | none => .error .busy
    | some name => if name = "." ∨ name = ".." then .error .busy else .ok path

/-- The path of a file that is to be at the end of a route. -/
def place (d : Disk) (r : Route) : Except FileError Path :=
  match d.placeOfName r with
  | .error e => .error e
  | .ok path => if r.slashed then .error .notADirectory else .ok path

/-- The contents of the file that a route leads to. -/
def readAlong (d : Disk) (r : Route) : Except FileError (List UInt8) :=
  match d.follow r with
  | .error e => .error e
  | .ok path => d.read path

/-- The directories along the steps from a directory, made where they are
    missing. A dot at the end is looked for in a directory that is there, so the
    directory before it is not made. -/
def makeSteps (d : Disk) (path : Path) : List String → Disk × Except FileError Unit
  | [] => (d, .ok ())
  | name :: rest =>
    let next := path.step name
    match d.node? next with
    | some .directory => makeSteps d next rest
    | some (.file _) =>
      (d, .error (if rest.isEmpty then .alreadyExists else .notADirectory))
    | none =>
      if !Path.isName name then (d, .error .badName)
      else if !rest.isEmpty ∧ rest.all (· = ".") then (d, .error .notFound)
      else
        match d.perform (.makeDirectories next) with
        | (d, .error e) => (d, .error e)
        | (d, .ok _) => makeSteps d next rest

/-- The directories along a route, made where they are missing. -/
def makeAlong (d : Disk) (r : Route) : Disk × Except FileError Unit :=
  if r.steps.any (·.toList.contains '\x00') then (d, .error .badName)
  else makeSteps d r.start r.steps

/-- The paths inside a directory, the innermost first. -/
def pathsInside (d : Disk) (path : Path) : List Path :=
  (d.pathsBelow path).filter fun p =>
    let names := p.drop path.length
    !names.isEmpty && names.head? ≠ some ".." && names.head? ≠ some "/"

/-- Remove the directory at the end of a route with all it contains. It is
    emptied first and then removed by its name, for which the route is followed
    again; a directory that the route does not name is emptied only. -/
def removeAlong (d : Disk) (r : Route) : Disk × Except FileError Unit :=
  match d.follow r with
  | .error e => (d, .error e)
  | .ok path =>
    match d.node? path with
    | none => (d, .error .notFound)
    | some (.file _) => (d, .error .notADirectory)
    | some .directory =>
      match d.performAll ((d.pathsInside path).map .remove) with
      | (d, .error e) => (d, .error e)
      | (d, .ok _) =>
        match d.placeOfName r with
        | .error e => (d, .error e)
        | .ok path => d.perform (.remove path)

end Disk

end NestedColumns

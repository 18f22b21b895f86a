import SolidityAtlas.Failure
import SolidityAtlas.Row.Sorted
import SolidityAtlas.Text.Pieces

/-!
# Directories

What is stored below a directory: files with their bytes, and directories that may
be empty. A place is given by the names that lead to it. A name may hold any
character but the slash; the name `..` leads back to the directory around.

## Main Definitions

* `Disk`: the files and directories below a directory
* `Route`: a written path
* `Disk.locate`: the place that a path leads to
* `Disk.readText`: the text of a file
* `Disk.filesUnder`: the files at a place or below it, in order
-/

namespace SolidityAtlas

/-- The files and directories below a directory. -/
structure Disk where
  /-- The files: the names that lead to each, and its bytes. -/
  files : List (List String × ByteArray)
  /-- Directories that are there even without files. -/
  directories : List (List String)

/-- A written path: its names, and whether it can only mean a directory. -/
structure Route where
  names : List String
  intoDirectory : Bool
deriving DecidableEq, Inhabited

/-- The route that a text writes. Empty names and single dots do not count; a path that ends
with one of them means a directory. -/
def Route.ofText (path : String) : Route :=
  let parts := (pieces (· == '/') path.toList).map String.ofList
  let isIdle (name : String) : Bool := name == "" || name == "."
  ⟨parts.filter (! isIdle ·), parts.getLast?.any isIdle⟩

namespace Disk

variable (d : Disk)

/-- The bytes of the file at a place. -/
def bytes? (place : List String) : Option ByteArray :=
  (d.files.find? fun f => f.1 == place).map (·.2)

/-- Whether there is a file at a place. -/
def isFile (place : List String) : Bool :=
  (d.bytes? place).isSome

/-- Whether there is a directory at a place. -/
def isDirectory (place : List String) : Bool :=
  place.isEmpty || d.directories.any place.isPrefixOf ||
    d.files.any fun f => place.isPrefixOf f.1.dropLast

/-- The place that names lead to from a directory at `here`. -/
def locateFrom (here : List String) : List String → Except ReadProblem (List String)
  | [] => .ok here
  | name :: names =>
    if d.isDirectory here then
      let next := if name = ".." then here.dropLast else here ++ [name]
      if d.isDirectory next || d.isFile next then locateFrom next names else .error .missing
    else .error .throughFile

/-- The place that a route leads to. -/
def locate (route : Route) : Except ReadProblem (List String) := do
  let place ← d.locateFrom [] route.names
  if route.intoDirectory && ! d.isDirectory place then .error .throughFile else .ok place

/-- The text of the file that a route leads to. -/
def readText (route : Route) : Except ReadProblem String := do
  let place ← d.locate route
  match d.bytes? place with
  | none => .error .directory
  | some bytes =>
    match String.fromUTF8? bytes with
    | some text => .ok text
    | none => .error .notText

/-- Whether one row of names comes before another or is the same, name by name. -/
def namesLe : List String → List String → Bool
  | [], _ => true
  | _ :: _, [] => false
  | a :: as, b :: bs => a < b || (a == b && namesLe as bs)

/-- The files at a place or below it, as the names that lead to each from there, in order. -/
def filesUnder (place : List String) : List (List String) :=
  sorted namesLe
    ((d.files.filter fun f => place.isPrefixOf f.1).map fun f => f.1.drop place.length)

end Disk

end SolidityAtlas

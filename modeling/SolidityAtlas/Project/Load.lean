import SolidityAtlas.Project.Disk
import SolidityAtlas.Workspace.Basic

/-!
# Loading projects

A project is a directory. All source files below it are read as one batch, each
under its path from the project's root. Remappings in a file of the root are added
first. A source file that cannot be read or has faults is reported and does not
keep the others from being loaded.

## Main Definitions

* `isSourceName`: the names of source files
* `Disk.sourceFiles`: the source files below a directory
* `Workspace.loadDirectory`, `Workspace.loadFile`: loading a project or one of its files
* `LoadReport`: what became of each file
-/

namespace SolidityAtlas

/-- The ending of the names of source files. -/
def sourceEnding : String := ".sol"

/-- The file in a project's root that lists its remappings. -/
def remappingsFile : String := "remappings.txt"

/-- Whether a file with this name is a source file. Something must stand before the ending. -/
def isSourceName (name : String) : Bool :=
  sourceEnding.toList.isSuffixOf name.toList && name != sourceEnding

/-- The source files at the end of a route or below it, as the names that lead to each from
there, in order. -/
def Disk.sourceFiles (d : Disk) (root : Route) : List (List String) :=
  match d.locate root with
  | .error _ => []
  | .ok place =>
    (d.filesUnder place).filter fun names =>
      ((place ++ names).getLast?).any isSourceName

/-- What became of the files of a directory, each given by the names that lead to it. -/
structure LoadReport where
  installed : List (List String)
  /-- The files that could not be taken: first those that cannot be read, then those with
  faults. -/
  failed : List (List String × Failure)

/-- Whether nothing failed. -/
def LoadReport.isClean (r : LoadReport) : Bool :=
  r.failed.isEmpty

/-- The path under which a workspace knows a file of a project. -/
def workspacePath (names : List String) : String :=
  "/".intercalate names

/-- The names that lead to a file from a root, if it is below. -/
def namesFrom? (root file : Route) : Option (List String) :=
  if root.names.isPrefixOf file.names then some (file.names.drop root.names.length) else none

/-- The route from a root through further names. -/
def Route.into (root : Route) (names : List String) : Route :=
  ⟨root.names ++ names, root.intoDirectory && names.isEmpty⟩

namespace Workspace

variable (w : Workspace) (d : Disk)

/-- The workspace with the remappings of a project, if it lists any. -/
def loadRemappings (root : Route) : Except Failure Workspace :=
  let list := root.into [remappingsFile]
  match d.locate list with
  | .error _ => .ok w
  | .ok place =>
    if d.isFile place then
      match d.readText list with
      | .error problem => .error (.unreadable problem)
      | .ok text => (Remapping.parseAll text).map w.addRemappings
    else .ok w

/-- The workspace after all source files of a directory are read and installed, and what became
of each. -/
def loadDirectory (root : Route) : Except Failure LoadReport × Workspace :=
  match d.locate root with
  | .error _ => (.error (.unreadable .missing), w)
  | .ok place =>
    if ! d.isDirectory place then (.error (.unreadable .missing), w)
    else
      match w.loadRemappings d root with
      | .error failure => (.error failure, w)
      | .ok w =>
        let read := (d.sourceFiles root).map fun names => (names, d.readText (root.into names))
        let texts := read.filterMap fun (names, text) => text.toOption.map (names, ·)
        let unreadable := read.filterMap fun
          | (names, .error problem) => some (root.names ++ names, Failure.unreadable problem)
          | _ => none
        -- One batch, so that the files can refer to each other in any order.
        let (outcomes, w) := w.indexAll (texts.map fun (names, text) => (workspacePath names, text))
        let results := (texts.map fun (names, _) => root.names ++ names).zip outcomes
        let installed := results.filterMap fun
          | (names, .ok (.installed _ _)) => some names
          | _ => none
        let faulty := results.filterMap fun
          | (names, .error failure) => some (names, failure)
          | _ => none
        (.ok ⟨installed, unreadable ++ faulty⟩, w)

/-- The workspace after one file of a project is read and installed, and what became of it. -/
def loadFile (root file : Route) : Except Failure Outcome × Workspace :=
  match d.readText file with
  | .error problem => (.error (.unreadable problem), w)
  | .ok text =>
    let path := match namesFrom? root file with
      | some names => workspacePath names
      | none => "/" ++ workspacePath file.names
    w.index path text

end Workspace

end SolidityAtlas

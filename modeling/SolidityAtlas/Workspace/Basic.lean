import SolidityAtlas.Syntax.Parse
import SolidityAtlas.Workspace.Importers
import SolidityAtlas.Workspace.LinkGraph
import SolidityAtlas.Workspace.Linking

/-!
# Workspaces

A workspace keeps the symbols of a changing set of files linked. Every request
about a file, to read it or to remove it, gets a *generation*. Reading a text and
installing the result are separate steps, and what has been read is installed only
if no later request for the file has been made.

When the tree of a file comes, changes or goes, all links may change that led into
it or through it. So the links of the files that import it and of the files that
linked into it are taken back, and all these files are linked again: the file
itself first, then its importers, the nearest first.

A file with syntax faults is not installed, and what was installed before is taken
away, unless the workspace tolerates faults.

## Main Definitions

* `Workspace`, `Config`
* `Workspace.prepare`, `Workspace.install`: reading a text, and installing the result
* `Workspace.index`, `Workspace.indexAll`: both steps for one text or for many
* `Workspace.remove`, `Workspace.addRemappings`
-/

namespace SolidityAtlas

/-- The settings of a workspace. -/
structure Config where
  remappings : List Remapping
  /-- Whether files with syntax faults are installed as far as they can be read. -/
  toleratesFaults : Bool
  /-- How many steps of inheritance are followed. -/
  maxDepth : Nat
deriving Inhabited

/-- The settings that hold if nothing else is said. -/
def Config.default : Config :=
  ⟨[], false, defaultMaxDepth⟩

/-- A text that has been read but not installed. -/
structure Prepared where
  file : FileId
  path : String
  generation : Nat
  tree : SymbolTree
  faults : List Fault

/-- What became of a text that was to be installed. -/
inductive Outcome where
  | installed (file : FileId) (generation : Nat)
  /-- A later request for the file had been made. -/
  | stale (file : FileId) (generation : Nat)
deriving DecidableEq, Inhabited

/-- A changing set of files with their symbols linked. -/
structure Workspace where
  config : Config
  /-- The generation that the next request gets. -/
  nextGeneration : Nat
  files : PathTable
  /-- The generation of the latest request for each file. -/
  requested : FileMap Nat
  links : LinkGraph
  snapshot : Snapshot

namespace Workspace

variable (w : Workspace)

/-- The workspace without files. -/
def empty (config : Config) : Workspace :=
  ⟨config, 1, .empty, .empty, .empty, .empty config.remappings⟩

/-! ### Requests -/

/-- A request for a file: its generation, and the workspace that knows of it. -/
def request (file : FileId) : Nat × Workspace :=
  (w.nextGeneration,
    { w with
      nextGeneration := w.nextGeneration + 1
      requested := w.requested.insert file w.nextGeneration })

/-- A request for the file at a path: its number and its generation. -/
def reserve (path : String) : (FileId × Nat) × Workspace :=
  let (file, files) := w.files.intern path
  let (generation, w) := { w with files := files }.request file
  ((file, generation), w)

/-- The text of a file, read for a request. -/
def read (file : FileId) (generation : Nat) (path text : String) : Prepared :=
  let p := parse text
  { file, generation
    path := (w.files.path? file).getD path
    tree := .grow w.config.maxDepth file generation (.ofText text) p.tree
    faults := p.faults }

/-- The text of the file at a path, read for a new request. -/
def prepare (path text : String) : Prepared × Workspace :=
  let ((file, generation), w) := w.reserve path
  (w.read file generation path text, w)

/-! ### Installing -/

/-- The files that are to be linked again when the tree of a file changes: its importers, then
the files that were linked into it. -/
def affected (s : Snapshot) (dependents : List FileId) (file : FileId) : List FileId :=
  let importers := s.importersOf file
  (importers ++ dependents.filter fun d => ! importers.contains d).filter (· != file)

/-- The snapshot with files linked as far as possible, one after the other. -/
def linkAll (maxDepth : Nat) (files : List FileId) (s : Snapshot) : Snapshot :=
  files.foldl (fun s file => (s.linkFile maxDepth file).1) s

/-- The workspace with another tree for a file, or with none, and with all links renewed that
this can concern. -/
def replace (file : FileId) (tree : Option SymbolTree) : Workspace :=
  let s := { w.snapshot with files := w.files }
  let dependents := w.links.dependents file
  let g := w.links.forgetDependents file
  let s := match tree with
    | some t => s.install t
    | none => s.uninstall file
  let (g, s) := g.detach file s
  -- The importers are asked for now, because the imports of other files can have changed too.
  let others := affected s dependents file
  -- All are detached before the first one is linked, so none is linked by way of an old link.
  let (g, s) := g.detachAll others s
  let s := linkAll w.config.maxDepth (file :: others) s
  { w with links := g.record s (others ++ [file]), snapshot := s }

/-- The workspace after a text that has been read is installed, and what became of it. -/
def install (p : Prepared) : Except Failure Outcome × Workspace :=
  if w.requested.get? p.file ≠ some p.generation then
    (.ok (.stale p.file p.generation), w)
  else if p.faults.isEmpty || w.config.toleratesFaults then
    (.ok (.installed p.file p.generation), w.replace p.file (some p.tree))
  else
    (.error (.faulty p.path p.faults), w.replace p.file none)

/-- The workspace after the text of a file is read and installed, and what became of it. -/
def index (path text : String) : Except Failure Outcome × Workspace :=
  let (p, w) := w.prepare path text
  w.install p

/-- The requests for many files, in order. -/
def reserveAll (w : Workspace) : List (String × String) → List (FileId × Nat) × Workspace
  | [] => ([], w)
  | (path, _) :: batch =>
    let (ticket, w) := w.reserve path
    let (tickets, w) := w.reserveAll batch
    (ticket :: tickets, w)

/-- The workspace after texts that have been read are installed in order. -/
def installAll (w : Workspace) : List Prepared → List (Except Failure Outcome) × Workspace
  | [] => ([], w)
  | p :: ps =>
    let (outcome, w) := w.install p
    let (outcomes, w) := w.installAll ps
    (outcome :: outcomes, w)

/-- The workspace after many texts, each with its path, are read and installed in order, and
what became of each. All requests are made before any text is installed. -/
def indexAll (batch : List (String × String)) : List (Except Failure Outcome) × Workspace :=
  let (tickets, w) := w.reserveAll batch
  let prepared := (batch.zip tickets).map fun ((path, text), file, generation) =>
    w.read file generation path text
  w.installAll prepared

/-- The workspace without the tree of the file at a path. -/
def remove (path : String) : Except Failure Workspace :=
  match w.files.fileId? path with
  | none => .error (.unknownFile path)
  | some file => .ok ((w.request file).2.replace file none)

/-- The workspace with more remappings, for what is linked from now on. -/
def addRemappings (remappings : List Remapping) : Workspace :=
  { w with snapshot := w.snapshot.addRemappings remappings }

end Workspace

end SolidityAtlas

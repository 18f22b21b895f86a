import SolidityAtlas.Symbol.Link
import SolidityAtlas.Workspace.Snapshot

/-!
# Which file links into which

Beside the links themselves, a workspace keeps for each file the files its uses
are linked into, and the other way round. So when a file changes, the files that
link into it are known without a search.

## Main Definitions

* `LinkGraph`: the files linked into, and the files linked from
* `LinkGraph.dependents`, `LinkGraph.forgetDependents`
* `LinkGraph.detach`: taking back all links of a file into others
* `LinkGraph.record`: noting the links of a file
-/

namespace SolidityAtlas

/-- Which file links into which. -/
structure LinkGraph where
  /-- For each file the other files that its uses are linked into. -/
  outgoing : FileMap (List FileId)
  /-- For each file the other files whose uses are linked into it. -/
  incoming : FileMap (List FileId)
deriving Inhabited

namespace LinkGraph

variable (g : LinkGraph)

/-- The graph without links. -/
def empty : LinkGraph :=
  ⟨.empty, .empty⟩

/-- The files that a file links into. -/
def targets (file : FileId) : List FileId :=
  (g.outgoing.get? file).getD []

/-- The files that link into a file. -/
def sources (file : FileId) : List FileId :=
  (g.incoming.get? file).getD []

/-- The other files that link into a file, in ascending order. -/
def dependents (file : FileId) : List FileId :=
  ascending ((g.sources file).filter (· != file))

/-- The graph without the knowledge of who links into a file. -/
def forgetDependents (file : FileId) : LinkGraph :=
  { g with incoming := g.incoming.erase file }

/-- The graph without the links of a file into others. -/
def forget (file : FileId) : LinkGraph where
  outgoing := g.outgoing.erase file
  incoming := (g.targets file).foldl (fun m target => m.modify target (·.erase file)) g.incoming

/-- The snapshot without the links of a file into others: its uses are pending again, and the
declarations they were linked to no longer list them. -/
def unlinkIn (file : FileId) (s : Snapshot) : Snapshot :=
  (g.targets file).foldl (fun s target => s.modifyTree target (·.dropReferencesFrom file))
    (s.modifyTree file SymbolTree.unlinkExternal)

/-- The graph and the snapshot without the links of a file into others. -/
def detach (file : FileId) (s : Snapshot) : LinkGraph × Snapshot :=
  (g.forget file, g.unlinkIn file s)

/-- The graph and the snapshot without the links of some files into others. -/
def detachAll (files : List FileId) (s : Snapshot) : LinkGraph × Snapshot :=
  files.foldl (fun (g, s) file => g.detach file s) (g, s)

/-- The graph with one more file that links into a file. -/
def addSource (target source : FileId) : LinkGraph :=
  { g with incoming := g.incoming.insert target (appendNew (g.sources target) source) }

/-- The graph with the links that a file has in a snapshot, in place of those noted before. -/
def recordFile (s : Snapshot) (file : FileId) : LinkGraph :=
  let g := g.forget file
  match s.tree? file with
  | none => g
  | some t =>
    let targets := t.linkedFiles
    let g := targets.foldl (·.addSource · file) g
    if targets.isEmpty then g else { g with outgoing := g.outgoing.insert file targets }

/-- The graph with the links that some files have in a snapshot. -/
def record (s : Snapshot) (files : List FileId) : LinkGraph :=
  files.foldl (·.recordFile s) g

end LinkGraph

end SolidityAtlas

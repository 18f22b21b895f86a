import SolidityAtlas.Import.Resolve
import SolidityAtlas.Symbol.Forest
import SolidityAtlas.Workspace.FileMap

/-!
# Snapshots

A `Snapshot` holds the installed trees and what their imports mean. Only an
installed file can be what an import means, so the appearance of a file can give a
meaning to imports of other files, and its disappearance can take it away. The
files that each file imports are kept beside the trees, and are found anew for
those files that a change can concern.

## Main Definitions

* `Snapshot`
* `Snapshot.importTarget?`: the file that an import directive means
* `Snapshot.install`, `Snapshot.uninstall`: giving a file a tree, and taking it away
* `Snapshot.importedFiles`: the files that a file imports
-/

namespace SolidityAtlas

/-- The installed trees and what their imports mean. -/
structure Snapshot where
  files : PathTable
  trees : FileMap SymbolTree
  /-- The installed files that each installed file imports, in the order of the text. -/
  edges : FileMap (List FileId)
  remappings : List Remapping
deriving Inhabited

namespace Snapshot

variable (s : Snapshot)

/-- The snapshot without files. -/
def empty (remappings : List Remapping) : Snapshot :=
  ⟨.empty, .empty, .empty, remappings⟩

/-- The tree of a file, if one is installed. -/
def tree? (file : FileId) : Option SymbolTree :=
  s.trees.get? file

/-- Whether a file has a tree. -/
def isInstalled (file : FileId) : Bool :=
  s.trees.contains file

/-- The files that have a tree, in ascending order. -/
def installed : List FileId :=
  s.trees.keys

/-- The symbol behind a handle. -/
def symbol? (h : Handle) : Option Symbol :=
  (s.tree? h.file).bind (·.lookup? h)

/-- The snapshot with the tree of a file changed. -/
def modifyTree (file : FileId) (f : SymbolTree → SymbolTree) : Snapshot :=
  { s with trees := s.trees.modify file f }

/-- The tree that is changed is found as it is now, and every other one as before. -/
@[simp] theorem tree?_modifyTree (file : FileId) (f : SymbolTree → SymbolTree) (other : FileId) :
    (s.modifyTree file f).tree? other =
      if other = file then (s.tree? file).map f else s.tree? other := by
  simp [modifyTree, tree?]

/-! ### What imports mean -/

/-- The path that an import directive is written with. -/
def importPath? (t : SymbolTree) (directive : NodeId) : Option String :=
  match (t.symbol? directive).map Symbol.detail with
  | some (.importDirective path _ _) => some path
  | _ => none

/-- The installed file that an import directive means. -/
def importTarget? (file : FileId) (directive : NodeId) : Option FileId := do
  let t ← s.tree? file
  let path ← importPath? t directive
  let importer ← s.files.path? file
  resolveImport? s.files s.remappings importer path s.isInstalled

/-- The files that a file imports, in the order of the text. -/
def importedFiles (file : FileId) : List FileId :=
  (s.edges.get? file).getD []

/-- The snapshot with the imports of a file found anew. -/
def refreshEdges (file : FileId) : Snapshot :=
  match s.tree? file with
  | some t => { s with edges := s.edges.insert file (t.imports.filterMap (s.importTarget? file)) }
  | none => { s with edges := s.edges.erase file }

/-- Whether an import of a file could mean a file with a certain path. -/
def mayImport (path : String) (file : FileId) : Bool :=
  match s.tree? file, s.files.path? file with
  | some t, some importer =>
    (t.imports.filterMap (importPath? t)).any fun written =>
      importMatches (candidatePath s.remappings importer written) path
  | _, _ => false

/-- The other installed files whose imports the appearance or disappearance of a file can
concern. -/
def concernedBy (file : FileId) : List FileId :=
  match s.files.path? file with
  | some path => s.installed.filter fun other => other != file && s.mayImport path other
  | none => []

/-- The snapshot after the tree of a file has come or gone, with all imports found anew that
this can concern. -/
def refreshAround (file : FileId) : Snapshot :=
  (file :: s.concernedBy file).foldl refreshEdges s

/-! ### Changes -/

/-- The snapshot with a tree for its file, in place of the one it had. -/
def install (t : SymbolTree) : Snapshot :=
  refreshAround { s with trees := s.trees.insert t.file t } t.file

/-- The snapshot without a tree for a file. -/
def uninstall (file : FileId) : Snapshot :=
  refreshAround { s with trees := s.trees.erase file } file

/-- The snapshot with more remappings, behind those it has. -/
def addRemappings (remappings : List Remapping) : Snapshot :=
  let s := { s with remappings := s.remappings ++ remappings }
  s.installed.foldl refreshEdges s

end Snapshot

end SolidityAtlas

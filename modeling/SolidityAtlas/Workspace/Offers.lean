import SolidityAtlas.Row.Total
import SolidityAtlas.Workspace.Snapshot

/-!
# What imports offer

A file offers its importers the declarations at its top level, and whatever its
own imports bring in. An import brings in

* the symbols it lists, under their local names,
* or, with an alias, that one name, which stands for the whole file,
* or else all that the imported file offers.

So a name is looked for along a walk through the imports, which visits each file
once: the declarations of a file first, then its imports in the order of the
text, each to its end before the next. The walk depends on the imports alone and
not on the name.

A listed symbol stands for what the imported file offers under its own name. To
find that, a new walk begins, and so from symbol to symbol. Every one of these
walks belongs to another symbol, as long as no symbol is imported from itself.

## Main Definitions

* `Stop`: a place on a walk
* `Snapshot.walk`: the places at which a name is looked for, in order
* `Snapshot.exported?`: what a file offers under a name
* `Snapshot.imported?`: what reaches a file under a name
* `Snapshot.forest`: the symbols of all files, with the names behind file aliases
-/

namespace SolidityAtlas

/-- A place at which a name is looked for. -/
inductive Stop where
  /-- The top level of a file. -/
  | file (file : FileId)
  /-- An import that brings in certain names. -/
  | directive (file : FileId) (directive : NodeId)
deriving DecidableEq, Inhabited

namespace SymbolTree

/-- The symbols that an import directive lists. -/
def listedSymbols (t : SymbolTree) (directive : NodeId) : List NodeId :=
  (t.children directive).filter fun c => t.kind? c == some .importSymbol

/-- The name that stands for the whole imported file. -/
def fileAlias? (t : SymbolTree) (directive : NodeId) : Option String :=
  match (t.symbol? directive).map Symbol.detail with
  | some (.importDirective _ unitAlias _) => unitAlias
  | _ => none

end SymbolTree

namespace Snapshot

variable (s : Snapshot)

/-- Where the walk goes on behind an import directive. -/
def stopAt? (t : SymbolTree) (directive : NodeId) : Option Stop :=
  if (t.listedSymbols directive).isEmpty && (t.fileAlias? directive).isNone then
    (s.importTarget? t.file directive).map .file
  else some (.directive t.file directive)

/-- Where the walk goes on behind the declarations of a file. -/
def stopsOf (t : SymbolTree) : List Stop :=
  t.imports.filterMap (s.stopAt? t)

/-- The number of places behind the declarations of a file. -/
def stopCount (file : FileId) : Nat :=
  match s.tree? file with
  | some t => (s.stopsOf t).length
  | none => 0

/-- The places at which a name is looked for when the places `stops` are still to be visited,
and of the files only `fresh`. -/
def walk (s : Snapshot) : (fresh : List FileId) → (stops : List Stop) → List Stop
  | _, [] => []
  | fresh, .directive file directive :: stops => .directive file directive :: s.walk fresh stops
  | fresh, .file file :: stops =>
    if _h : file ∈ fresh then
      match _ht : s.tree? file with
      | some t => .file file :: s.walk (fresh.erase file) (s.stopsOf t ++ stops)
      | none => s.walk (fresh.erase file) stops
    else s.walk fresh stops
termination_by fresh stops => total s.stopCount fresh + stops.length
decreasing_by
  · simp only [List.length_cons]
    omega
  · have := total_erase_add s.stopCount _h
    have : s.stopCount file = (s.stopsOf t).length := by simp [stopCount, _ht]
    simp only [List.length_append, List.length_cons]
    omega
  · have := total_erase_add s.stopCount _h
    simp only [List.length_cons]
    omega
  · simp only [List.length_cons]
    omega

/-- What a place offers under a name to those who accept it; `follow` says what a listed
symbol stands for that has not found its declaration. -/
def offerAt? (follow : FileId → NodeId → Option Handle) (name : String)
    (accept : Symbol → Bool) : Stop → Option Handle
  | .file file => do
    let t ← s.tree? file
    let id ← t.exported.find? fun id =>
      (t.symbol? id).any fun d => d.name == some name && accept d
    return t.handle id
  | .directive file directive => do
    let t ← s.tree? file
    let symbols := t.listedSymbols directive
    if symbols.isEmpty then
      if t.fileAlias? directive = some name ∧ (t.symbol? directive).any accept then
        return t.handle directive
      else none
    else
      let named := symbols.filter fun id => (t.symbol? id).bind Symbol.localName == some name
      named.findSome? fun id =>
        (((t.symbol? id).bind Symbol.declaration).or (follow file id)).filter fun d =>
          (s.symbol? d).any accept

/-- What is offered under a name on a walk from the places `stops`. -/
def offered? (follow : FileId → NodeId → Option Handle) (fresh : List FileId) (stops : List Stop)
    (name : String) (accept : Symbol → Bool) : Option Handle :=
  (s.walk fresh stops).findSome? (s.offerAt? follow name accept)

/-- What a listed symbol stands for, over at most `hops` walks. -/
def symbolTargetWithin : (hops : Nat) → FileId → NodeId → Option Handle
  | 0, _, _ => none
  | hops + 1, file, id => do
    let t ← s.tree? file
    let name ← (t.symbol? id).bind Symbol.name
    let directive ← t.parent? id
    let target ← s.importTarget? file directive
    s.offered? (symbolTargetWithin hops) s.installed [.file target] name fun _ => true

/-- The number of symbols that all imports list together. -/
def listedCount : Nat :=
  total (fun t => t.nodes.countP (·.kind == .importSymbol)) s.trees.values

/-- What a listed symbol stands for. -/
def follow? (file : FileId) (id : NodeId) : Option Handle :=
  s.symbolTargetWithin s.listedCount file id

/-- What the symbol that an import lists stands for. -/
def symbolTarget? (file : FileId) (id : NodeId) : Option Handle :=
  s.symbolTargetWithin (s.listedCount + 1) file id

/-- What a file offers its importers under a name, to those who accept it. -/
def exported? (file : FileId) (name : String) (accept : Symbol → Bool) : Option Handle :=
  s.offered? s.follow? s.installed [.file file] name accept

/-- What reaches a file through its imports under a name, for those who accept it. The files
`visited` are not walked through. -/
def imported? (visited : List FileId) (file : FileId) (name : String) (accept : Symbol → Bool) :
    Option Handle :=
  (s.tree? file).bind fun t =>
    s.offered? s.follow? (s.installed.filter fun f => ! visited.contains f) (s.stopsOf t) name
      accept

/-- The symbols of all files. The names behind a file alias are those that the file offers. -/
def forest : Forest where
  tree := s.tree?
  imported directive name := do
    let _ ← s.symbol? directive
    let target ← s.importTarget? directive.file directive.node
    s.exported? target name fun _ => true

end Snapshot

end SolidityAtlas

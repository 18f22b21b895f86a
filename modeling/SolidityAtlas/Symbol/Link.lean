import SolidityAtlas.Row.Distinct
import SolidityAtlas.Symbol.Tree

/-!
# Links of a tree

A link has two ends. The use gets a declaration and leaves the pending uses; the
declaration gets a reference back. A use that is linked by what other files
declare is remembered as *external*, so that all such links can be taken back
when one of those files changes. The uses are then pending again, and the pending
uses are in the order of the text.

## Main Definitions

* `SymbolTree.link`, `SymbolTree.addReference`: the two ends of a link
* `SymbolTree.linkExternal`, `SymbolTree.unlinkExternal`, `SymbolTree.takeBackExternal`
* `SymbolTree.dropReferencesFrom`: forget the uses in a certain file
-/

namespace SolidityAtlas

namespace Symbol

/-- The use with a link to its declaration. -/
def linkTo (declaration : Handle) (s : Symbol) : Symbol :=
  { s with
    declaration := some declaration
    declaredType := s.declaredType ++ [declaration] }

/-- The use without its link. -/
def unlink (s : Symbol) : Symbol :=
  match s.declaration with
  | none => s
  | some d => { s with declaration := none, declaredType := s.declaredType.filter (· != d) }

/-- The declaration with one more use, which is listed once. -/
def addReference (usage : Handle) (s : Symbol) : Symbol :=
  { s with references := appendNew s.references usage }

/-- The declaration without the uses in a file. -/
def dropReferencesFrom (file : FileId) (s : Symbol) : Symbol :=
  { s with references := s.references.filter (·.file != file) }

end Symbol

namespace SymbolTree

variable (t : SymbolTree)

/-- The tree with one symbol changed. -/
def modify (id : NodeId) (f : Symbol → Symbol) : SymbolTree :=
  { t with nodes := t.nodes.modify id f }

/-- The tree with one more child of a node. -/
def attach (parent child : NodeId) : SymbolTree :=
  t.modify parent fun s => { s with children := s.children ++ [child] }

/-- The tree with one more pending use. -/
def enqueue (usage : NodeId) : SymbolTree :=
  { t with pending := appendNew t.pending usage }

/-- The tree with a use linked to its declaration. -/
def link (usage : NodeId) (declaration : Handle) : SymbolTree :=
  { t.modify usage (Symbol.linkTo declaration) with pending := t.pending.erase usage }

/-- The tree with a reference from a declaration back to a use. -/
def addReference (declaration : NodeId) (usage : Handle) : SymbolTree :=
  t.modify declaration (Symbol.addReference usage)

/-- The tree with a use linked from outside. -/
def linkExternal (usage : NodeId) (declaration : Handle) : SymbolTree :=
  let t := t.link usage declaration
  { t with external := appendNew t.external usage }

/-- The tree without its links from outside, whose uses are pending again. -/
def unlinkExternal : SymbolTree :=
  let nodes := t.external.foldl (fun ns usage => ns.modify usage Symbol.unlink) t.nodes
  { t with
    nodes := nodes
    pending := ascending (t.external.foldl appendNew t.pending)
    external := [] }

/-- How many links from outside are taken back, and the tree without them. -/
def takeBackExternal : Nat × SymbolTree :=
  (t.external.length, t.unlinkExternal)

/-- The tree without the references to uses in a file. -/
def dropReferencesFrom (file : FileId) : SymbolTree :=
  { t with nodes := t.nodes.map (Symbol.dropReferencesFrom file) }

/-! ### Numbers of nodes do not change -/

/-- A node that is changed in its place leaves the number of nodes as it is. -/
@[simp] theorem size_modify (id : NodeId) (f : Symbol → Symbol) :
    (t.modify id f).size = t.size := by
  simp [modify, size]

/-- Links add no node. -/
@[simp] theorem size_link (usage : NodeId) (d : Handle) : (t.link usage d).size = t.size := by
  simp [link, size, modify]

@[simp] theorem pending_modify (id : NodeId) (f : Symbol → Symbol) :
    (t.modify id f).pending = t.pending := rfl

@[simp] theorem pending_addReference (d : NodeId) (usage : Handle) :
    (t.addReference d usage).pending = t.pending := rfl

/-- A use that is linked leaves the pool. -/
@[simp] theorem pending_link (usage : NodeId) (d : Handle) :
    (t.link usage d).pending = t.pending.erase usage := rfl

@[simp] theorem pending_linkExternal (usage : NodeId) (d : Handle) :
    (t.linkExternal usage d).pending = t.pending.erase usage := rfl

end SymbolTree

end SolidityAtlas

import SolidityAtlas.Symbol.Tree

/-!
# Forests

A `Forest` gives access to the symbols of one file or of many. Names are looked
up in the same way in both: a single tree is a forest too, one in which an import
leads nowhere.

## Main Definitions

* `Forest`, `Forest.ofTree`
* `Forest.symbol?`: the symbol behind a handle
* `Forest.children`, `Forest.members`, `Forest.enclosing?`: steps through a tree by handles
-/

namespace SolidityAtlas

/-- The symbols of some files, and where the names behind a file alias lead. -/
structure Forest where
  /-- The tree of a file. -/
  tree : FileId → Option SymbolTree
  /-- What a name stands for in the file that an import directive names. -/
  imported : Handle → String → Option Handle

namespace Forest

/-- The forest of a single tree. -/
def ofTree (t : SymbolTree) : Forest where
  tree file := if file = t.file then some t else none
  imported _ _ := none

variable (f : Forest)

/-- The tree that a handle was made for, if that is still the tree of its file. -/
def home? (h : Handle) : Option SymbolTree :=
  (f.tree h.file).filter (·.owns h)

/-- The symbol behind a handle. -/
def symbol? (h : Handle) : Option Symbol :=
  (f.tree h.file).bind (·.lookup? h)

/-- The kind of the node behind a handle. -/
def kind? (h : Handle) : Option NodeKind :=
  (f.symbol? h).map Symbol.kind

/-- The name of the node behind a handle. -/
def name? (h : Handle) : Option String :=
  (f.symbol? h).bind Symbol.name

/-- The declaration that the use behind a handle refers to. -/
def declaration? (h : Handle) : Option Handle :=
  (f.symbol? h).bind Symbol.declaration

/-- The nodes directly inside a node. -/
def children (h : Handle) : List Handle :=
  match f.home? h with
  | some t => (t.children h.node).map h.withNode
  | none => []

/-- The first node inside a node. -/
def firstChild? (h : Handle) : Option Handle :=
  (f.children h).head?

/-- A node, the first node inside it, the first inside that, and so on. -/
def spine (h : Handle) : List Handle :=
  match f.home? h with
  | some t => (t.spine h.node).map h.withNode
  | none => [h]

/-- The declarations that belong to a node. -/
def members (h : Handle) : List Handle :=
  match f.home? h with
  | some t => (t.members h.node).map h.withNode
  | none => []

/-- The nearest node of a certain kind around a node. -/
def enclosing? (k : NodeKind) (h : Handle) : Option Handle :=
  (f.home? h).bind fun t => (t.enclosing? k h.node).map h.withNode

/-- The nodes around a node, from the inside out. -/
def ancestors (h : Handle) : List Handle :=
  match f.home? h with
  | some t => (t.ancestors h.node).map h.withNode
  | none => []

/-- The declaration with a certain name that belongs to a node. -/
def memberNamed? (name : String) (h : Handle) : Option Handle :=
  (f.members h).find? fun m => f.name? m == some name

/-- The declaration that belongs to a node and can be what a use refers to. -/
def memberAccepting? (usage : Symbol) (h : Handle) : Option Handle :=
  (f.members h).find? fun m => (f.symbol? m).any (·.accepts usage)

end Forest

end SolidityAtlas

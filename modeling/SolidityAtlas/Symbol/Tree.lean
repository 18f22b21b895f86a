import SolidityAtlas.Row.Sorted
import SolidityAtlas.Symbol.Basic

/-!
# Symbol trees

The symbols of a file form a tree. They are numbered in the order in which their
texts begin, a node before what it holds, so a parent has a smaller number than
its children. A step up or down the tree that would break this rule is not taken;
in a tree made from a text there is none.

Uses that have found no declaration yet are *pending*, the oldest first.

## Main Definitions

* `SymbolTree`: the symbols of a file, and the pending uses
* `SymbolTree.parent?`, `SymbolTree.children`, `SymbolTree.ancestors`
* `SymbolTree.enclosingScope?`, `SymbolTree.enclosingContract?`
* `SymbolTree.members`: the declarations that belong to a node
-/

namespace SolidityAtlas

/-- The symbols of a file. -/
structure SymbolTree where
  file : FileId
  /-- Which reading of the file the symbols come from. -/
  generation : Nat
  nodes : Array Symbol
  /-- The uses without a declaration, the oldest first. -/
  pending : List NodeId
  /-- The uses that are linked from outside, by what other files declare. -/
  external : List NodeId
deriving Inhabited, DecidableEq

namespace SymbolTree

variable (t : SymbolTree)

/-- The number of nodes. -/
def size : Nat :=
  t.nodes.size

/-- The number of the node that stands for the whole file. -/
def root : NodeId := 0

/-- The symbol with a number. -/
def symbol? (id : NodeId) : Option Symbol :=
  t.nodes[id]?

/-- The kind of a node. -/
def kind? (id : NodeId) : Option NodeKind :=
  (t.symbol? id).map Symbol.kind

/-- The handle of a node. -/
def handle (id : NodeId) : Handle :=
  ⟨t.file, t.generation, id⟩

/-- Whether a handle was made for a node of this very tree. -/
def owns (h : Handle) : Bool :=
  h.file == t.file && h.generation == t.generation && decide (h.node < t.size)

/-- The symbol behind a handle that was made for this very tree. -/
def lookup? (h : Handle) : Option Symbol :=
  if t.owns h then t.symbol? h.node else none

/-- Whether a use is pending. -/
def isPending (id : NodeId) : Bool :=
  t.pending.contains id

/-- The number of uses. -/
def usageCount : Nat :=
  t.nodes.countP Symbol.isUsage

/-- The number of uses that have found their declaration. -/
def resolvedCount : Nat :=
  t.nodes.countP fun s => s.isUsage && s.isResolved

/-! ### Up and down -/

/-- The node around a node. -/
def parent? (id : NodeId) : Option NodeId :=
  ((t.symbol? id).bind Symbol.parent).filter (· < id)

/-- The nodes directly inside a node. -/
def children (id : NodeId) : List NodeId :=
  match t.symbol? id with
  | some s => s.children.filter fun c => decide (id < c ∧ c < t.size)
  | none => []

variable {t}

/-- A parent has a smaller number than its children. -/
theorem parent?_lt {id p : NodeId} (h : t.parent? id = some p) : p < id := by
  simpa using (Option.filter_eq_some_iff.1 h).2

/-- Children come behind their parent, and are nodes of the tree. -/
theorem lt_of_mem_children {id c : NodeId} (h : c ∈ t.children id) : id < c ∧ c < t.size := by
  unfold children at h
  split at h
  · simpa using (List.mem_filter.1 h).2
  · simp at h

/-- A child has fewer nodes behind it than its parent. -/
theorem sub_lt_of_mem_children {id c : NodeId} (h : c ∈ t.children id) : t.size - c < t.size - id :=
  have ⟨hid, hc⟩ := lt_of_mem_children h
  Nat.sub_lt_sub_left (Nat.lt_trans hid hc) hid

/-- The nodes around a node, from the inside out. -/
def ancestors (t : SymbolTree) (id : NodeId) : List NodeId :=
  match _h : t.parent? id with
  | some p => p :: t.ancestors p
  | none => []
termination_by id
decreasing_by exact parent?_lt _h

variable (t)

/-- Whether a node stands inside another one, at any depth. -/
def isInside (id outer : NodeId) : Bool :=
  (t.ancestors id).contains outer

/-- The nearest node of a certain kind around a node. -/
def enclosing? (k : NodeKind) (id : NodeId) : Option NodeId :=
  (t.ancestors id).find? fun a => t.kind? a == some k

/-- The nearest node around a node that opens a scope. -/
def enclosingScope? (id : NodeId) : Option NodeId :=
  (t.ancestors id).find? fun a => (t.kind? a).any NodeKind.isScope

/-- The contract that a node stands in. -/
def enclosingContract? (id : NodeId) : Option NodeId :=
  t.enclosing? .contractDefinition id

/-- The first node inside a node. -/
def firstChild? (id : NodeId) : Option NodeId :=
  (t.children id).head?

/-- A node, the first node inside it, the first inside that, and so on. -/
def spine (t : SymbolTree) (id : NodeId) : List NodeId :=
  match _h : t.firstChild? id with
  | some c => id :: t.spine c
  | none => [id]
termination_by t.size - id
decreasing_by
  exact sub_lt_of_mem_children (List.mem_of_head? _h)

/-- The declarations that belong to a node. What stands in a parameter list, in a state
variable or in a declaration statement belongs to the node around it. -/
def members (t : SymbolTree) (scope : NodeId) : List NodeId :=
  (t.children scope).attach.flatMap fun ⟨c, _⟩ =>
    match t.symbol? c with
    | none => []
    | some s =>
      if s.kind.isHolder then t.members c
      else if s.isDeclaration then [c]
      else []
termination_by t.size - scope
decreasing_by
  exact sub_lt_of_mem_children ‹_›

/-! ### The file as a whole -/

/-- The declarations of the file that other files can see. -/
def exported : List NodeId :=
  (t.members root).filter fun id => t.kind? id != some .importDirective

/-- The import directives, in the order of the text. -/
def imports : List NodeId :=
  (t.children root).filter fun id => t.kind? id == some .importDirective

/-- The files that uses of this one are linked into, in ascending order, itself left out. -/
def linkedFiles : List FileId :=
  let files := t.nodes.toList.filterMap fun s => s.declaration.map Handle.file
  (ascending (files.filter (· != t.file))).eraseDups

end SymbolTree

end SolidityAtlas

import SolidityAtlas.Symbol.Tree

/-!
# The node at a position

A cursor is in the deepest node that it touches. From the file as a whole one goes
down, always into the first node that the cursor touches, until there is none. An
editor is asked about that node if it refers to something, and answers with places
at which symbols are named.

## Main Definitions

* `SymbolTree.nodeAt?`: the node that a cursor is in
* `Location`: a place in a file
* `Symbol.nameRange`: where a symbol is named
* `NodeKind.isHoverable`: the kinds of nodes that are asked about
-/

namespace SolidityAtlas

namespace SymbolTree

/-- Whether a cursor touches a node. -/
def touches (t : SymbolTree) (p : Position) (id : NodeId) : Bool :=
  (t.symbol? id).any (·.range.contains p)

/-- The deepest node that a cursor inside the node `id` touches. -/
def deepestAt (t : SymbolTree) (p : Position) (id : NodeId) : NodeId :=
  match _h : (t.children id).find? (t.touches p) with
  | some c => t.deepestAt p c
  | none => id
termination_by t.size - id
decreasing_by exact sub_lt_of_mem_children (List.mem_of_find?_eq_some _h)

/-- The node that a cursor is in. -/
def nodeAt? (t : SymbolTree) (p : Position) : Option NodeId :=
  if t.touches p root then some (t.deepestAt p root) else none

end SymbolTree

/-- A place in a file. -/
structure Location where
  file : FileId
  span : Span
deriving DecidableEq, Inhabited

/-- Where a symbol is named, or all of it if it has no name. -/
def Symbol.nameRange (s : Symbol) : Span :=
  (s.label.map Label.range).getD s.range

/-- The kinds of nodes that are asked about under a cursor. -/
def NodeKind.isHoverable : NodeKind → Bool
  | identifier | memberAccess | userDefinedTypeName | modifierInvocation => true
  | _ => false

end SolidityAtlas

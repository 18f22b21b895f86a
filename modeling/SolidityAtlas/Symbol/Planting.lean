import SolidityAtlas.Symbol.Link

/-!
# Planting

The nodes of a syntax tree, each made into a symbol without links. They are
numbered so that a node comes before what it holds. No node has children yet;
those are attached when names are looked up, each node when all that it holds
has been dealt with. The order of these attachments is the *settling order*: a
node comes behind what it holds.

The first node inside a call, a member access or an index access is its head and
gets it as its context. Call options pass on the context of their own.

## Main Definitions

* `SyntaxTree.nodeCount`: how many numbers a tree takes
* `plant`: the symbols of a tree
* `settlingOrder`: the numbers of its nodes in the order in which they are dealt with
-/

namespace SolidityAtlas

namespace SyntaxTree

mutual

/-- The number of nodes of a tree. -/
def nodeCount : SyntaxTree → Nat
  | leaf _ _ => 0
  | node _ inner => nodeCountOf inner + 1

/-- The number of nodes of a row of trees. -/
def nodeCountOf : List SyntaxTree → Nat
  | [] => 0
  | t :: ts => nodeCount t + nodeCountOf ts

end

/-- Whether a tree is a token. -/
def isLeaf : SyntaxTree → Bool
  | leaf _ _ => true
  | node _ _ => false

end SyntaxTree

/-- The context of the first node inside a node. -/
def headContext (kind : NodeKind) (context : Option NodeKind) : Option NodeKind :=
  match kind with
  | .functionCall | .memberAccess | .indexAccess => some kind
  | .nameValueExpression => context
  | _ => none

/-- What a row of trees stands in: the node around it and that node's kind, and the context
of the first node of the row. -/
structure Surroundings where
  kind : Option NodeKind
  parent : Option NodeId
  context : Option NodeKind

mutual

/-- The symbols of a tree that starts at byte `start` and takes the numbers from `id` on. -/
def plant (m : LineMap) (around : Surroundings) (id start : Nat) : SyntaxTree → List Symbol
  | .leaf _ _ => []
  | .node kind inner =>
    .ofSite m around.parent around.context ⟨kind, inner, start, around.kind⟩ ::
      plantAll m ⟨some kind, some id, headContext kind around.context⟩ (id + 1) start inner

/-- The symbols of a row of trees. -/
def plantAll (m : LineMap) (around : Surroundings) (id start : Nat) : List SyntaxTree → List Symbol
  | [] => []
  | t :: ts =>
    plant m around id start t ++
      plantAll m { around with context := if t.isLeaf then around.context else none }
        (id + t.nodeCount) (start + t.byteLength) ts

end

mutual

/-- The numbers of the nodes of a tree that takes the numbers from `id` on, a node behind
what it holds. -/
def settlingOrder (id : Nat) : SyntaxTree → List NodeId
  | .leaf _ _ => []
  | .node _ inner => settlingOrderOf (id + 1) inner ++ [id]

/-- The numbers of the nodes of a row of trees. -/
def settlingOrderOf (id : Nat) : List SyntaxTree → List NodeId
  | [] => []
  | t :: ts => settlingOrder id t ++ settlingOrderOf (id + t.nodeCount) ts

end

mutual

/-- Every node of the syntax tree is planted once. -/
theorem length_plant (m : LineMap) (around : Surroundings) (id start : Nat) :
    (t : SyntaxTree) → (plant m around id start t).length = t.nodeCount
  | .leaf _ _ => rfl
  | .node _ inner => by
    simp [plant, SyntaxTree.nodeCount, length_plantAll]

/-- The nodes of a row are planted one tree after the other. -/
theorem length_plantAll (m : LineMap) (around : Surroundings) (id start : Nat) :
    (ts : List SyntaxTree) → (plantAll m around id start ts).length = SyntaxTree.nodeCountOf ts
  | [] => rfl
  | t :: ts => by
    simp [plantAll, SyntaxTree.nodeCountOf, length_plant, length_plantAll]

end

/-- The symbols of a syntax tree, not yet attached to each other. -/
def SymbolTree.planted (file : FileId) (generation : Nat) (m : LineMap) (tree : SyntaxTree) :
    SymbolTree where
  file := file
  generation := generation
  nodes := (plant m ⟨none, none, none⟩ 0 0 tree).toArray
  pending := []
  external := []

end SolidityAtlas

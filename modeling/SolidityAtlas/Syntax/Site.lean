import SolidityAtlas.Syntax.Tree

/-!
# Places in a tree

A syntax tree knows no places. A `Site` is a node of a tree together with the
byte at which it starts and the kind of the node it stands in. Its tokens and
its inner nodes are found with their places, in the order of the text.

## Main Definitions

* `Site`: a node in its place
* `Site.tokens`, `Site.nodes`: the tokens and the nodes that stand directly in it
* `Site.descend`: the site itself and all nodes below, each before what it holds
-/

namespace SolidityAtlas

/-- A node of a syntax tree in its place. -/
structure Site where
  kind : NodeKind
  children : List SyntaxTree
  /-- The byte at which the node starts. -/
  start : Nat
  /-- The kind of the node around it; the root stands in none. -/
  around : Option NodeKind
deriving Inhabited

namespace Site

/-- The tokens of a row of trees that starts at byte `start`, inner nodes left out. -/
def tokensAt : (start : Nat) → List SyntaxTree → List Token
  | _, [] => []
  | start, .leaf kind text :: ts => ⟨kind, text, start⟩ :: tokensAt (start + text.utf8ByteSize) ts
  | start, .node _ inner :: ts => tokensAt (start + SyntaxTree.byteLengthOf inner) ts

/-- The nodes of a row of trees that starts at byte `start` within a node of kind `around`. -/
def nodesAt (around : Option NodeKind) : (start : Nat) → List SyntaxTree → List Site
  | _, [] => []
  | start, .leaf _ text :: ts => nodesAt around (start + text.utf8ByteSize) ts
  | start, .node kind inner :: ts =>
    ⟨kind, inner, start, around⟩ :: nodesAt around (start + SyntaxTree.byteLengthOf inner) ts

/-- The tokens that stand directly in a node. -/
def tokens (s : Site) : List Token :=
  tokensAt s.start s.children

/-- The nodes that stand directly in a node. -/
def nodes (s : Site) : List Site :=
  nodesAt (some s.kind) s.start s.children

/-- The byte behind a node. -/
def stop (s : Site) : Nat :=
  s.start + SyntaxTree.byteLengthOf s.children

/-- The root of a tree. A bare token is no site. -/
def ofTree? : SyntaxTree → Option Site
  | .leaf _ _ => none
  | .node kind children => some ⟨kind, children, 0, none⟩

mutual

/-- The node of a tree that starts at byte `start`, if it is one, and all nodes below. -/
def descendTree (around : Option NodeKind) (start : Nat) : SyntaxTree → List Site
  | .leaf _ _ => []
  | .node kind inner => ⟨kind, inner, start, around⟩ :: descendTrees (some kind) start inner

/-- The nodes of a row of trees that starts at byte `start`, and all nodes below. -/
def descendTrees (around : Option NodeKind) (start : Nat) : List SyntaxTree → List Site
  | [] => []
  | t :: ts => descendTree around start t ++ descendTrees around (start + t.byteLength) ts

end

/-- A node and all nodes below, each before what it holds. -/
def descend (s : Site) : List Site :=
  s :: descendTrees (some s.kind) s.start s.children

end Site

end SolidityAtlas

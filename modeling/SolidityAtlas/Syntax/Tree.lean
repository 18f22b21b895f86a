import SolidityAtlas.Syntax.Kind
import SolidityAtlas.Token.Stream

/-!
# Syntax trees

A `SyntaxTree` has the tokens of a text as its leaves, trivia and skipped text
included. It knows no places: where a piece stands follows from the leaves in
front of it.

## Main Definitions

* `SyntaxTree`: a token, or a node with its children in order
* `SyntaxTree.leaves`: the tokens of a tree from left to right
* `SyntaxTree.text`, `SyntaxTree.byteLength`: the text of a tree and its length
-/

namespace SolidityAtlas

/-- A token of a text, or a node over a stretch of it. -/
inductive SyntaxTree where
  | leaf (kind : TokenKind) (text : String)
  | node (kind : NodeKind) (children : List SyntaxTree)
deriving Inhabited

namespace SyntaxTree

mutual

/-- The tokens of a tree, from left to right. -/
def leaves : SyntaxTree → List (TokenKind × String)
  | leaf kind text => [(kind, text)]
  | node _ children => leavesOf children

/-- The tokens of a row of trees, from left to right. -/
def leavesOf : List SyntaxTree → List (TokenKind × String)
  | [] => []
  | t :: ts => leaves t ++ leavesOf ts

end

mutual

/-- The length of the text of a tree in bytes. -/
def byteLength : SyntaxTree → Nat
  | leaf _ text => text.utf8ByteSize
  | node _ children => byteLengthOf children

/-- The length of the text of a row of trees in bytes. -/
def byteLengthOf : List SyntaxTree → Nat
  | [] => 0
  | t :: ts => byteLength t + byteLengthOf ts

end

/-- The text of a tree. -/
def text (t : SyntaxTree) : String :=
  String.join (t.leaves.map (·.2))

/-- The leaves of a row are those of its parts, one after the other. -/
theorem leavesOf_append (ts us : List SyntaxTree) :
    leavesOf (ts ++ us) = leavesOf ts ++ leavesOf us := by
  induction ts with
  | nil => simp [leavesOf]
  | cons t ts ih => simp [leavesOf, ih]

end SyntaxTree

end SolidityAtlas

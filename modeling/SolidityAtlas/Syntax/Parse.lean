import SolidityAtlas.Syntax.Pursuit

/-!
# Parsing

Every text has a syntax tree. What does not fit is reported as a fault and kept
in the tree.

## Main Definitions

* `Parse`: a tree with its faults
* `parse`: the tree of a file
* `parseExpression`: the tree of an expression in a row of tokens
-/

namespace SolidityAtlas

/-- The tree of a text and its faults, in the order in which they were met. -/
structure Parse where
  tree : SyntaxTree
  faults : List Fault
deriving Inhabited

/-- Whether a text has no faults. -/
def Parse.isClean (p : Parse) : Bool :=
  p.faults.isEmpty

/-- Reads the tokens of a file. -/
def parseTokens (tokens : List Token) : Parse :=
  let d := (pursue [.items] (Draft.start .sourceUnit tokens)).skipTrivia
  ⟨d.finish, d.faults.reverse⟩

/-- Reads a file. -/
def parse (text : String) : Parse :=
  parseTokens (tokenize text)

/-- Reads an expression at the front of a row of tokens: the draft after it. -/
def parseExpression (tokens : List Token) : Draft :=
  pursue [.expression 0] (Draft.start .sourceUnit tokens)

end SolidityAtlas

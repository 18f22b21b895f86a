import SolidityAtlas.Syntax.Parse

/-!
# Expressions of operators

A `Term` is an expression of names, parentheses and operators, as one means it. It is written
down as a row of tokens (`Term.leaves`), and the row does not show which operand belongs to which
operator; that is left to the ladder of levels (`TokenKind.level?`), loosest first:

    assignments, '?:', '||', '&&', '==' '!=', '<' '>' '<=' '>=', '|', '^', '&',
    '<<' '>>' '>>>', '+' '-', '*' '/' '%', '**', operators in front, operators behind

Assignments, conditionals and '**' group to the right, all others to the left. A term respects the
ladder if each operand stands high enough for the place in which it is (`Term.Respects`). What
stands between brackets, or between the two parts of a conditional, may be anything.

## Main Definitions

* `TokenKind.level?`, `groupsRight`: the ladder
* `Term`, `Term.leaves`, `Term.tree`: a term, its tokens and its tree
* `Term.Respects`: the operands of a term stand where they may
-/

namespace SolidityAtlas

/-! ## The ladder -/

/-- The level of the operator that a token is behind an operand, loosest first. -/
def TokenKind.level? : TokenKind → Option Nat
  | .question => some 2
  | .pipePipe => some 3
  | .ampAmp => some 4
  | .eqEq | .bangEq => some 5
  | .lt | .gt | .ltEq | .gtEq => some 6
  | .pipe => some 7
  | .caret => some 8
  | .amp => some 9
  | .shl | .shr | .sar => some 10
  | .plus | .minus => some 11
  | .star | .slash | .percent => some 12
  | .starStar => some 13
  | k => if k.isAssignment then some 1 else none

/-- Whether the operators of a level group to the right. -/
def groupsRight (level : Nat) : Bool :=
  level == 1 || level == 2 || level == 13

/-- The level of the operators in front of an operand. -/
def frontLevel : Nat := 14

/-- The level of the operators, accesses and calls behind an operand, and of all that is closed
in itself. -/
def suffixLevel : Nat := 15

/-- The operators that may stand in front. -/
def frontOperators : List TokenKind :=
  [.bang, .tilde, .minus, .plusPlus, .minusMinus, .deleteKw]

/-- The operators that may stand behind. -/
def behindOperators : List TokenKind :=
  [.plusPlus, .minusMinus]

/-! ## Terms -/

/-- An expression of names, parentheses and operators. Its names and operators are given by the
kinds and texts of their tokens. -/
inductive Term where
  | name (word : TokenKind × String)
  | tuple (inner : Term)
  | access (base : Term) (member : TokenKind × String)
  | index (base inner : Term)
  | call (callee : Term) (arguments : List Term)
  | behind (operand : Term) (operator : TokenKind × String)
  | front (operator : TokenKind × String) (operand : Term)
  | binary (left : Term) (operator : TokenKind × String) (right : Term)
  | conditional (condition middle otherwise : Term)

namespace Term

mutual

/-- The tokens of a term, from left to right. -/
def leaves : Term → List (TokenKind × String)
  | name word => [word]
  | tuple inner => (.lParen, "(") :: (inner.leaves ++ [(.rParen, ")")])
  | access base member => base.leaves ++ [(.dot, "."), member]
  | index base inner => base.leaves ++ (.lBracket, "[") :: (inner.leaves ++ [(.rBracket, "]")])
  | call callee arguments =>
    callee.leaves ++ (.lParen, "(") :: (argumentLeaves arguments ++ [(.rParen, ")")])
  | behind operand operator => operand.leaves ++ [operator]
  | front operator operand => operator :: operand.leaves
  | binary left operator right => left.leaves ++ operator :: right.leaves
  | conditional condition middle otherwise =>
    condition.leaves ++
      (.question, "?") :: (middle.leaves ++ (.colon, ":") :: otherwise.leaves)

/-- The tokens of arguments, with commas between them. -/
def argumentLeaves : List Term → List (TokenKind × String)
  | [] => []
  | e :: es => e.leaves ++ moreLeaves es

/-- The tokens of arguments, with a comma before each. -/
def moreLeaves : List Term → List (TokenKind × String)
  | [] => []
  | e :: es => (.comma, ",") :: (e.leaves ++ moreLeaves es)

end

/-- A token as a leaf. -/
def leafOf (word : TokenKind × String) : SyntaxTree :=
  .leaf word.1 word.2

/-- A token that serves as a name, as a leaf. -/
def identOf (word : TokenKind × String) : SyntaxTree :=
  .leaf .ident word.2

mutual

/-- The syntax tree of a term. -/
def tree : Term → SyntaxTree
  | name word => .node .identifier [identOf word]
  | tuple inner => .node .tupleExpression [.leaf .lParen "(", inner.tree, .leaf .rParen ")"]
  | access base member => .node .memberAccess [base.tree, .leaf .dot ".", identOf member]
  | index base inner =>
    .node .indexAccess [base.tree, .leaf .lBracket "[", inner.tree, .leaf .rBracket "]"]
  | call callee arguments =>
    .node .functionCall [callee.tree, .node .callArguments
      (.leaf .lParen "(" :: (argumentTrees arguments ++ [.leaf .rParen ")"]))]
  | behind operand operator => .node .unaryOperation [operand.tree, leafOf operator]
  | front operator operand => .node .unaryOperation [leafOf operator, operand.tree]
  | binary left operator right => .node .binaryOperation [left.tree, leafOf operator, right.tree]
  | conditional condition middle otherwise =>
    .node .conditional
      [condition.tree, .leaf .question "?", middle.tree, .leaf .colon ":", otherwise.tree]

/-- The syntax trees of arguments, with commas between them. -/
def argumentTrees : List Term → List SyntaxTree
  | [] => []
  | e :: es => e.tree :: moreTrees es

/-- The syntax trees of arguments, with a comma before each. -/
def moreTrees : List Term → List SyntaxTree
  | [] => []
  | e :: es => .leaf .comma "," :: e.tree :: moreTrees es

end

/-- The level of a term: that of the operator that is applied last. -/
def level : Term → Nat
  | binary _ operator _ => (operator.1.level?).getD 0
  | conditional _ _ _ => 2
  | front _ _ => frontLevel
  | _ => suffixLevel

mutual

/-- The operands of a term stand where they may. At the side to which an operator groups, an
operand of the operator's own level is good enough. -/
def Respects : Term → Prop
  | name word => word.1.isName = true
  | tuple inner => inner.Respects
  | access base member =>
    base.Respects ∧ suffixLevel ≤ base.level ∧ (member.1.isName || member.1.isKeyword) = true
  | index base inner => base.Respects ∧ suffixLevel ≤ base.level ∧ inner.Respects
  | call callee arguments =>
    callee.Respects ∧ suffixLevel ≤ callee.level ∧ RespectAll arguments
  | behind operand operator =>
    operand.Respects ∧ suffixLevel ≤ operand.level ∧ operator.1 ∈ behindOperators
  | front operator operand =>
    operator.1 ∈ frontOperators ∧ operand.Respects ∧ frontLevel ≤ operand.level
  | binary left operator right =>
    left.Respects ∧ right.Respects ∧ operator.1 ≠ .question ∧
      ∃ level, operator.1.level? = some level ∧
        if groupsRight level then level < left.level ∧ level ≤ right.level
        else level ≤ left.level ∧ level < right.level
  | conditional condition middle otherwise =>
    condition.Respects ∧ middle.Respects ∧ otherwise.Respects ∧
      2 < condition.level ∧ 2 ≤ otherwise.level

/-- All terms of a row have their operands where they may stand. -/
def RespectAll : List Term → Prop
  | [] => True
  | e :: es => e.Respects ∧ RespectAll es

end

end Term

end SolidityAtlas

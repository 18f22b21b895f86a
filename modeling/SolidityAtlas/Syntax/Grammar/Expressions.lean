import SolidityAtlas.Syntax.Grammar.Types

/-!
# Expressions

Operators bind in this order, loosest first:

    assignments (right), '?:' (right), '||', '&&', '==' '!=',
    '<' '>' '<=' '>=', '|', '^', '&', '<<' '>>' '>>>', '+' '-',
    '*' '/' '%', '**' (right), operators in front, operators behind

Each binary operator has two *powers*. The left one must reach the least power
that is asked for where the operator stands; the right one is asked for in its
right operand. An operator groups to the left if its right power is the greater
one, and to the right otherwise.

An operand is read before its operator is known. The node of the operator is
opened at the mark in front of the operand and so takes it in.
-/

namespace SolidityAtlas.Grammar

open Draft

/-- The powers of a binary operator, left and right. -/
def powers? : TokenKind → Option (Nat × Nat)
  | .pipePipe => some (5, 6)
  | .ampAmp => some (7, 8)
  | .eqEq | .bangEq => some (9, 10)
  | .lt | .gt | .ltEq | .gtEq => some (11, 12)
  | .pipe => some (13, 14)
  | .caret => some (15, 16)
  | .amp => some (17, 18)
  | .shl | .shr | .sar => some (19, 20)
  | .plus | .minus => some (21, 22)
  | .star | .slash | .percent => some (23, 24)
  | .starStar => some (26, 25)
  | k => if k.isAssignment then some (2, 1) else none

/-- The left power of the conditional operator. -/
def conditionalPower : Nat := 4

/-- What is asked for behind the colon of a conditional. -/
def elsePower : Nat := 3

/-- What is asked for behind an operator that stands in front. -/
def unaryPower : Nat := 27

/-- The operators that stand in front of their operand. -/
def isUnaryFront : TokenKind → Bool
  | .bang | .tilde | .minus | .plusPlus | .minusMinus | .deleteKw => true
  | _ => false

/-- The kinds of tokens that an expression without operators starts with. -/
def startsPrimary : TokenKind → Bool
  | .typeKw | .decimalNumber | .hexNumber | .trueKw | .falseKw | .string | .hexString
  | .lParen | .lBracket | .newKw | .elementaryTypeKw | .payableKw => true
  | k => k.isName

/-- The kinds of tokens that an expression starts with. -/
def startsExpression (k : TokenKind) : Bool :=
  isUnaryFront k || startsPrimary k

/-- Notes that an expression was needed. -/
def noExpression (d : Draft) : Draft :=
  d.skipTrivia.fault (.expectedExpression d.kind)

/-- Takes empty pairs of brackets behind an elementary type. -/
def emptyBrackets (mark : Nat) (d : Draft) : Draft :=
  if _h : d.isAt .lBracket = true ∧ d.kindAt 1 = .rBracket then
    emptyBrackets mark (d.openAt mark .arrayTypeName).bump.bump.close
  else d
termination_by d.size
decreasing_by
  have h : (d.openAt mark .arrayTypeName).atEnd = false := atEnd_of_at (d := d) (by decide) _h.1
  simp only [size_close]
  exact Nat.lt_of_le_of_lt size_bump_le (size_bump_lt h)

/-- Empty brackets take tokens only. -/
theorem size_emptyBrackets_le (mark : Nat) (d : Draft) : (emptyBrackets mark d).size ≤ d.size := by
  fun_induction emptyBrackets mark d with
  | case1 d h ih =>
    refine Nat.le_trans ih ?_
    simp only [size_close]
    exact Nat.le_trans size_bump_le size_bump_le
  | case2 => exact Nat.le_refl _

/-- Takes the first token of an expression without operators, and all of it if nothing
else can be inside. -/
def primaryStart (d : Draft) : Pursuit :=
  match d.kind with
  | .decimalNumber | .hexNumber =>
    let d := (d.openNode .numberLiteral).bump
    ((if d.isAt .ident && isUnit d.textHere then d.bump else d).close, [])
  | .trueKw | .falseKw => ((d.openNode .booleanLiteral).bump.close, [])
  | .string => (((d.openNode .stringLiteral).bump.bumpWhile (· == .string)).close, [])
  | .hexString => (((d.openNode .hexLiteral).bump.bumpWhile (· == .hexString)).close, [])
  | .lParen => ((d.openNode .tupleExpression).bump, [.tupleItems .lParen .rParen])
  | .lBracket => ((d.openNode .tupleExpression).bump, [.tupleItems .lBracket .rBracket])
  | .newKw => ((d.openNode .newExpression).bump, [.typeName, .close])
  | .elementaryTypeKw | .payableKw =>
    let d := d.openNode .typeNameExpression
    ((emptyBrackets d.mark (elementaryType d)).close, [])
  | _ => (((d.openNode .identifier).bumpAs .ident).close, [])

/-- Takes the start of an expression whose operators have at least the power `min`. -/
def expressionStart (min : Nat) (d : Draft) : Pursuit :=
  let d := d.skipTrivia
  let mark := d.mark
  if isUnaryFront d.kind then
    ((d.openNode .unaryOperation).bump,
      [.operand unaryPower .expectedOperand, .close, .operators mark min])
  else (primaryStart d).andThen [.suffixes mark none, .operators mark min]

/-- Takes the start of an expression, or notes that there is none. -/
def expression (min : Nat) (d : Draft) : Pursuit :=
  if startsExpression d.kind then expressionStart min d else (noExpression d, [])

/-- Takes the start of an operand, or notes that there is none and what lacks it. -/
def operand (min : Nat) (missing : FaultCause) (d : Draft) : Pursuit :=
  if startsExpression d.kind then expressionStart min d else ((noExpression d).fault missing, [])

/-- Takes the binary operator behind an expression if it binds tightly enough. -/
def operators (mark min : Nat) (d : Draft) : Pursuit :=
  if d.isAt .question then
    if min ≤ conditionalPower then
      ((d.openAt mark .conditional).bump,
        [.expression 0, .expect .colon, .expression elsePower, .close, .operators mark min])
    else (d, [])
  else
    match powers? d.kind with
    | some (left, right) =>
      if min ≤ left then
        ((d.openAt mark .binaryOperation).bump,
          [.operand right .expectedRightOperand, .close, .operators mark min])
      else (d, [])
    | none => (d, [])

/-- Takes the start of the arguments of a call. -/
def argumentsStart (d : Draft) : Pursuit :=
  let d := (d.openNode .callArguments).bump
  if d.isAt .lBrace then
    ((d.openNode .nameValueList).bump, [.namedValues, .expect .rParen, .close])
  else (d, [.arguments])

/-- Takes a name behind a dot. Reserved words are names there. -/
def memberName (d : Draft) : Draft :=
  if d.isAt .ident || d.atName || d.kind.isKeyword then d.bumpAs .ident
  else d.fault .expectedMemberName

/-- Takes the next access or call behind the expression at the mark. -/
def suffixes (mark : Nat) (last : Option NodeKind) (d : Draft) : Pursuit :=
  match d.kind with
  | .dot =>
    ((memberName (d.openAt mark .memberAccess).bump).close, [.suffixes mark (some .memberAccess)])
  | .lBracket =>
    let d := d.bump
    (d, (if d.isAt .colon || d.isAt .rBracket then [] else [.expression 0]) ++ [.indexMiddle mark])
  | .lParen =>
    (argumentsStart (d.openAt mark .functionCall)).andThen
      [.close, .suffixes mark (some .functionCall)]
  | .lBrace =>
    if last != some .functionCall && (d.kindAt 1).isName && d.kindAt 2 == .colon then
      (((d.openAt mark .nameValueExpression).openNode .nameValueList).bump,
        [.namedValues, .close, .suffixes mark (some .nameValueExpression)])
    else (d, [])
  | .plusPlus | .minusMinus =>
    ((d.openAt mark .unaryOperation).bump.close, [.suffixes mark (some .unaryOperation)])
  | _ => (d, [])

/-- Takes the colon of an index range, if there is one. -/
def indexMiddle (mark : Nat) (d : Draft) : Pursuit :=
  if d.isAt .colon then
    let d := d.bump
    (d, (if d.isAt .rBracket then [] else [.expression 0]) ++ [.indexEnd mark .indexRangeAccess])
  else (d, [.indexEnd mark .indexAccess])

/-- Takes the end of an index access. -/
def indexEnd (mark : Nat) (k : NodeKind) (d : Draft) : Pursuit :=
  (((d.expect .rBracket).openAt mark k).close, [.suffixes mark (some k)])

/-- Takes the end of a list in parentheses. -/
def closeParen (d : Draft) : Draft :=
  (d.expect .rParen).close

/-- Takes the end of a list in braces. -/
def closeBrace (d : Draft) : Draft :=
  (d.expect .rBrace).close

/-- Takes the start of the next argument, or the end of the arguments. -/
def arguments (d : Draft) : Pursuit :=
  if d.isAt .rParen || d.atEnd then (closeParen d, [])
  else if startsExpression d.kind then (expressionStart 0 d).andThen [.moreArguments]
  else (closeParen (noExpression d), [])

/-- Takes the comma before another argument, or the end of the arguments. -/
def moreArguments (d : Draft) : Pursuit :=
  if d.isAt .comma then (d.bump, [.arguments]) else (closeParen d, [])

/-- Takes the start of the next named argument, or the end of the list. -/
def namedValues (d : Draft) : Pursuit :=
  if d.atName then
    ((d.openNode .namedArgument).expectName.expect .colon,
      [.expression 0, .close, .moreNamedValues])
  else (closeBrace d, [])

/-- Takes the comma before another named argument, or the end of the list. -/
def moreNamedValues (d : Draft) : Pursuit :=
  if d.isAt .comma then (d.bump, [.namedValues]) else (closeBrace d, [])

/-- Takes the end of a tuple or an inline array. -/
def tupleEnd (opening closing : TokenKind) (d : Draft) : Draft :=
  (if d.isAt closing then d.bump else d.fault (.unclosed closing opening)).close

/-- Takes a comma, the start of the next element, or the end of the tuple. -/
def tupleItems (opening closing : TokenKind) (d : Draft) : Pursuit :=
  if d.isAt .comma then (d.bump, [.tupleItems opening closing])
  else if d.isAt closing || d.atEnd then (tupleEnd opening closing d, [])
  else if startsExpression d.kind then
    (expressionStart 0 d).andThen [.moreTupleItems opening closing]
  else (tupleEnd opening closing (noExpression d), [])

/-- Takes the comma before another element, or the end of the tuple. -/
def moreTupleItems (opening closing : TokenKind) (d : Draft) : Pursuit :=
  if d.isAt .comma then (d.bump, [.tupleItems opening closing])
  else (tupleEnd opening closing d, [])

end SolidityAtlas.Grammar

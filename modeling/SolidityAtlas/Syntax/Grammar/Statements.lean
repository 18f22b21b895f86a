import SolidityAtlas.Syntax.Grammar.Expressions

/-!
# Statements

Most statements are recognised by their first token. A declaration of local
variables is told from an expression by looking ahead: it starts with something
that reads as a type and is followed by a name or a data location.

A statement that starts like nothing at all is reported and left empty. If that
took nothing from the text, not even trivia, the text up to the next semicolon or
closing brace is skipped.

The body of inline assembly is kept as a run of tokens.
-/

namespace SolidityAtlas.Grammar

open Draft

/-- Whether a name or a data location follows the brackets behind a type; `depth` counts
the brackets that are open. -/
def declaresBehindBrackets (depth : Nat) : List TokenKind → Bool
  | [] => false
  | k :: ks =>
    match depth with
    | 0 => if k = .lBracket then declaresBehindBrackets 1 ks else k.isName || k.isDataLocation
    | n + 1 =>
      if k = .lBracket then declaresBehindBrackets (n + 2) ks
      else if k = .rBracket then declaresBehindBrackets n ks
      else declaresBehindBrackets (n + 1) ks

/-- Whether a declaration goes on behind the first name of a dotted path. -/
def declaresBehindName : List TokenKind → Bool
  | .dot :: k :: ks => k.isName && declaresBehindName ks
  | [.dot] => false
  | ks => declaresBehindBrackets 0 ks

/-- Whether tokens of these kinds start a declaration without parentheses. -/
def startsDeclarator : List TokenKind → Bool
  | [] => false
  | .mappingKw :: _ | .functionKw :: _ => true
  | .elementaryTypeKw :: .payableKw :: ks => declaresBehindBrackets 0 ks
  | .elementaryTypeKw :: ks => declaresBehindBrackets 0 ks
  | k :: ks => k.isName && declaresBehindName ks

/-- Whether tokens of these kinds start a declaration of local variables. -/
def startsDeclaration : List TokenKind → Bool
  | .lParen :: ks => startsDeclarator (ks.dropWhile (· == .comma))
  | ks => startsDeclarator ks

/-- Where reading goes on after text that is no statement. -/
def statementStops : List TokenKind :=
  [.semicolon, .rBrace]

/-- Notes that a statement was needed, and skips text if nothing else would be taken. -/
def noStatement (d : Draft) : Draft :=
  let tried := ((d.openNode .expressionStatement).fault (.expectedExpression d.kind)).close
  if tried.size < d.size || d.atEnd || d.isAt .rBrace then tried
  else (tried.recover .expectedStatement statementStops).eat .semicolon

/-- Takes the start of a local variable. -/
def localVariable (d : Draft) : Pursuit :=
  (typeStart (d.openNode .variableDeclaration)).andThen [.localEnd]

/-- Takes what follows the type of a local variable. -/
def localEnd (d : Draft) : Pursuit :=
  ((d.bumpWhile TokenKind.isDataLocation).expectName.close, [])

/-- Takes the start of a declaration of local variables. -/
def declaration (d : Draft) : Pursuit :=
  let d := d.openNode .variableDeclarationStatement
  if d.isAt .lParen then (d.bump, [.declarators, .initialiser])
  else (localVariable d).andThen [.initialiser]

/-- Takes a comma, the start of the next variable, or the end of the list. -/
def declarators (d : Draft) : Pursuit :=
  if d.isAt .comma then (d.bump, [.declarators])
  else if d.isAt .rParen || d.atEnd then (d.expect .rParen, [])
  else (localVariable d).andThen [.moreDeclarators]

/-- Takes the comma before another variable, or the end of the list. -/
def moreDeclarators (d : Draft) : Pursuit :=
  if d.isAt .comma then (d.bump, [.declarators]) else (d.expect .rParen, [])

/-- Takes an equals sign before an initial value, or the end of the declaration. -/
def initialiser (d : Draft) : Pursuit :=
  if d.isAt .eq then (d.bump, [.expression 0, .expect .semicolon, .close])
  else ((d.expect .semicolon).close, [])

/-- Takes the start of an expression that serves as a statement. -/
def expressionStatement (d : Draft) : Pursuit :=
  (expressionStart 0 (d.openNode .expressionStatement)).andThen [.expect .semicolon, .close]

/-- Takes a statement that consists of a word. -/
def wordStatement (k : NodeKind) (d : Draft) : Pursuit :=
  (((d.openNode k).bump.expect .semicolon).close, [])

/-- Takes the word before an expression that ends a statement. -/
def wordAndExpression (k : NodeKind) (d : Draft) : Pursuit :=
  ((d.openNode k).bump, [.expression 0, .expect .semicolon, .close])

/-- Takes inline assembly. -/
def inlineAssembly (d : Draft) : Draft :=
  let d := (d.openNode .inlineAssemblyStatement).bump.eat .string
  let d := if d.isAt .lParen then d.bumpBalanced .lParen .rParen 0 else d
  (if d.isAt .lBrace then ((d.openNode .assemblyBlock).bumpBalanced .lBrace .rBrace 0).close
    else d.fault .expectedAssembly).close

/-- Takes the opening brace of a block. -/
def block (d : Draft) : Pursuit :=
  let d := d.openNode .block
  if d.isAt .lBrace then (d.bump, [.statements]) else ((d.expect .lBrace).close, [])

/-- Takes the start of a statement that no word announces, or notes that there is none. -/
def plainStatement (d : Draft) : Pursuit :=
  if startsDeclaration d.solidKinds then declaration d
  else if startsExpression d.kind then expressionStatement d
  else (noStatement d, [])

/-- Takes the start of a statement. -/
def statement (d : Draft) : Pursuit :=
  match d.kind with
  | .lBrace => block d
  | .uncheckedKw =>
    if d.kindAt 1 = .lBrace then (block (d.openNode .uncheckedStatement).bump).andThen [.close]
    else plainStatement d
  | .ifKw =>
    ((d.openNode .ifStatement).bump.expect .lParen,
      [.expression 0, .expect .rParen, .statement, .elseBranch])
  | .whileKw =>
    ((d.openNode .whileStatement).bump.expect .lParen,
      [.expression 0, .expect .rParen, .statement, .close])
  | .doKw => ((d.openNode .doWhileStatement).bump, [.statement, .doWhileEnd])
  | .forKw =>
    ((d.openNode .forStatement).bump.expect .lParen,
      [.forInit, .forCondition, .forUpdate, .statement, .close])
  | .continueKw => wordStatement .continueStatement d
  | .breakKw => wordStatement .breakStatement d
  | .returnKw =>
    let d := (d.openNode .returnStatement).bump
    if d.isAt .semicolon then (d.bump.close, [])
    else (d, [.expression 0, .expect .semicolon, .close])
  | .emitKw => wordAndExpression .emitStatement d
  | .tryKw => ((d.openNode .tryStatement).bump, [.expression 0, .tryReturns, .block, .catches])
  | .assemblyKw => (inlineAssembly d, [])
  | .ident =>
    if d.textHere == "revert" && (d.kindAt 1).isName then wordAndExpression .revertStatement d
    else plainStatement d
  | _ => plainStatement d

/-- Takes the start of the next statement of a block, or its end. -/
def statements (d : Draft) : Pursuit :=
  if d.atEnd || d.isAt .rBrace then (closeBrace d, [])
  else (statement d).andThen [.statements]

/-- Takes `else` before the second branch, or ends the conditional statement. -/
def elseBranch (d : Draft) : Pursuit :=
  if d.isAt .elseKw then (d.bump, [.statement, .close]) else (d.close, [])

/-- Takes the start of the condition of a do-while loop. -/
def doWhileEnd (d : Draft) : Pursuit :=
  ((d.expect .whileKw).expect .lParen,
    [.expression 0, .expect .rParen, .expect .semicolon, .close])

/-- Takes the start of the first part of the head of a for loop. -/
def forInit (d : Draft) : Pursuit :=
  if d.isAt .semicolon then (d.bump, [])
  else if startsDeclaration d.solidKinds then declaration d
  else if startsExpression d.kind then expressionStatement d
  else ((noExpression (d.openNode .expressionStatement)).close, [])

/-- Goes on to the second part of the head of a for loop, which may be empty. -/
def forCondition (d : Draft) : Pursuit :=
  if d.isAt .semicolon then (d.bump, []) else (d, [.expression 0, .expect .semicolon])

/-- Goes on to the third part of the head of a for loop, which may be empty. -/
def forUpdate (d : Draft) : Pursuit :=
  if d.isAt .rParen then (d.bump, [])
  else (d.openNode .expressionStatement, [.expression 0, .close, .expect .rParen])

/-- Takes `returns` behind the call of a try statement. -/
def tryReturns (d : Draft) : Pursuit :=
  if d.isAt .returnsKw then (d.bump, [.parameters]) else (d, [])

/-- Takes the start of the next catch clause, or ends the try statement. -/
def catches (d : Draft) : Pursuit :=
  if d.isAt .catchKw then
    let d := (d.openNode .catchClause).bump.eatName
    (d, (if d.isAt .lParen then [.parameters] else []) ++ [.block, .close, .catches])
  else (d.close, [])

end SolidityAtlas.Grammar

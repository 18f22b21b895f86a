import SolidityAtlas.Token.Kind

/-!
# Syntax faults

A `Fault` says what a text should have had at a place and did not. Faults never
stop the reading of a text; they are collected beside the tree.

## Main Definitions

* `FaultCause`: what was missing
* `FaultCause.message`: the wording
* `Fault`: a cause and the bytes it is about
-/

namespace SolidityAtlas

/-- What is wrong at a place. -/
inductive FaultCause where
  /-- A certain token was needed. -/
  | expected (wanted found : TokenKind)
  /-- A name was needed. -/
  | expectedIdentifier (found : TokenKind)
  /-- A type name was needed. -/
  | expectedTypeName (found : TokenKind)
  /-- An expression was needed. -/
  | expectedExpression (found : TokenKind)
  /-- Neither a contract nor a file has a member that starts like this. -/
  | expectedMember (found : TokenKind)
  /-- Nothing follows a unary operator. -/
  | expectedOperand
  /-- Nothing follows a binary operator. -/
  | expectedRightOperand
  /-- No name follows a dot. -/
  | expectedMemberName
  /-- An import names no file. -/
  | expectedImportPath
  /-- An import does not end. -/
  | expectedImportEnd
  /-- `abstract` stands alone. -/
  | expectedContract
  /-- A parameter list holds something else. -/
  | expectedParameter
  /-- A block holds something else. -/
  | expectedStatement
  /-- Inline assembly has no body. -/
  | expectedAssembly
  /-- A struct holds something else. -/
  | unexpectedInStruct
  /-- A tuple or an inline array does not end. -/
  | unclosed (wanted opened : TokenKind)
  /-- A bracket that is skipped over has no partner. -/
  | unterminated (opened : TokenKind)
deriving DecidableEq, Inhabited

/-- The wording of a cause. -/
def FaultCause.message : FaultCause → String
  | expected wanted found => "expected " ++ wanted.name ++ ", found " ++ found.name
  | expectedIdentifier found => "expected identifier, found " ++ found.name
  | expectedTypeName found => "expected type name, found " ++ found.name
  | expectedExpression found => "expected expression, found " ++ found.name
  | expectedMember found => "expected contract member, found " ++ found.name
  | expectedOperand => "expected operand"
  | expectedRightOperand => "expected right operand"
  | expectedMemberName => "expected member name"
  | expectedImportPath => "expected import path, '*' or '\x7b'"
  | expectedImportEnd => "expected ';' after import"
  | expectedContract => "expected 'contract'"
  | expectedParameter => "expected parameter"
  | expectedStatement => "expected statement"
  | expectedAssembly => "expected assembly block"
  | unexpectedInStruct => "unexpected token in struct"
  | unclosed wanted opened => "expected " ++ wanted.name ++ " to close " ++ opened.name
  | unterminated opened => "unterminated " ++ opened.name

/-- A cause together with the bytes from `start` to `stop` that it is about. -/
structure Fault where
  cause : FaultCause
  start : Nat
  stop : Nat
deriving DecidableEq, Inhabited

/-- The wording of a fault. -/
def Fault.message (f : Fault) : String :=
  f.cause.message

end SolidityAtlas

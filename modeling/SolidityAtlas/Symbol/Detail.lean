import SolidityAtlas.Syntax.Reading
import SolidityAtlas.Symbol.Role

/-!
# Details of symbols

Beside a place and a name, some kinds of symbols carry what their text says: the
visibility of a function, the path of an import, the operator of an operation.

## Main Definitions

* `Detail`: what a symbol says, with its kind
* `Detail.ofSite`: the detail of a node
* `nameToken?`: the token that names a node
-/

namespace SolidityAtlas

/-- What a symbol says beside its name. -/
inductive Detail where
  | pragma (value : String)
  | importDirective (path : String) (unitAlias : Option String) (wildcard : Bool)
  | importSymbol (localName : Option String)
  | contract (flavour : ContractFlavour) (isAbstract : Bool)
  | usingFor (isGlobal : Bool)
  | modifier (isVirtual : Bool)
  | function (flavour : FunctionFlavour) (visibility : Option Visibility)
      (mutability : Mutability) (isVirtual : Bool)
  | event (anonymous : Bool)
  | declaredVariable (visibility : Option Visibility) (location : Option DataLocation)
      (isConstant isImmutable isIndexed isStateVariable : Bool)
  | typePath (path : String)
  | elementaryType (name : String)
  | catchClause (kind : Option String)
  | namedArgument (name : Option String)
  | tuple (isArray : Bool)
  | number (value : String) (unit : Option String)
  | boolean (value : Bool)
  | hex (value : String)
  | string (value : String)
  | identifier (builtin : Bool)
  | binaryOperation (operator : String)
  | unaryOperation (operator : String) (inFront : Bool)
  /-- A node of one of the other kinds, which say nothing more. -/
  | plain (kind : NodeKind)
deriving DecidableEq, Inhabited

namespace Detail

/-- The kind of the node that says this. -/
def kind : Detail → NodeKind
  | pragma _ => .pragmaDirective
  | importDirective _ _ _ => .importDirective
  | importSymbol _ => .importSymbol
  | contract _ _ => .contractDefinition
  | usingFor _ => .usingForDeclaration
  | modifier _ => .modifierDefinition
  | function _ _ _ _ => .functionDefinition
  | event _ => .eventDefinition
  | declaredVariable _ _ _ _ _ _ => .variableDeclaration
  | typePath _ => .userDefinedTypeName
  | elementaryType _ => .elementaryTypeName
  | catchClause _ => .catchClause
  | namedArgument _ => .namedArgument
  | tuple _ => .tupleExpression
  | number _ _ => .numberLiteral
  | boolean _ => .booleanLiteral
  | hex _ => .hexLiteral
  | string _ => .stringLiteral
  | identifier _ => .identifier
  | binaryOperation _ => .binaryOperation
  | unaryOperation _ _ => .unaryOperation
  | plain kind => kind

/-- What a node says. -/
def ofSite (s : Site) : Detail :=
  let word (t : Option Token) : String := (t.map Token.text).getD ""
  match s.kind with
  | .pragmaDirective => pragma s.pragmaText
  | .importDirective =>
    importDirective (s.importPath?.getD "") (s.firstIdent?.map Token.text) (s.has .star)
  | .importSymbol => importSymbol (s.symbolAlias?.map Token.text)
  | .contractDefinition => contract s.contractFlavour (s.has .abstractKw)
  | .usingForDeclaration => usingFor s.isGlobal
  | .modifierDefinition => modifier (s.has .virtualKw)
  | .functionDefinition =>
    function s.functionFlavour s.visibility? s.mutability (s.has .virtualKw)
  | .eventDefinition => event (s.has .anonymousKw)
  | .variableDeclaration =>
    declaredVariable s.visibility? s.location? (s.has .constantKw) (s.has .immutableKw)
      (s.has .indexedKw) s.isStateVariable
  | .userDefinedTypeName => typePath s.dottedPath
  | .elementaryTypeName => elementaryType s.elementaryName
  | .catchClause => catchClause (s.firstIdent?.map Token.text)
  | .namedArgument => namedArgument (s.firstIdent?.map Token.text)
  | .tupleExpression => tuple (s.has .lBracket)
  | .numberLiteral => number (word s.digits?) (s.firstIdent?.map Token.text)
  | .booleanLiteral => boolean (s.has .trueKw)
  | .hexLiteral => hex (s.literalText .hexString)
  | .stringLiteral => string (s.literalText .string)
  | .identifier => identifier (s.firstIdent?.any (isBuiltin ·.text))
  | .binaryOperation => binaryOperation (word s.binaryOperator?)
  | .unaryOperation => unaryOperation (word s.unaryOperator?) s.operatorFirst
  | k => plain k

/-- A detail is made for the kind of its site. -/
@[simp] theorem kind_ofSite (s : Site) : (ofSite s).kind = s.kind := by
  unfold ofSite
  split <;> simp_all [kind]

end Detail

/-- The token that names a node, declared name or used one. A function that is no
ordinary one has no name. -/
def nameToken? (s : Site) : Option Token :=
  match s.kind with
  | .importDirective | .importSymbol | .contractDefinition | .modifierDefinition
  | .functionDefinition | .eventDefinition | .structDefinition | .enumDefinition | .enumValue
  | .customErrorDefinition | .userDefinedValueTypeDefinition | .variableDeclaration
  | .identifier => s.firstIdent?
  | .modifierInvocation | .userDefinedTypeName | .memberAccess => s.lastIdent?
  | _ => none

end SolidityAtlas

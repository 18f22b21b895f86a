import SolidityAtlas.Syntax.Attribute
import SolidityAtlas.Syntax.Site

/-!
# Reading a node

What a node of a certain kind says: its names, attributes and parts. A name is an
identifier that stands directly in the node it belongs to, so a nested name is
never taken for an outer one.

Nothing here fails. A node that lacks a part, because the text has a fault there,
simply does not have it.
-/

namespace SolidityAtlas.Site

variable (s : Site)

/-! ### Tokens -/

/-- Whether a token of this kind stands directly in the node. -/
def has (k : TokenKind) : Bool :=
  s.tokens.any (·.kind == k)

/-- The first token of this kind. -/
def token? (k : TokenKind) : Option Token :=
  s.tokens.find? (·.kind == k)

/-- The identifiers that stand directly in the node. -/
def idents : List Token :=
  s.tokens.filter (·.kind == .ident)

/-- The first identifier: the name that most nodes declare. -/
def firstIdent? : Option Token :=
  s.idents.head?

/-- The last identifier: the name that a path leads to. -/
def lastIdent? : Option Token :=
  s.idents.getLast?

/-- What a literal says: its text without the quotes and the word in front of them. -/
def unquote (text : String) : String :=
  let cs := text.toList
  let quoted :=
    if "unicode".toList.isPrefixOf cs then cs.drop 7
    else if "hex".toList.isPrefixOf cs then cs.drop 3
    else cs
  String.ofList (if 2 ≤ quoted.length then quoted.tail.dropLast else quoted)

/-! ### Parts -/

/-- The first node that stands in this one. -/
def firstNode? : Option Site :=
  s.nodes.head?

/-- The first node of a certain kind that stands in this one. -/
def node? (k : NodeKind) : Option Site :=
  s.nodes.find? (·.kind == k)

/-- The nodes of a certain kind that stand in this one. -/
def nodesOf (k : NodeKind) : List Site :=
  s.nodes.filter (·.kind == k)

/-! ### Directives -/

/-- What a pragma says, one space between its words. -/
def pragmaText : String :=
  " ".intercalate
    ((s.tokens.filter fun t => ! (t.isTrivia || t.kind == .pragmaKw || t.kind == .semicolon)).map
      Token.text)

/-- The path of an import, without quotes. -/
def importPath? : Option String :=
  (s.token? .string).map (unquote ·.text)

/-- The name that an imported symbol gets here. -/
def symbolAlias? : Option Token :=
  s.idents[1]?

/-- Whether a using declaration holds in all files. -/
def isGlobal : Bool :=
  s.idents.any (·.text == "global")

/-! ### Declarations -/

/-- What a contract is introduced as. -/
def contractFlavour : ContractFlavour :=
  if s.has .interfaceKw then .interface
  else if s.has .libraryKw then .library
  else .contract

/-- What a function is introduced as. -/
def functionFlavour : FunctionFlavour :=
  (s.tokens.findSome? fun t => FunctionFlavour.ofToken? t.kind).getD .function

/-- The visibility of a member. -/
def visibility? : Option Visibility :=
  s.tokens.findSome? fun t => Visibility.ofToken? t.kind

/-- The mutability of a function. -/
def mutability : Mutability :=
  (s.tokens.findSome? fun t => Mutability.ofToken? t.kind).getD .nonPayable

/-- The data location of a variable. -/
def location? : Option DataLocation :=
  s.tokens.findSome? fun t => DataLocation.ofToken? t.kind

/-- Whether a variable is part of the state of a contract. -/
def isStateVariable : Bool :=
  s.around == some .stateVariableDeclaration

/-- The list of the values that a function returns. -/
def returned? : Option Site :=
  (s.node? .returnParameters).bind (·.node? .parameterList)

/-! ### Types and expressions -/

/-- A dotted path as it is written, without blanks. -/
def dottedPath : String :=
  ".".intercalate (s.idents.map Token.text)

/-- The word of an elementary type. -/
def typeWord? : Option Token :=
  s.tokens.find? fun t => t.kind == .elementaryTypeKw || t.kind == .payableKw

/-- The name of an elementary type; `address payable` is one of its own. -/
def elementaryName : String :=
  match s.typeWord? with
  | some t => if s.has .payableKw && t.text == "address" then "address payable" else t.text
  | none => ""

/-- The operator between two operands. -/
def binaryOperator? : Option Token :=
  s.tokens.find? (·.kind.isPunctuation)

/-- The operator in front of an operand or behind it. -/
def unaryOperator? : Option Token :=
  s.tokens.find? fun t => t.kind.isPunctuation || t.kind == .deleteKw

/-- Whether the operator stands in front. -/
def operatorFirst : Bool :=
  match s.children with
  | .leaf _ _ :: _ => true
  | _ => false

/-- The digits of a number. -/
def digits? : Option Token :=
  s.tokens.find? fun t => t.kind == .decimalNumber || t.kind == .hexNumber

/-- What the parts of a literal of this kind say together. -/
def literalText (k : TokenKind) : String :=
  String.join ((s.tokens.filter (·.kind == k)).map (unquote ·.text))

end SolidityAtlas.Site

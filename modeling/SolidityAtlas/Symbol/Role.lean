import SolidityAtlas.Syntax.Kind

/-!
# Roles of nodes

What a node does for names depends on its kind alone: some kinds declare a name,
some open a scope, and a declaration may be meant only by certain kinds of use.

A use is matched by its own kind or by its *context*, the kind of the expression
it is the head of. So a contract can be called (`Token(a)`), but its name alone
is no expression.

## Main Definitions

* `NodeKind.isScope`, `NodeKind.isHolder`, `NodeKind.hasMembers`, `NodeKind.declares`
* `NodeKind.claimable`: the kinds of use that a kind of declaration can be meant by
* `isBuiltin`: the names that the language itself provides
-/

namespace SolidityAtlas

namespace NodeKind

/-- Whether names declared inside a node of this kind are seen only there. -/
def isScope : NodeKind → Bool
  | sourceUnit | contractDefinition | functionDefinition | modifierDefinition | block
  | uncheckedStatement | forStatement | tryStatement | catchClause | structDefinition
  | enumDefinition | eventDefinition | customErrorDefinition | functionTypeName => true
  | _ => false

/-- Whether the declarations inside a node of this kind belong to the node around it. -/
def isHolder : NodeKind → Bool
  | stateVariableDeclaration | variableDeclarationStatement | parameterList
  | returnParameters => true
  | _ => false

/-- Whether a declaration of this kind has members that are reached with a dot. -/
def hasMembers : NodeKind → Bool
  | contractDefinition | structDefinition | enumDefinition | userDefinedValueTypeDefinition
  | importDirective => true
  | _ => false

/-- Whether a node of this kind declares its name. -/
def declares : NodeKind → Bool
  | contractDefinition | structDefinition | enumDefinition | enumValue
  | userDefinedValueTypeDefinition | functionDefinition | modifierDefinition | eventDefinition
  | customErrorDefinition | variableDeclaration | importDirective => true
  | _ => false

/-- The kinds of use, or of context of a use, that a declaration of this kind can be meant by. -/
def claimable : NodeKind → List NodeKind
  | contractDefinition => [userDefinedTypeName, functionCall, memberAccess, modifierInvocation]
  | structDefinition => [userDefinedTypeName, functionCall]
  | enumDefinition | userDefinedValueTypeDefinition => [userDefinedTypeName, memberAccess]
  | functionDefinition | eventDefinition | customErrorDefinition | variableDeclaration =>
    [identifier]
  | modifierDefinition => [modifierInvocation]
  | importDirective => [memberAccess]
  | _ => []

end NodeKind

/-- The names that the language provides. The underscore stands for the body that a
modifier wraps. -/
def builtins : List String :=
  ["_", "abi", "addmod", "assert", "block", "blockhash", "ecrecover", "gasleft", "keccak256",
    "msg", "mulmod", "now", "require", "revert", "ripemd160", "selfdestruct", "sha256", "super",
    "this", "tx", "type"]

/-- Whether the language provides a name. Such a name never stands for a declaration. -/
def isBuiltin (name : String) : Bool :=
  builtins.contains name

end SolidityAtlas

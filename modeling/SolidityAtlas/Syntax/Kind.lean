/-!
# Kinds of tree nodes

Every inner node of a syntax tree, and with it every node of a symbol tree, has
one of these kinds. The kind `error` marks a stretch of text that was skipped
because it fits no rule.

## Main Definitions

* `NodeKind`, in the order in which tools number the kinds
* `NodeKind.label`: the spelling used for syntax
* `NodeKind.name`: the spelling used for symbols
-/

namespace SolidityAtlas

/-- What an inner node of a tree stands for. -/
inductive NodeKind where
  | sourceUnit | pragmaDirective | importDirective | importSymbol | contractDefinition
  | inheritanceSpecifier | stateVariableDeclaration | usingForDeclaration | structDefinition
  | modifierDefinition | modifierInvocation | overrideSpecifier | functionDefinition
  | parameterList | returnParameters | eventDefinition | customErrorDefinition | enumDefinition
  | enumValue | userDefinedValueTypeDefinition | variableDeclaration | userDefinedTypeName
  | arrayTypeName | mapping | elementaryTypeName | functionTypeName | block
  | expressionStatement | ifStatement | uncheckedStatement | whileStatement | forStatement
  | inlineAssemblyStatement | assemblyBlock | doWhileStatement | continueStatement
  | breakStatement | returnStatement | emitStatement | revertStatement | tryStatement
  | catchClause | variableDeclarationStatement | functionCall | callArguments
  | nameValueExpression | nameValueList | namedArgument | newExpression | tupleExpression
  | typeNameExpression | numberLiteral | booleanLiteral | hexLiteral | stringLiteral
  | identifier | binaryOperation | unaryOperation | conditional | indexAccess
  | indexRangeAccess | memberAccess | error
deriving DecidableEq, Inhabited

namespace NodeKind

/-- The spelling of a kind as a piece of syntax. -/
def label : NodeKind → String
  | sourceUnit => "SOURCE_UNIT"
  | pragmaDirective => "PRAGMA_DIRECTIVE"
  | importDirective => "IMPORT_DIRECTIVE"
  | importSymbol => "IMPORT_SYMBOL"
  | contractDefinition => "CONTRACT_DEFINITION"
  | inheritanceSpecifier => "INHERITANCE_SPECIFIER"
  | stateVariableDeclaration => "STATE_VARIABLE_DECLARATION"
  | usingForDeclaration => "USING_FOR_DECLARATION"
  | structDefinition => "STRUCT_DEFINITION"
  | modifierDefinition => "MODIFIER_DEFINITION"
  | modifierInvocation => "MODIFIER_INVOCATION"
  | overrideSpecifier => "OVERRIDE_SPECIFIER"
  | functionDefinition => "FUNCTION_DEFINITION"
  | parameterList => "PARAMETER_LIST"
  | returnParameters => "RETURN_PARAMETERS"
  | eventDefinition => "EVENT_DEFINITION"
  | customErrorDefinition => "CUSTOM_ERROR_DEFINITION"
  | enumDefinition => "ENUM_DEFINITION"
  | enumValue => "ENUM_VALUE"
  | userDefinedValueTypeDefinition => "USER_DEFINED_VALUE_TYPE_DEFINITION"
  | variableDeclaration => "VARIABLE_DECLARATION"
  | userDefinedTypeName => "USER_DEFINED_TYPE_NAME"
  | arrayTypeName => "ARRAY_TYPE_NAME"
  | mapping => "MAPPING"
  | elementaryTypeName => "ELEMENTARY_TYPE_NAME"
  | functionTypeName => "FUNCTION_TYPE_NAME"
  | block => "BLOCK"
  | expressionStatement => "EXPRESSION_STATEMENT"
  | ifStatement => "IF_STATEMENT"
  | uncheckedStatement => "UNCHECKED_STATEMENT"
  | whileStatement => "WHILE_STATEMENT"
  | forStatement => "FOR_STATEMENT"
  | inlineAssemblyStatement => "INLINE_ASSEMBLY_STATEMENT"
  | assemblyBlock => "ASSEMBLY_BLOCK"
  | doWhileStatement => "DO_WHILE_STATEMENT"
  | continueStatement => "CONTINUE_STATEMENT"
  | breakStatement => "BREAK_STATEMENT"
  | returnStatement => "RETURN_STATEMENT"
  | emitStatement => "EMIT_STATEMENT"
  | revertStatement => "REVERT_STATEMENT"
  | tryStatement => "TRY_STATEMENT"
  | catchClause => "CATCH_CLAUSE"
  | variableDeclarationStatement => "VARIABLE_DECLARATION_STATEMENT"
  | functionCall => "FUNCTION_CALL"
  | callArguments => "CALL_ARGUMENTS"
  | nameValueExpression => "NAME_VALUE_EXPRESSION"
  | nameValueList => "NAME_VALUE_LIST"
  | namedArgument => "NAMED_ARGUMENT"
  | newExpression => "NEW_EXPRESSION"
  | tupleExpression => "TUPLE_EXPRESSION"
  | typeNameExpression => "TYPE_NAME_EXPRESSION"
  | numberLiteral => "NUMBER_LITERAL"
  | booleanLiteral => "BOOLEAN_LITERAL"
  | hexLiteral => "HEX_LITERAL"
  | stringLiteral => "STRING_LITERAL"
  | identifier => "IDENTIFIER"
  | binaryOperation => "BINARY_OPERATION"
  | unaryOperation => "UNARY_OPERATION"
  | conditional => "CONDITIONAL"
  | indexAccess => "INDEX_ACCESS"
  | indexRangeAccess => "INDEX_RANGE_ACCESS"
  | memberAccess => "MEMBER_ACCESS"
  | error => "ERROR"

/-- The spelling of a kind as a symbol. Skipped text is opaque to name resolution. -/
def name : NodeKind → String
  | sourceUnit => "SourceUnit"
  | pragmaDirective => "PragmaDirective"
  | importDirective => "ImportDirective"
  | importSymbol => "ImportSymbol"
  | contractDefinition => "ContractDefinition"
  | inheritanceSpecifier => "InheritanceSpecifier"
  | stateVariableDeclaration => "StateVariableDeclaration"
  | usingForDeclaration => "UsingForDeclaration"
  | structDefinition => "StructDefinition"
  | modifierDefinition => "ModifierDefinition"
  | modifierInvocation => "ModifierInvocation"
  | overrideSpecifier => "OverrideSpecifier"
  | functionDefinition => "FunctionDefinition"
  | parameterList => "ParameterList"
  | returnParameters => "ReturnParameters"
  | eventDefinition => "EventDefinition"
  | customErrorDefinition => "CustomErrorDefinition"
  | enumDefinition => "EnumDefinition"
  | enumValue => "EnumValue"
  | userDefinedValueTypeDefinition => "UserDefinedValueTypeDefinition"
  | variableDeclaration => "VariableDeclaration"
  | userDefinedTypeName => "UserDefinedTypeName"
  | arrayTypeName => "ArrayTypeName"
  | mapping => "Mapping"
  | elementaryTypeName => "ElementaryTypeName"
  | functionTypeName => "FunctionTypeName"
  | block => "Block"
  | expressionStatement => "ExpressionStatement"
  | ifStatement => "IfStatement"
  | uncheckedStatement => "UncheckedStatement"
  | whileStatement => "WhileStatement"
  | forStatement => "ForStatement"
  | inlineAssemblyStatement => "InlineAssemblyStatement"
  | assemblyBlock => "AssemblyBlock"
  | doWhileStatement => "DoWhileStatement"
  | continueStatement => "ContinueStatement"
  | breakStatement => "BreakStatement"
  | returnStatement => "ReturnStatement"
  | emitStatement => "EmitStatement"
  | revertStatement => "RevertStatement"
  | tryStatement => "TryStatement"
  | catchClause => "CatchClause"
  | variableDeclarationStatement => "VariableDeclarationStatement"
  | functionCall => "FunctionCall"
  | callArguments => "CallArguments"
  | nameValueExpression => "NameValueExpression"
  | nameValueList => "NameValueList"
  | namedArgument => "NamedArgument"
  | newExpression => "NewExpression"
  | tupleExpression => "TupleExpression"
  | typeNameExpression => "TypeNameExpression"
  | numberLiteral => "NumberLiteral"
  | booleanLiteral => "BooleanLiteral"
  | hexLiteral => "HexLiteral"
  | stringLiteral => "StringLiteral"
  | identifier => "Identifier"
  | binaryOperation => "BinaryOperation"
  | unaryOperation => "UnaryOperation"
  | conditional => "Conditional"
  | indexAccess => "IndexAccess"
  | indexRangeAccess => "IndexRangeAccess"
  | memberAccess => "MemberAccess"
  | error => "Opaque"

/-- All kinds, in the order of their numbers; `error` comes last. -/
def all : List NodeKind := [
  sourceUnit, pragmaDirective, importDirective, importSymbol, contractDefinition,
  inheritanceSpecifier, stateVariableDeclaration, usingForDeclaration, structDefinition,
  modifierDefinition, modifierInvocation, overrideSpecifier, functionDefinition, parameterList,
  returnParameters, eventDefinition, customErrorDefinition, enumDefinition, enumValue,
  userDefinedValueTypeDefinition, variableDeclaration, userDefinedTypeName, arrayTypeName,
  mapping, elementaryTypeName, functionTypeName, block, expressionStatement, ifStatement,
  uncheckedStatement, whileStatement, forStatement, inlineAssemblyStatement, assemblyBlock,
  doWhileStatement, continueStatement, breakStatement, returnStatement, emitStatement,
  revertStatement, tryStatement, catchClause, variableDeclarationStatement, functionCall,
  callArguments, nameValueExpression, nameValueList, namedArgument, newExpression,
  tupleExpression, typeNameExpression, numberLiteral, booleanLiteral, hexLiteral,
  stringLiteral, identifier, binaryOperation, unaryOperation, conditional, indexAccess,
  indexRangeAccess, memberAccess, error]

end NodeKind

end SolidityAtlas

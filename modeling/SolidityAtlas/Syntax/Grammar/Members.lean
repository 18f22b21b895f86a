import SolidityAtlas.Syntax.Grammar.Statements

/-!
# Members of files and contracts

A file holds pragmas, imports and contracts, and everything that a contract
holds. Text that starts no member is skipped up to a token that does.
-/

namespace SolidityAtlas.Grammar

open Draft

/-- The tokens that start a member of a file. -/
def itemStops : List TokenKind :=
  [.pragmaKw, .importKw, .abstractKw, .contractKw, .interfaceKw, .libraryKw, .structKw, .enumKw,
    .functionKw, .eventKw, .errorKw, .typeKw, .usingKw]

/-- The tokens that start or end a member of a contract, and the closing brace. -/
def memberStops : List TokenKind :=
  [.rBrace, .structKw, .enumKw, .functionKw, .constructorKw, .modifierKw, .eventKw, .errorKw,
    .typeKw, .usingKw, .semicolon]

/-- Takes the start of an override list. -/
def overrideStart (d : Draft) : Pursuit :=
  let d := (d.openNode .overrideSpecifier).bump
  if d.isAt .lParen then (d.bump, [.overrideNames]) else (d.close, [])

/-- Takes the next name of an override list, or its end. -/
def overrideNames (d : Draft) : Pursuit :=
  if d.atName then
    let d := typePath d
    if d.isAt .comma then (d.bump, [.overrideNames]) else (closeParen d, [])
  else (closeParen d, [])

/-- Takes the start of a body, or the semicolon in its place. -/
def bodyStart (d : Draft) : Pursuit :=
  if d.isAt .lBrace then ((d.openNode .block).bump, [.statements, .close])
  else ((d.expect .semicolon).close, [])

/-! ### Members of contracts -/

/-- Takes the head of a struct. -/
def structStart (d : Draft) : Pursuit :=
  let d := (d.openNode .structDefinition).bump.expectName
  if d.isAt .lBrace then (d.bump, [.fields]) else ((d.expect .lBrace).close, [])

/-- Takes the start of the next field, or the end of the struct. -/
def fields (d : Draft) : Pursuit :=
  if d.atEnd || d.isAt .rBrace then (closeBrace d, [])
  else if startsType d.kind then
    (typeStart (d.openNode .variableDeclaration)).andThen [.fieldEnd, .fields]
  else
    let nameless := (d.openNode .variableDeclaration).fault (.expectedTypeName d.kind)
    let tried := nameless.expectName.close.expect .semicolon
    if tried.size < d.size then (tried, [.fields])
    else (tried.recover .unexpectedInStruct [.semicolon, .rBrace], [.fields])

/-- Takes the name of a field and the semicolon. -/
def fieldEnd (d : Draft) : Pursuit :=
  (d.expectName.close.expect .semicolon, [])

/-- Takes the head of an enum. -/
def enumStart (d : Draft) : Pursuit :=
  let d := (d.openNode .enumDefinition).bump.expectName
  if d.isAt .lBrace then (d.bump, [.enumValues]) else ((d.expect .lBrace).close, [])

/-- Takes the next value of an enum, or its end. -/
def enumValues (d : Draft) : Pursuit :=
  if d.atName then
    let d := (d.openNode .enumValue).expectName.close
    if d.isAt .comma then (d.bump, [.enumValues]) else (closeBrace d, [])
  else (closeBrace d, [])

/-- Takes the end of an event. -/
def eventEnd (d : Draft) : Pursuit :=
  (((d.eat .anonymousKw).expect .semicolon).close, [])

/-- Takes the head of a modifier. -/
def modifierStart (d : Draft) : Pursuit :=
  let d := (d.openNode .modifierDefinition).bump.expectName
  (d, (if d.isAt .lParen then [.parameters] else []) ++ [.modifierAttributes])

/-- Takes the next attribute of a modifier, or the start of its body. -/
def modifierAttributes (d : Draft) : Pursuit :=
  match d.kind with
  | .virtualKw => (d.bump, [.modifierAttributes])
  | .overrideKw => (overrideStart d).andThen [.modifierAttributes]
  | _ => bodyStart d

/-- Takes the head of a function. -/
def functionStart (d : Draft) : Pursuit :=
  let named := d.isAt .functionKw
  let d := (d.openNode .functionDefinition).bump
  (if named then d.eatName else d, [.parameters, .functionAttributes])

/-- The words that say how a function may be used. -/
def isFunctionAttribute (k : TokenKind) : Bool :=
  k == .publicKw || k == .privateKw || k == .internalKw || k == .externalKw || k == .pureKw ||
    k == .viewKw || k == .payableKw || k == .constantKw || k == .virtualKw

/-- Takes the start of a modifier that is applied to a function. -/
def modifierUse (d : Draft) : Pursuit :=
  let d := moreSegments (d.openNode .modifierInvocation).expectName
  if d.isAt .lParen then (argumentsStart d).andThen [.close] else (d.close, [])

/-- Takes the next attribute of a function, or the start of its body. -/
def functionAttributes (d : Draft) : Pursuit :=
  if isFunctionAttribute d.kind then (d.bump, [.functionAttributes])
  else if d.isAt .overrideKw then (overrideStart d).andThen [.functionAttributes]
  else if d.isAt .returnsKw then
    ((d.openNode .returnParameters).bump, [.parameters, .close, .functionAttributes])
  else if d.atName then (modifierUse d).andThen [.functionAttributes]
  else bodyStart d

/-- Takes the head of a using declaration. -/
def usingStart (d : Draft) : Pursuit :=
  let d := (d.openNode .usingForDeclaration).bump
  if d.isAt .lBrace then (d.bump, [.usingNames]) else (typePath d, [.usingFor])

/-- Takes the next name of a using list, with the operator it stands for, or the end. -/
def usingNames (d : Draft) : Pursuit :=
  if d.atName then
    let d := typePath d
    let d := if d.isAt .asKw then d.bump.bump else d
    if d.isAt .comma then (d.bump, [.usingNames]) else (d.expect .rBrace, [.usingFor])
  else (d.expect .rBrace, [.usingFor])

/-- Goes on to the type a using declaration is for. -/
def usingFor (d : Draft) : Pursuit :=
  let d := d.expect .forKw
  if d.isAt .star then (d.bump, [.usingEnd]) else (d, [.typeName, .usingEnd])

/-- Takes the end of a using declaration. -/
def usingEnd (d : Draft) : Pursuit :=
  (((if d.isAt .ident && d.textHere == "global" then d.bump else d).expect .semicolon).close, [])

/-- Takes the start of a state variable. -/
def stateVariableStart (d : Draft) : Pursuit :=
  (typeStart ((d.openNode .stateVariableDeclaration).openNode .variableDeclaration)).andThen
    [.stateVariableAttributes, .initialiser]

/-- The words that may stand between type and name of a state variable. The word
`transient` is such a word only if a name follows. -/
def atStateVariableAttribute (d : Draft) : Bool :=
  match d.kind with
  | .publicKw | .privateKw | .internalKw | .constantKw | .immutableKw => true
  | .ident => d.textHere == "transient" && (d.kindAt 1).isName
  | _ => false

/-- Takes the next attribute of a state variable, or its name. -/
def stateVariableAttributes (d : Draft) : Pursuit :=
  if atStateVariableAttribute d then (d.bump, [.stateVariableAttributes])
  else if d.isAt .overrideKw then (overrideStart d).andThen [.stateVariableAttributes]
  else (d.expectName.close, [])

/-- Takes the start of what a contract or a file holds. -/
def member (stops : List TokenKind) (d : Draft) : Pursuit :=
  let other : Pursuit :=
    if startsType d.kind then stateVariableStart d
    else (d.recover (.expectedMember d.kind) stops, [])
  match d.kind with
  | .structKw => structStart d
  | .enumKw => enumStart d
  | .eventKw => ((d.openNode .eventDefinition).bump.expectName, [.parameters, .eventEnd])
  | .errorKw =>
    if (d.kindAt 1).isName && d.kindAt 2 == .lParen then
      ((d.openNode .customErrorDefinition).bump.expectName,
        [.parameters, .expect .semicolon, .close])
    else other
  | .modifierKw => modifierStart d
  | .functionKw => if d.kindAt 1 != .lParen then functionStart d else other
  | .constructorKw | .fallbackKw | .receiveKw =>
    if d.kindAt 1 == .lParen then functionStart d else other
  | .typeKw =>
    ((d.openNode .userDefinedValueTypeDefinition).bump.expectName.expect .isKw,
      [.typeName, .expect .semicolon, .close])
  | .usingKw => usingStart d
  | .semicolon => (d.bump, [])
  | _ => other

/-- Takes the start of the next member of a contract, or the end of its body. -/
def members (d : Draft) : Pursuit :=
  if d.atEnd || d.isAt .rBrace then (closeBrace d, [])
  else (member memberStops d).andThen [.members]

/-! ### Contracts -/

/-- Takes the head of a contract up to its bases. -/
def contractStart (d : Draft) : Pursuit :=
  let d := (d.openNode .contractDefinition).eat .abstractKw
  let d := match d.kind with
    | .contractKw | .interfaceKw | .libraryKw => d.bump
    | _ => d.fault .expectedContract
  let d := d.expectName
  if d.isAt .isKw then (d.bump, [.bases]) else (d, [.contractBody])

/-- Takes the name of a base and the start of its arguments. -/
def bases (d : Draft) : Pursuit :=
  let d := typePath (d.openNode .inheritanceSpecifier)
  if d.isAt .lParen then (argumentsStart d).andThen [.close, .moreBases]
  else (d.close, [.moreBases])

/-- Takes the comma before another base, or goes on to the body. -/
def moreBases (d : Draft) : Pursuit :=
  if d.isAt .comma then (d.bump, [.bases]) else (d, [.contractBody])

/-- Takes the opening brace of a contract. -/
def contractBody (d : Draft) : Pursuit :=
  if d.isAt .lBrace then (d.bump, [.members]) else ((d.expect .lBrace).close, [])

/-! ### Members of files -/

/-- Takes the end of an import, and skips to the next member if it is missing. -/
def importEnd (d : Draft) : Draft :=
  (if d.isAt .semicolon then d.bump else (d.fault .expectedImportEnd).skipTo itemStops).close

/-- Takes a local name behind `as`. -/
def eatAlias (d : Draft) : Draft :=
  if d.isAt .asKw then d.bump.expectName else d

/-- Takes an import up to its symbols. -/
def importStart (d : Draft) : Pursuit :=
  let d := (d.openNode .importDirective).bump
  match d.kind with
  | .string => (importEnd (eatAlias d.bump), [])
  | .star =>
    (importEnd (((d.bump.expect .asKw).expectName.expect .fromKw).expect .string), [])
  | .lBrace => (d.bump, [.importSymbols])
  | _ => (importEnd (d.fault .expectedImportPath), [])

/-- Takes the end of an import behind its symbols. -/
def importFrom (d : Draft) : Draft :=
  importEnd (((d.expect .rBrace).expect .fromKw).expect .string)

/-- Takes the next symbol of an import, or its end. -/
def importSymbols (d : Draft) : Pursuit :=
  if d.atName then
    let d := (eatAlias (d.openNode .importSymbol).expectName).close
    if d.isAt .comma then (d.bump, [.importSymbols]) else (importFrom d, [])
  else (importFrom d, [])

/-- Takes a pragma, whatever it says. -/
def pragma (d : Draft) : Draft :=
  (((d.openNode .pragmaDirective).bump.skipTo [.semicolon]).expect .semicolon).close

/-- Takes the start of a member of a file. -/
def item (d : Draft) : Pursuit :=
  match d.kind with
  | .pragmaKw => (pragma d, [])
  | .importKw => importStart d
  | .abstractKw | .contractKw | .interfaceKw | .libraryKw => contractStart d
  | .semicolon => (d.bump, [])
  | _ => member itemStops d

/-- Takes the start of the next member of a file, if there is one. -/
def items (d : Draft) : Pursuit :=
  if d.atEnd then (d, []) else (item d).andThen [.items]

end SolidityAtlas.Grammar

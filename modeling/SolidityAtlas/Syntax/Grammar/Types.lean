import SolidityAtlas.Syntax.Goal

/-!
# Type names

    TypeName   = (Elementary | Path | Mapping | Function) ('[' Expression? ']')*
    Elementary = ELEMENTARY_TYPE 'payable'?
    Path       = NAME ('.' NAME)*
    Mapping    = 'mapping' '(' TypeName NAME? '=>' TypeName NAME? ')'
    Function   = 'function' ParameterList Attribute* ('returns' ParameterList)?

A type name is recognised by its first token. The functions here take that token
and say what is left to do.
-/

namespace SolidityAtlas.Grammar

open Draft

/-- The kinds of tokens that a type name starts with. -/
def startsType (k : TokenKind) : Bool :=
  k.isName || k == .elementaryTypeKw || k == .mappingKw || k == .functionKw

/-- Takes dots and names as long as they alternate. -/
def moreSegments (d : Draft) : Draft :=
  if _h : d.isAt .dot = true ∧ (d.kindAt 1).isName = true then
    moreSegments d.bump.expectName
  else d
termination_by d.size
decreasing_by
  exact Nat.lt_of_le_of_lt size_expectName_le (size_bump_lt (atEnd_of_at (by decide) _h.1))

/-- The further segments of a name take tokens only. -/
theorem size_moreSegments_le (d : Draft) : (moreSegments d).size ≤ d.size := by
  fun_induction moreSegments d with
  | case1 d h ih => exact Nat.le_trans ih (Nat.le_trans size_expectName_le size_bump_le)
  | case2 => exact Nat.le_refl _

/-- Takes a dotted path as the name of a declared type. -/
def typePath (d : Draft) : Draft :=
  (moreSegments (d.openNode .userDefinedTypeName).expectName).close

/-- Takes an elementary type. Only `address` may be followed by `payable`. -/
def elementaryType (d : Draft) : Draft :=
  let taken := (d.openNode .elementaryTypeName).bump
  (if d.textHere == "address" then taken.eat .payableKw else taken).close

/-- Takes the start of a type name, or notes that there is none. -/
def typeStart (d : Draft) : Pursuit :=
  let d := d.skipTrivia
  let mark := d.mark
  match d.kind with
  | .elementaryTypeKw => (elementaryType d, [.arraySuffix mark])
  | .mappingKw =>
    ((d.openNode .mapping).bump.expect .lParen,
      [.typeName, .mappingArrow, .typeName, .mappingEnd, .arraySuffix mark])
  | .functionKw =>
    ((d.openNode .functionTypeName).bump, [.parameters, .functionTypeEnd, .arraySuffix mark])
  | k =>
    if k.isName then (typePath d, [.arraySuffix mark])
    else (d.fault (.expectedTypeName k), [])

/-- Takes a pair of brackets behind a type, with a length between them or without. -/
def arraySuffix (mark : Nat) (d : Draft) : Pursuit :=
  if d.isAt .lBracket then
    let d := (d.openAt mark .arrayTypeName).bump
    if d.isAt .rBracket then (d.bump.close, [.arraySuffix mark])
    else (d, [.expression 0, .expect .rBracket, .close, .arraySuffix mark])
  else (d, [])

/-- Takes the name of a mapping's key and the arrow. -/
def mappingArrow (d : Draft) : Pursuit :=
  (d.eatName.expect .fatArrow, [])

/-- Takes the name of a mapping's value and the end of the mapping. -/
def mappingEnd (d : Draft) : Pursuit :=
  ((d.eatName.expect .rParen).close, [])

/-- The attributes of a function type. -/
def isFunctionTypeAttribute (k : TokenKind) : Bool :=
  k == .internalKw || k == .externalKw || k == .pureKw || k == .viewKw || k == .payableKw

/-- Takes the attributes of a function type and the start of its results. -/
def functionTypeEnd (d : Draft) : Pursuit :=
  let d := d.bumpWhile isFunctionTypeAttribute
  if d.isAt .returnsKw then
    ((d.openNode .returnParameters).bump, [.parameters, .close, .close])
  else (d.close, [])

/-- Takes the opening parenthesis of a parameter list. -/
def parameters (d : Draft) : Pursuit :=
  let d := d.openNode .parameterList
  if d.isAt .lParen then (d.bump, [.parameterRow]) else ((d.expect .lParen).close, [])

/-- Takes the start of the next parameter, or the end of the list. -/
def parameterRow (d : Draft) : Pursuit :=
  if d.atEnd || d.isAt .rParen then ((d.expect .rParen).close, [])
  else if startsType d.kind then
    (typeStart (d.openNode .variableDeclaration)).andThen [.parameterEnd, .moreParameters]
  else (d.recover .expectedParameter [.comma, .rParen, .lBrace], [.moreParameters])

/-- Takes what follows the type of a parameter. -/
def parameterEnd (d : Draft) : Pursuit :=
  ((d.bumpWhile fun k => k.isDataLocation || k == .indexedKw).eatName.close, [])

/-- Takes the comma before another parameter, or the end of the list. -/
def moreParameters (d : Draft) : Pursuit :=
  if d.isAt .comma then (d.bump, [.parameterRow]) else ((d.expect .rParen).close, [])

end SolidityAtlas.Grammar

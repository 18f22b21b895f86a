import SolidityAtlas.Symbol.Inheritance
import SolidityAtlas.Text.Pieces

/-!
# Members

What stands behind a dot is looked for among the members of what stands in front
of it. That is a declaration (a contract, a struct, an imported file), or a value;
the members of a value are those of its type, as far as the type is written down
somewhere: at a variable, at the result of a function, in a cast or in `new`.

`super` stands for the bases of the contract around it, `this` for the contract
itself. Functions that a using declaration attaches come last.

## Main Definitions

* `Forest.findMember?`: a member of a declaration by its name
* `Forest.typeOfExpression?`: the type that an expression is known to have
* `Forest.container?`: the declaration that has the members of an expression
* `Forest.resolveAccess?`: the declaration that an access refers to
* `Forest.resolvePath?`, `Forest.dottedTarget?`: where a dotted path leads
* `Forest.target`: where a use that refers to a declaration is linked to
-/

namespace SolidityAtlas.Forest

variable (f : Forest) (maxDepth : Nat)

/-- The member of a declaration with a certain name. -/
def findMember? (container : Handle) (name : String) : Option Handle :=
  match f.kind? container with
  | some .structDefinition | some .enumDefinition =>
    (f.children container).find? fun c => f.name? c == some name
  | some .contractDefinition => (f.linearize maxDepth container).findSome? (f.memberNamed? name)
  | some .importDirective => f.imported container name
  | _ => none

/-- The declaration that a type name refers to, if that has members. -/
def containerOfType? (typeName : Handle) : Option Handle :=
  if f.kind? typeName = some .userDefinedTypeName then
    (f.declaration? typeName).filter fun d => (f.kind? d).any NodeKind.hasMembers
  else none

/-- The declaration that has the members reached through a declaration: itself, or for a
variable its type. -/
def containerOfDeclaration? (declaration : Handle) : Option Handle :=
  match f.kind? declaration with
  | some .variableDeclaration => (f.firstChild? declaration).bind f.containerOfType?
  | some k => if k.hasMembers then some declaration else none
  | none => none

/-- What is called: options in braces are left out. -/
def callee? (call : Handle) : Option Handle :=
  (f.firstChild? call).bind fun c =>
    match f.kind? c with
    | some .nameValueExpression => f.firstChild? c
    | some _ => some c
    | none => none

/-- The type of the first value that a function returns. -/
def resultType? (function : Handle) : Option Handle :=
  if f.kind? function = some .functionDefinition then do
    let returned ← (f.children function).find? fun c => f.kind? c == some .returnParameters
    let parameters ← f.firstChild? returned
    let value ← f.firstChild? parameters
    f.firstChild? value
  else none

/-- The type of what a call yields. -/
def typeOfCall? (call : Handle) : Option Handle :=
  (f.callee? call).bind fun c =>
    match f.kind? c with
    | some .newExpression => f.firstChild? c
    | some _ => (f.declaration? c).bind f.resultType?
    | none => none

/-- The type of a variable. -/
def typeOfVariable? (declaration : Handle) : Option Handle :=
  if f.kind? declaration = some .variableDeclaration then f.firstChild? declaration else none

/-- The type of an element of a value of a type. -/
def elementType? (typeName : Handle) : Option Handle :=
  match f.kind? typeName with
  | some .mapping => (f.children typeName)[1]?
  | some .arrayTypeName => f.firstChild? typeName
  | _ => none

/-- Whether a node has exactly one child, as parentheses around a single value have. -/
def hasOneChild (h : Handle) : Bool :=
  (f.children h).length == 1

/-- The type that the first expression of a spine is known to have. -/
def typeOfSpine? : List Handle → Option Handle
  | [] => none
  | e :: inner =>
    match f.kind? e with
    | some .identifier | some .memberAccess => (f.declaration? e).bind f.typeOfVariable?
    | some .indexAccess => (typeOfSpine? inner).bind f.elementType?
    | some .functionCall => f.typeOfCall? e
    | some .tupleExpression => if f.hasOneChild e then typeOfSpine? inner else none
    | _ => none

/-- The type that an expression is known to have. -/
def typeOfExpression? (e : Handle) : Option Handle :=
  f.typeOfSpine? (f.spine e)

/-- The declaration whose members are those of what a call yields: of a cast or of a new
struct the contract or struct that is named. -/
def containerOfCall? (call : Handle) : Option Handle := do
  let callee ← f.callee? call
  let named := (f.declaration? callee).filter fun d =>
    f.kind? d == some .contractDefinition || f.kind? d == some .structDefinition
  named.or ((f.typeOfExpression? call).bind f.containerOfType?)

/-- The declaration that has the members of the first expression of a spine. -/
def containerOfSpine? : List Handle → Option Handle
  | [] => none
  | e :: inner =>
    match f.kind? e with
    | some .identifier =>
      if f.name? e = some "this" then f.enclosing? .contractDefinition e
      else (f.declaration? e).bind f.containerOfDeclaration?
    | some .memberAccess => (f.declaration? e).bind f.containerOfDeclaration?
    | some .functionCall => f.containerOfCall? e
    | some .indexAccess => (f.typeOfExpression? e).bind f.containerOfType?
    | some .tupleExpression => if f.hasOneChild e then containerOfSpine? inner else none
    | _ => none

/-- The declaration that has the members of an expression. -/
def container? (e : Handle) : Option Handle :=
  f.containerOfSpine? (f.spine e)

/-- The libraries that using declarations attach where a node stands, those of the contract
before those of the file. -/
def attachedLibraries (h : Handle) : List Handle :=
  let scopes := (f.enclosing? .contractDefinition h).toList ++ (f.enclosing? .sourceUnit h).toList
  let usings := (scopes.flatMap f.children).filter fun c =>
    f.kind? c == some .usingForDeclaration
  ((usings.flatMap f.children).filterMap f.declaration?).filter fun d =>
    match (f.symbol? d).map Symbol.detail with
    | some (.contract .library _) => true
    | _ => false

/-- The declaration that a member of `super` refers to at a node. -/
def superMember? (h : Handle) (name : String) : Option Handle :=
  (f.enclosing? .contractDefinition h).bind fun contract =>
    (f.linearize maxDepth contract).tail.findSome? (f.memberNamed? name)

/-- The declaration that a member of an expression refers to: a member of the expression's
type, or else a function that is attached where the node `h` stands. -/
def memberOf? (h base : Handle) (name : String) : Option Handle :=
  ((f.container? base).bind fun c => f.findMember? maxDepth c name).or
    ((f.attachedLibraries h).findSome? fun l => f.findMember? maxDepth l name)

/-- Whether an expression is the word `super`. -/
def isSuper (h : Handle) : Bool :=
  f.kind? h == some .identifier && f.name? h == some "super"

/-- The declaration that an access refers to. -/
def resolveAccess? (access : Handle) : Option Handle := do
  let s ← (f.symbol? access).filter fun s => s.kind == .memberAccess
  let name ← s.name
  let base ← f.firstChild? access
  if f.isSuper base then f.superMember? maxDepth access name
  else f.memberOf? maxDepth access base name

/-- Where a dotted path leads whose first name refers to `first`. -/
def resolvePath? (first : Handle) (rest : List String) : Option Handle :=
  rest.foldlM (fun current name =>
    (f.containerOfDeclaration? current).bind fun c => f.findMember? maxDepth c name) first

/-- The scopes that a name is looked for in at a node: a contract with its bases, or the node
alone. -/
def scopesAt (h : Handle) : List Handle :=
  if f.kind? h = some .contractDefinition then f.linearize maxDepth h else [h]

/-- The declaration with members that a name refers to around a node. -/
def namedContainer? (usage : Handle) (name : String) : Option Handle :=
  (f.ancestors usage).findSome? fun outer =>
    (f.scopesAt maxDepth outer).findSome? fun scope =>
      (f.members scope).find? fun m => f.name? m == some name && (f.kind? m).any NodeKind.hasMembers

/-- The names of a dotted path. -/
def pathNames (path : String) : List String :=
  (pieces (· == '.') path.toList).map String.ofList

/-- The declaration that a dotted type refers to. Its first name is looked up with `beyond`
if it is not declared around the use. -/
def dottedTarget? (beyond : String → Option Handle) (usage : Handle) (path : String) :
    Option Handle :=
  match pathNames path with
  | [] => none
  | first :: rest =>
    ((f.namedContainer? maxDepth usage first).or (beyond first)).bind fun start =>
      f.resolvePath? maxDepth start rest

/-- The constructor of a contract. -/
def constructor? (contract : Handle) : Option Handle :=
  (f.children contract).find? fun c =>
    match (f.symbol? c).map Symbol.detail with
    | some (.function .constructor _ _ _) => true
    | _ => false

/-- Where a use that refers to a declaration is linked to. What stands like a modifier and
names a contract calls its constructor. -/
def target (usage : Symbol) (declaration : Handle) : Handle :=
  if usage.kind = .modifierInvocation ∧ f.kind? declaration = some .contractDefinition then
    (f.constructor? declaration).getD declaration
  else declaration

end SolidityAtlas.Forest

import SolidityAtlas.Path.Table
import SolidityAtlas.Symbol.Detail
import SolidityAtlas.Text.LineMap

/-!
# Symbols

A symbol stands for a node of a file's syntax: where it is, what it is called,
what it says, and which other symbols it is linked to. A *declaration* introduces
its name, a *use* refers to one, and all other symbols only give the tree its
shape.

Symbols of all files are linked to each other by handles. A handle names a file,
the generation of the tree it was made for, and a node of that tree. When a file
is read again its tree gets a new generation, so an old handle finds nothing
rather than a node that only happens to have the same number.

## Main Definitions

* `Handle`: a node of a certain generation of a file's tree
* `Symbol`, `Label`
* `Symbol.isUsage`, `Symbol.isDeclaration`
* `Symbol.accepts`: whether a declaration can be what a use refers to, scopes aside
* `Symbol.isByName`: whether a use is looked up by its name alone
-/

namespace SolidityAtlas

/-- The number of a node in its tree. -/
abbrev NodeId := Nat

/-- A node of a certain generation of a file's tree. -/
structure Handle where
  file : FileId
  generation : Nat
  node : NodeId
deriving DecidableEq, Inhabited

/-- Another node of the same tree. -/
def Handle.withNode (h : Handle) (id : NodeId) : Handle :=
  { h with node := id }

/-- A name and where it stands. -/
structure Label where
  text : String
  range : Span
deriving DecidableEq, Inhabited

/-- A node of a file with its links. -/
structure Symbol where
  range : Span
  /-- The name that the node declares or uses. -/
  label : Option Label
  parent : Option NodeId
  /-- The nodes directly inside, in the order of the text. -/
  children : List NodeId
  /-- The kind of the expression that the node is the head of. -/
  context : Option NodeKind
  detail : Detail
  /-- What the type of the node is written as. A declaration lists itself. -/
  declaredType : List Handle
  /-- The declaration that a use refers to. -/
  declaration : Option Handle
  /-- The uses that refer to a declaration. -/
  references : List Handle
deriving DecidableEq, Inhabited

namespace Symbol

variable (s : Symbol)

/-- The kind of the node. -/
def kind : NodeKind :=
  s.detail.kind

/-- The name that the node declares or uses. -/
def name : Option String :=
  s.label.map Label.text

/-- Whether the node refers to a declaration by name. -/
def isUsage : Bool :=
  s.label.isSome &&
    match s.detail with
    | .identifier builtin => ! builtin
    | .typePath _ | .importSymbol _ => true
    | .plain .memberAccess | .plain .modifierInvocation => true
    | _ => false

/-- Whether the node introduces its name. -/
def isDeclaration : Bool :=
  s.label.isSome && s.kind.declares

/-- Whether a use has found its declaration. -/
def isResolved : Bool :=
  s.declaration.isSome

/-- Whether the node is a type written as a path with dots. -/
def isQualified : Bool :=
  match s.detail with
  | .typePath path => path.toList.contains '.'
  | _ => false

/-- Whether a use is looked up by its name alone. The others need to know first what
stands in front of the dot, or which file is imported. -/
def isByName : Bool :=
  ! (s.kind == .memberAccess || s.kind == .importSymbol || s.isQualified)

/-- Whether a use is of a kind that this declaration can be meant by. -/
def acceptsKind (usage : Symbol) : Bool :=
  s.isDeclaration && usage.kind != .memberAccess &&
    (s.kind.claimable.contains usage.kind || usage.context.any s.kind.claimable.contains)

/-- Whether this declaration can be what a use refers to, scopes aside. -/
def accepts (usage : Symbol) : Bool :=
  s.label.isSome && s.name == usage.name && s.acceptsKind usage

/-- The name under which the node is known in its own file: the alias of an imported
symbol, if it has one. -/
def localName : Option String :=
  match s.detail with
  | .importSymbol (some given) => some given
  | _ => s.name

/-- The symbol of a node without any links, `parent` being the node around it. -/
def ofSite (m : LineMap) (parent : Option NodeId) (context : Option NodeKind) (site : Site) :
    Symbol where
  range := m.span site.start site.stop
  label := (nameToken? site).map fun t => ⟨t.text, m.span t.start t.stop⟩
  parent := parent
  children := []
  context := context
  detail := .ofSite site
  declaredType := []
  declaration := none
  references := []

/-- A node has the kind of the site it is made of. -/
@[simp] theorem kind_ofSite (m : LineMap) (parent : Option NodeId) (context : Option NodeKind)
    (site : Site) : (ofSite m parent context site).kind = site.kind := by
  simp [kind, ofSite]

end Symbol

end SolidityAtlas

import SolidityAtlas.Symbol.Locate
import SolidityAtlas.Workspace.Offers

/-!
# From a use to its declaration

What an editor asks about the name under the cursor: what it stands for, and where
that is declared. Only a use that has found its declaration gives an answer.

## Main Definitions

* `Snapshot.usageAt?`: the use under the cursor
* `Snapshot.hover?`: what is shown about it
* `Snapshot.definitionAt?`: the declaration to go to
-/

namespace SolidityAtlas

/-- What is shown about a use. -/
structure Hover where
  node : Handle
  kind : NodeKind
  name : Option String
  range : Span
  declaration : Handle
  declaredType : Option Handle
deriving DecidableEq, Inhabited

/-- A declaration to go to. -/
structure Definition where
  node : Handle
  kind : NodeKind
  name : Option String
  location : Location
deriving DecidableEq, Inhabited

namespace Snapshot

variable (s : Snapshot)

/-- Where the node behind a handle is named. -/
def locationOf? (h : Handle) : Option Location :=
  (s.symbol? h).map fun d => ⟨h.file, d.nameRange⟩

/-- The use under a cursor. -/
def usageAt? (file : FileId) (p : Position) : Option Handle := do
  let t ← s.tree? file
  let id ← t.nodeAt? p
  if (t.kind? id).any NodeKind.isHoverable then return t.handle id else none

/-- The first node that the type of a node is written as. -/
def declaredType? (h : Handle) : Option Handle :=
  (s.symbol? h).bind (·.declaredType.head?)

/-- The declaration that the use behind a handle refers to. -/
def declarationOf? (h : Handle) : Option Handle :=
  (s.symbol? h).bind Symbol.declaration

/-- Where the declaration is named that a use refers to. -/
def definitionOf? (h : Handle) : Option Location :=
  (s.declarationOf? h).bind s.locationOf?

/-- What is shown about the use under a cursor. -/
def hover? (file : FileId) (p : Position) : Option Hover := do
  let node ← s.usageAt? file p
  let u ← s.symbol? node
  let declaration ← u.declaration
  return {
    node, declaration
    kind := u.kind
    name := u.name
    range := u.nameRange
    declaredType := s.declaredType? node }

/-- The declaration of the use under a cursor. -/
def definitionAt? (file : FileId) (p : Position) : Option Definition := do
  let usage ← s.usageAt? file p
  let node ← s.declarationOf? usage
  let d ← s.symbol? node
  return { node, kind := d.kind, name := d.name, location := ⟨node.file, d.nameRange⟩ }

end Snapshot

end SolidityAtlas

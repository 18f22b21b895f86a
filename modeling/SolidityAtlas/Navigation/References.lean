import SolidityAtlas.Navigation.Definition

/-!
# All uses of a declaration

The declaration in question is the one under the cursor, or the one that the use
under the cursor refers to. Its uses are those that it lists.

## Main Definitions

* `Reference`: a use, or the declaration itself
* `Snapshot.declarationAt?`: the declaration in question
* `Snapshot.referencesAt`: that declaration and all its uses
-/

namespace SolidityAtlas

/-- A place where a declaration is named. -/
structure Reference where
  node : Handle
  location : Location
  /-- Whether this is the declaration itself. -/
  isDefinition : Bool
deriving DecidableEq, Inhabited

/-- A declaration and the places where it is named. -/
structure References where
  declaration : Option Handle
  entries : List Reference
deriving DecidableEq, Inhabited

namespace Snapshot

variable (s : Snapshot)

/-- The declaration under a cursor, or of the use under the cursor. -/
def declarationAt? (file : FileId) (p : Position) : Option Handle := do
  let t ← s.tree? file
  let id ← t.nodeAt? p
  let n ← t.symbol? id
  if n.isDeclaration then return t.handle id
  else if n.isUsage then n.declaration
  else none

/-- The place where the node behind a handle is named. -/
def reference? (isDefinition : Bool) (h : Handle) : Option Reference :=
  (s.locationOf? h).map fun location => ⟨h, location, isDefinition⟩

/-- The declaration in question at a cursor and all its uses, itself first if it is asked for. -/
def referencesAt (file : FileId) (p : Position) (withDeclaration : Bool) : References :=
  match s.declarationAt? file p with
  | none => ⟨none, []⟩
  | some declaration =>
    match s.symbol? declaration with
    | none => ⟨none, []⟩
    | some d =>
      let own := if withDeclaration then (s.reference? true declaration).toList else []
      ⟨some declaration, own ++ d.references.filterMap (s.reference? false)⟩

end Snapshot

end SolidityAtlas

import SolidityAtlas.Failure
import SolidityAtlas.Text.Pieces

/-!
# Remappings

A remapping replaces the front of an import path, for all importers or for those
in a certain place:

    Remapping = (Context ':')? Front '=' Target

The first equals sign ends the front, and the first colon before it ends the
context. Front and target are not empty; an empty context is none.

## Main Definitions

* `Remapping`, `Remapping.display`: a remapping and its written form
* `Remapping.parse`: reading a written form
* `Remapping.parseAll`: reading a list, one remapping a line
* `Remapping.replace?`: the path that a path is replaced by
-/

namespace SolidityAtlas

/-- A rule for replacing the front of import paths. -/
structure Remapping where
  /-- Where the path of an importer must begin; nothing means anywhere. -/
  context : Option String
  /-- What an import path must begin with. -/
  front : String
  /-- What the front is replaced by. -/
  target : String
deriving DecidableEq, Inhabited

namespace Remapping

/-- The written form of a remapping. -/
def display (r : Remapping) : String :=
  let rule := r.front ++ "=" ++ r.target
  match r.context with
  | some context => context ++ ":" ++ rule
  | none => rule

/-- Whether a remapping holds for an importer. -/
def appliesTo (r : Remapping) (importer : String) : Bool :=
  r.context.all fun context => context.toList.isPrefixOf importer.toList

/-- The path that replaces an import path, if that has the right front. -/
def replace? (r : Remapping) (path : String) : Option String :=
  (dropFront? r.front.toList path.toList).map fun rest => r.target ++ String.ofList rest

/-- The remapping with these parts, if front and target are not empty. -/
def ofParts? (context : Option (List Char)) (front target : List Char) : Option Remapping :=
  if front.isEmpty || target.isEmpty then none
  else some {
    context := (context.filter fun c => ! c.isEmpty).map String.ofList
    front := String.ofList front
    target := String.ofList target }

/-- The remapping that a row of characters without outer blanks writes. -/
def ofChars? (entry : List Char) : Option Remapping :=
  (cutOnce? '=' entry).bind fun (before, target) =>
    match cutOnce? ':' before with
    | some (context, front) => ofParts? (some context) front target
    | none => ofParts? none before target

/-- The remapping that a text writes; blanks at its ends do not count. -/
def parse (text : String) : Except Failure Remapping :=
  let entry := trimBlank text.toList
  match ofChars? entry with
  | some r => .ok r
  | none => .error (.invalidRemapping (String.ofList entry))

/-- Whether a line holds a remapping: it is not empty and no comment. -/
def isEntry (line : List Char) : Bool :=
  match line with
  | [] => false
  | c :: _ => c != '#'

/-- The remappings of a text, one a line. Empty lines and lines that begin with `#` are
skipped. -/
def parseAll (text : String) : Except Failure (List Remapping) :=
  let lines := (pieces (· == '\n') text.toList).map trimBlank
  (lines.filter isEntry).mapM fun line => parse (String.ofList line)

end Remapping

end SolidityAtlas

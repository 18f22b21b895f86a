import SolidityAtlas.Text.Pieces
import SolidityAtlas.Token.Kind

/-!
# Words

A word is a reserved word, the name of an elementary type, or an identifier.
The elementary types are a fixed list of names and three families with a size:
`uint8` to `uint256` and `int8` to `int256` in steps of eight bits, `bytes1` to
`bytes32`, and `fixedMxN`, `ufixedMxN`.

## Main Definitions

* `isElementaryType`: whether a word names an elementary type
* `classify`: the kind of a word
* `isUnit`: whether a word is a unit that may follow a number
-/

namespace SolidityAtlas

/-- Sizes are numbers of 32 bits, so all of them are below this one. -/
def sizeBound : Nat := 4294967296

/-- Reads a size: decimal digits with an optional plus sign in front. It must be below
`sizeBound` and may not begin with a zero. -/
def readSize? (cs : List Char) : Option Nat :=
  let digits := match cs with
    | '+' :: ds => ds
    | _ => cs
  if cs.head? = some '0' ∨ digits = [] ∨ ¬ digits.all Char.isDigit then none
  else
    let n := digits.foldl (fun n c => 10 * n + (c.toNat - '0'.toNat)) 0
    if n < sizeBound then some n else none

/-- What follows the first of `fronts` that the text begins with. -/
def dropAnyFront? (fronts : List String) (cs : List Char) : Option (List Char) :=
  fronts.findSome? fun front => dropFront? front.toList cs

/-- The elementary types without a size. -/
def plainTypes : List String :=
  ["address", "bool", "string", "bytes", "byte", "int", "uint", "fixed", "ufixed"]

/-- Whether a word names an elementary type. -/
def isElementaryType (word : String) : Bool :=
  if plainTypes.contains word then true
  else
    let cs := word.toList
    match dropAnyFront? ["uint", "int"] cs with
    | some bits => (readSize? bits).any fun n => n % 8 == 0 && 8 ≤ n && n ≤ 256
    | none =>
      match dropAnyFront? ["bytes"] cs with
      | some size => (readSize? size).any fun n => 1 ≤ n && n ≤ 32
      | none =>
        match dropAnyFront? ["ufixed", "fixed"] cs with
        | some sizes =>
          (cutOnce? 'x' sizes).any fun (m, n) => (readSize? m).isSome && (readSize? n).isSome
        | none => false

/-- The kind of a word. -/
def classify (word : String) : TokenKind :=
  match reservedWords.lookup word with
  | some kind => kind
  | none => if isElementaryType word then .elementaryTypeKw else .ident

/-- The units of ether and of time. -/
def units : List String :=
  ["wei", "gwei", "szabo", "finney", "ether", "seconds", "minutes", "hours", "days", "weeks",
    "years"]

/-- Whether a word is a unit that may follow a number. -/
def isUnit (word : String) : Bool :=
  units.contains word

end SolidityAtlas

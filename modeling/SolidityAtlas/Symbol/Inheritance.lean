import SolidityAtlas.Symbol.Forest
import SolidityAtlas.Symbol.Merge

/-!
# Inheritance

A contract names its bases, the most general one first. Its *linearization* is
the row of contracts in which members are looked for: the contract itself, then
its bases in an order that keeps to the linearizations of all bases and to the
order in which they are named, read from right to left.

A contract that is among its own bases, or that is reached over too many steps,
stands for itself alone.

## Main Definitions

* `Forest.bases`: the contracts that a contract names as its bases
* `Forest.linearize`: the row of contracts in which members are looked for
* `Forest.inherited?`: what a use inside a contract can refer to in its bases
-/

namespace SolidityAtlas.Forest

variable (f : Forest)

/-- The contracts that a contract names as its bases, in the order of the text. Names that
have not found a contract are left out. -/
def bases (contract : Handle) : List Handle :=
  let specifiers := (f.children contract).filter fun c => f.kind? c == some .inheritanceSpecifier
  let named := (specifiers.filterMap f.firstChild?).filterMap f.declaration?
  named.filter fun b => f.kind? b == some .contractDefinition

/-- The linearization of a contract that is reached through the contracts `path`, over at
most `steps` further steps. -/
def linearizeWithin : (steps : Nat) → (path : List Handle) → Handle → List Handle
  | 0, _, contract => [contract]
  | steps + 1, path, contract =>
    if path.contains contract then [contract]
    else
      let bases := (f.bases contract).reverse
      let rows := bases.map (linearizeWithin steps (contract :: path))
      mergeOrders (rows ++ [bases]) [contract]

/-- The contracts in which the members of a contract are looked for, itself first. -/
def linearize (maxDepth : Nat) (contract : Handle) : List Handle :=
  f.linearizeWithin maxDepth [] contract

/-- The first declaration in a base of a contract that a use can refer to. -/
def inherited? (maxDepth : Nat) (contract : Handle) (usage : Symbol) : Option Handle :=
  (f.linearize maxDepth contract).tail.findSome? (f.memberAccepting? usage)

end SolidityAtlas.Forest

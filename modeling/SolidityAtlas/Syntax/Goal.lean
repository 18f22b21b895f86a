import SolidityAtlas.Row.Total
import SolidityAtlas.Syntax.Draft

/-!
# Goals

A text is read with a stack of *goals*: what is still to be found, the next goal
on top. Pursuing a goal takes tokens into the draft and may leave further goals
in its place. The goals stand for the rules of the grammar and for the places
inside a rule at which another rule takes over.

Goals carry *weights*. A goal that takes no token leaves only goals that weigh
less than it does together, and a goal that takes one leaves less than
`tokenWeight`. So the reading comes to an end.

## Main Definitions

* `Goal`: what can be looked for
* `Goal.weight`, `Goal.weights`: the weight of a goal and of a row of goals
* `Pursuit`, `Pursuit.load`: a draft with the goals that are left, and its weight
-/

namespace SolidityAtlas

/-- What is still to be found in a text. -/
inductive Goal where
  /-- A certain token. -/
  | expect (k : TokenKind)
  /-- Nothing more: the innermost node ends here. -/
  | close
  /-- The members of a file. -/
  | items
  /-- The symbols of an import, up to its end. -/
  | importSymbols
  /-- A base of a contract, and what follows it. -/
  | bases
  /-- What follows a base: another one, or the body. -/
  | moreBases
  /-- The body of a contract. -/
  | contractBody
  /-- The members of a contract and its closing brace. -/
  | members
  /-- The fields of a struct and its closing brace. -/
  | fields
  /-- The name of a field. -/
  | fieldEnd
  /-- The values of an enum and its closing brace. -/
  | enumValues
  /-- What follows the parameters of an event. -/
  | eventEnd
  /-- What follows the parameters of a modifier. -/
  | modifierAttributes
  /-- What follows the parameters of a function. -/
  | functionAttributes
  /-- The names in an override list and its closing parenthesis. -/
  | overrideNames
  /-- The names in a using list and its closing brace. -/
  | usingNames
  /-- The target of a using declaration. -/
  | usingFor
  /-- The end of a using declaration. -/
  | usingEnd
  /-- What follows the type of a state variable. -/
  | stateVariableAttributes
  /-- An initial value, if there is one, and the end of the declaration. -/
  | initialiser
  /-- A parameter list. -/
  | parameters
  /-- The parameters of a list and its closing parenthesis. -/
  | parameterRow
  /-- What follows the type of a parameter. -/
  | parameterEnd
  /-- What follows a parameter: another one, or the closing parenthesis. -/
  | moreParameters
  /-- A type name. -/
  | typeName
  /-- Brackets that turn the type at the mark into an array type. -/
  | arraySuffix (mark : Nat)
  /-- What stands between key and value of a mapping. -/
  | mappingArrow
  /-- What follows the value of a mapping. -/
  | mappingEnd
  /-- What follows the parameters of a function type. -/
  | functionTypeEnd
  /-- An expression whose operators bind at least as tightly as `min`. -/
  | expression (min : Nat)
  /-- An expression without which its operator is incomplete. -/
  | operand (min : Nat) (missing : FaultCause)
  /-- The binary operators behind the expression at the mark. -/
  | operators (mark min : Nat)
  /-- Accesses and calls behind the expression at the mark; `last` is the one before. -/
  | suffixes (mark : Nat) (last : Option NodeKind)
  /-- What follows the first index of an index access. -/
  | indexMiddle (mark : Nat)
  /-- The end of an index access. -/
  | indexEnd (mark : Nat) (kind : NodeKind)
  /-- The arguments of a call and its closing parenthesis. -/
  | arguments
  /-- What follows an argument: another one, or the closing parenthesis. -/
  | moreArguments
  /-- The named arguments of a call and the closing brace. -/
  | namedValues
  /-- What follows a named argument: another one, or the closing brace. -/
  | moreNamedValues
  /-- The elements of a tuple or an inline array that `opening` has opened. -/
  | tupleItems (opening closing : TokenKind)
  /-- What follows an element: another one, or the end. -/
  | moreTupleItems (opening closing : TokenKind)
  /-- The statements of a block and its closing brace. -/
  | statements
  /-- A statement. -/
  | statement
  /-- A block. -/
  | block
  /-- What follows the first branch of a conditional statement. -/
  | elseBranch
  /-- What follows the body of a do-while loop. -/
  | doWhileEnd
  /-- The first part of the head of a for loop. -/
  | forInit
  /-- The second part of the head of a for loop. -/
  | forCondition
  /-- The third part of the head of a for loop. -/
  | forUpdate
  /-- The values returned by the call of a try statement. -/
  | tryReturns
  /-- The catch clauses of a try statement. -/
  | catches
  /-- The variables of a declaration in parentheses. -/
  | declarators
  /-- What follows a variable: another one, or the closing parenthesis. -/
  | moreDeclarators
  /-- What follows the type of a local variable. -/
  | localEnd
deriving DecidableEq, Inhabited

namespace Goal

/-- The weight of a goal. -/
def weight : Goal → Nat
  | bases => 3
  | moreBases => 2
  | usingNames => 4
  | usingFor => 3
  | indexMiddle _ => 3
  | indexEnd _ _ => 2
  | doWhileEnd => 5
  | forCondition => 3
  | forUpdate => 4
  | declarators => 3
  | _ => 1

/-- The weight of a row of goals. -/
def weights (goals : List Goal) : Nat :=
  total weight goals

/-- The weight of a token that is still to be taken. -/
def tokenWeight : Nat := 16

@[simp] theorem weights_nil : weights [] = 0 := rfl

@[simp] theorem weights_cons (g : Goal) (gs : List Goal) :
    weights (g :: gs) = g.weight + weights gs := by
  simp [weights]

/-- The goals of two rows weigh what the rows weigh together. -/
@[simp] theorem weights_append (gs hs : List Goal) :
    weights (gs ++ hs) = weights gs + weights hs := by
  simp [weights]

end Goal

/-- A draft together with the goals that are left. -/
abbrev Pursuit := Draft × List Goal

namespace Pursuit

/-- The weight of what is left: of the tokens and of the goals. -/
def load (p : Pursuit) : Nat :=
  Goal.tokenWeight * p.1.size + Goal.weights p.2

/-- The pursuit with more goals behind its own. -/
def andThen (p : Pursuit) (goals : List Goal) : Pursuit :=
  (p.1, p.2 ++ goals)

/-- Each token weighs sixteen, beside the goals that are left. -/
@[simp] theorem load_mk (d : Draft) (goals : List Goal) :
    load (d, goals) = 16 * d.size + Goal.weights goals := rfl

/-- Goals that are put behind add their own weight. -/
@[simp] theorem load_andThen (p : Pursuit) (goals : List Goal) :
    (p.andThen goals).load = p.load + Goal.weights goals := by
  simp [load, andThen, Nat.add_assoc]

end Pursuit

end SolidityAtlas

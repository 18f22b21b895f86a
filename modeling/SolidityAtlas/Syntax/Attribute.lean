import SolidityAtlas.Token.Kind

/-!
# Attributes

Words of the language that qualify a declaration. Each attribute is read off the
kind of a token; the first token that stands for one decides.

## Main Definitions

* `ContractFlavour`, `FunctionFlavour`: what a contract or a function is introduced as
* `Visibility`, `Mutability`: from where a member can be used, and what it may change
* `DataLocation`: where the value of a variable is kept
-/

namespace SolidityAtlas

/-- What a contract is introduced as. -/
inductive ContractFlavour where
  | contract | interface | library
deriving DecidableEq, Inhabited

/-- What a function is introduced as. -/
inductive FunctionFlavour where
  | function | constructor | fallback | receive
deriving DecidableEq, Inhabited

/-- From where a member can be used. -/
inductive Visibility where
  | publicly | privately | internally | externally
deriving DecidableEq, Inhabited

/-- What a function may do to the state of its contract. -/
inductive Mutability where
  | pure | view | payable | nonPayable
deriving DecidableEq, Inhabited

/-- Where the value of a variable is kept. -/
inductive DataLocation where
  | memory | storage | calldata
deriving DecidableEq, Inhabited

namespace ContractFlavour

/-- The display name of a flavour. -/
def name : ContractFlavour → String
  | contract => "Contract"
  | interface => "Interface"
  | library => "Library"

end ContractFlavour

namespace FunctionFlavour

/-- The display name of a flavour. -/
def name : FunctionFlavour → String
  | function => "Function"
  | constructor => "Constructor"
  | fallback => "Fallback"
  | receive => "Receive"

/-- The flavour that a word introduces. -/
def ofToken? : TokenKind → Option FunctionFlavour
  | .functionKw => some function
  | .constructorKw => some constructor
  | .fallbackKw => some fallback
  | .receiveKw => some receive
  | _ => none

end FunctionFlavour

namespace Visibility

/-- The display name of a visibility. -/
def name : Visibility → String
  | publicly => "Public"
  | privately => "Private"
  | internally => "Internal"
  | externally => "External"

/-- The visibility that a word stands for. -/
def ofToken? : TokenKind → Option Visibility
  | .publicKw => some publicly
  | .privateKw => some privately
  | .internalKw => some internally
  | .externalKw => some externally
  | _ => none

end Visibility

namespace Mutability

/-- The display name of a mutability. -/
def name : Mutability → String
  | pure => "Pure"
  | view => "View"
  | payable => "Payable"
  | nonPayable => "NonPayable"

/-- The mutability that a word stands for; `constant` is an old word for `view`. -/
def ofToken? : TokenKind → Option Mutability
  | .pureKw => some pure
  | .viewKw | .constantKw => some view
  | .payableKw => some payable
  | _ => none

end Mutability

namespace DataLocation

/-- The display name of a location. -/
def name : DataLocation → String
  | memory => "Memory"
  | storage => "Storage"
  | calldata => "Calldata"

/-- The location that a word stands for. -/
def ofToken? : TokenKind → Option DataLocation
  | .memoryKw => some memory
  | .storageKw => some storage
  | .calldataKw => some calldata
  | _ => none

end DataLocation

end SolidityAtlas

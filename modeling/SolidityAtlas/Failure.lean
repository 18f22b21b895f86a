import SolidityAtlas.Syntax.Fault

/-!
# Failures

What a caller has to hear about. A name without a declaration is no failure, and
neither is a reading of a file that comes too late.

## Main Definitions

* `Failure`: why a file or a setting was not taken
* `Failure.message`: the wording
-/

namespace SolidityAtlas

/-- Why a file cannot be read. -/
inductive ReadProblem where
  /-- There is nothing at the path. -/
  | missing
  /-- The bytes of the file are no text. -/
  | notText
  /-- There is a directory at the path. -/
  | directory
  /-- The path goes through something that is no directory. -/
  | throughFile
deriving DecidableEq, Inhabited

/-- Why a file or a setting was not taken. -/
inductive Failure where
  /-- The text of a file has faults. -/
  | faulty (path : String) (faults : List Fault)
  /-- A file cannot be read. -/
  | unreadable (problem : ReadProblem)
  /-- A remapping is not of the form `[context:]front=target`. -/
  | invalidRemapping (entry : String)
  /-- No file with this path is known. -/
  | unknownFile (path : String)
deriving DecidableEq, Inhabited

/-- A fault with its place, as it stands in a message. -/
def Fault.withPlace (f : Fault) : String :=
  f.message ++ " at " ++ toString f.start ++ ".." ++ toString f.stop

namespace ReadProblem

/-- The wording of a problem. -/
def message : ReadProblem → String
  | missing => "not found"
  | notText => "not text"
  | directory => "is a directory"
  | throughFile => "not a directory"

end ReadProblem

/-- The wording of a failure. -/
def Failure.message : Failure → String
  | faulty path faults =>
    path ++ ": " ++ toString faults.length ++ " syntax error(s), first: " ++
      (faults.head?.map Fault.withPlace).getD ""
  | unreadable problem => problem.message
  | invalidRemapping entry => "Invalid remapping: " ++ entry
  | unknownFile path => "Unknown file: " ++ path

end SolidityAtlas

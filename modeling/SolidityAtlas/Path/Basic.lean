import SolidityAtlas.Text.Pieces

/-!
# Source paths

Files are named by paths, and one file has many spellings: `./a/../B.sol`,
`B.sol`, `a\..\B.sol`. `Path.normalize` picks one of them. It looks at the text
alone and never at a file system.

Both slash and backslash separate segments. Empty segments and `.` say nothing.
A `..` takes back the segment before it; at the root of an absolute path it says
nothing, and at the start of a relative path it stays, since nobody knows what
stands before.

## Main Definitions

* `Path.normalize`: the one spelling of a path
* `Path.parent`: the directory part of a path
-/

namespace SolidityAtlas.Path

/-- The characters that separate the segments of a path. -/
def isSeparator (c : Char) : Bool :=
  c == '/' || c == '\\'

/-- The segments of a path that are kept when `segment` follows; `kept` holds the
segments so far, last one first. -/
def enter (absolute : Bool) (kept : List (List Char)) (segment : List Char) : List (List Char) :=
  if segment = [] ∨ segment = ['.'] then kept
  else if segment = ['.', '.'] then
    match kept with
    | last :: before =>
      if last = ['.', '.'] then (if absolute then kept else segment :: kept) else before
    | [] => if absolute then [] else [segment]
  else segment :: kept

/-- Whether a path starts at the root. -/
def isAbsolute : List Char → Bool
  | c :: _ => isSeparator c
  | [] => false

/-- The segments of the normal form of a path, first one first. -/
def segments (path : List Char) : List (List Char) :=
  ((pieces isSeparator path).foldl (enter (isAbsolute path)) []).reverse

/-- The normal form of a path given by its characters. -/
def normalChars (path : List Char) : List Char :=
  let joined := glue ['/'] (segments path)
  if isAbsolute path then '/' :: joined else joined

/-- The one spelling of a path. -/
def normalize (path : String) : String :=
  String.ofList (normalChars path.toList)

/-- The part before the last slash, if there is a slash. -/
def beforeLastSlash? : List Char → Option (List Char)
  | [] => none
  | c :: cs =>
    match beforeLastSlash? cs with
    | some before => some (c :: before)
    | none => if c = '/' then some [] else none

/-- The directory part of a path: everything before the last slash, a single slash
at the root, and nothing for a bare file name. -/
def parent (path : String) : String :=
  match beforeLastSlash? path.toList with
  | none => ""
  | some [] => "/"
  | some before => String.ofList before

end SolidityAtlas.Path

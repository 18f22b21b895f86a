import SolidityAtlas.Import.Remapping
import SolidityAtlas.Path.Table

/-!
# From import paths to files

An import path becomes a *candidate* first: a remapping replaces its front, or it
is joined to the importer's directory if it begins with `./` or `../`, or it is
taken as it is. Of the remappings that fit, the one with the longest front wins;
one with a context is better than one without, and a later one than an earlier.

A file is what the import means if its path is the candidate. Failing that, it is
the file whose path ends with the candidate, the one with the shortest path.

## Main Definitions

* `candidatePath`: the path that an import is about
* `importMatches`: whether a file can be what a candidate means
* `resolveImport?`: the file that an import means
-/

namespace SolidityAtlas

/-- How well a remapping fits: the length of its front in bytes, then whether it has a
context. -/
def Remapping.rank (r : Remapping) : Nat × Bool :=
  (r.front.utf8ByteSize, r.context.isSome)

/-- Whether one rank is no better than another. -/
def rankLe (a b : Nat × Bool) : Bool :=
  a.1 < b.1 || (a.1 == b.1 && (! a.2 || b.2))

/-- The better of two remappings; the second one if they are equally good. -/
def betterRemapping (best : Option Remapping) (r : Remapping) : Option Remapping :=
  match best with
  | none => some r
  | some b => if rankLe b.rank r.rank then some r else some b

/-- The remapping that decides about an import path. -/
def bestRemapping? (remappings : List Remapping) (importer path : String) : Option Remapping :=
  (remappings.filter fun r => r.appliesTo importer && (r.replace? path).isSome).foldl
    betterRemapping none

/-- Whether a path is written relative to the importer's directory. -/
def isRelative (path : String) : Bool :=
  "./".toList.isPrefixOf path.toList || "../".toList.isPrefixOf path.toList

/-- The path that an import is about, in its normal form. -/
def candidatePath (remappings : List Remapping) (importer path : String) : String :=
  match (bestRemapping? remappings importer path).bind (·.replace? path) with
  | some remapped => Path.normalize remapped
  | none =>
    let directory := Path.parent importer
    if isRelative path && directory != "" then Path.normalize (directory ++ "/" ++ path)
    else Path.normalize path

/-- A path without the steps up at its beginning. -/
def dropStepsUp : List Char → List Char
  | '.' :: '.' :: '/' :: cs => dropStepsUp cs
  | cs => cs

/-- What the path of a file must end with to be what a candidate means. -/
def wantedSuffix (candidate : List Char) : List Char :=
  (dropStepsUp candidate).dropWhile (· == '/')

/-- Whether a row of characters ends with a suffix that begins a segment. -/
def endsWithSegments (suffix path : List Char) : Bool :=
  suffix.isSuffixOf path &&
    (let front := path.take (path.length - suffix.length)
     front.isEmpty || front.getLast? == some '/')

/-- Whether a file can be what a candidate means: by its whole path or by the end of it. -/
def importMatches (candidate path : String) : Bool :=
  let suffix := wantedSuffix candidate.toList
  path == candidate || (! suffix.isEmpty && endsWithSegments suffix path.toList)

/-- Whether one path is shorter than another in bytes, or as long and earlier in the
alphabet. -/
def pathLt (a b : String) : Bool :=
  a.utf8ByteSize < b.utf8ByteSize || (a.utf8ByteSize == b.utf8ByteSize && a < b)

/-- The one of two files that has the shorter path; the first one if they are alike. -/
def shorterPath (best : Option (FileId × String)) (entry : FileId × String) :
    Option (FileId × String) :=
  match best with
  | none => some entry
  | some b => if pathLt entry.2 b.2 then some entry else some b

/-- The file that an import means, among the files that are `live`. -/
def resolveImport? (files : PathTable) (remappings : List Remapping) (importer path : String)
    (live : FileId → Bool) : Option FileId :=
  let candidate := candidatePath remappings importer path
  match (files.fileId? candidate).filter live with
  | some file => some file
  | none =>
    -- No file that is live has the whole path, so what fits now fits by its end.
    let fitting := files.toList.filter fun (file, path) => importMatches candidate path && live file
    (fitting.foldl shorterPath none).map (·.1)

end SolidityAtlas

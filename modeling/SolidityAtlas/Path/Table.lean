import SolidityAtlas.Path.Basic

/-!
# Numbered paths

Files are referred to by small numbers, handed out in the order in which paths
are first mentioned. A `PathTable` keeps the paths in that order, each in its
normal form, so that two spellings of one path get one number. Beside them it keeps
the number of each path, and a path is added to both at once.

## Main Definitions

* `PathTable.intern`: the number of a path, a new one if it has none yet
* `PathTable.fileId?`: the number of a path, if it has one
* `PathTable.path?`: the path behind a number
-/

namespace SolidityAtlas

/-- The number of a file. -/
abbrev FileId := Nat

/-- Paths and their numbers. -/
structure PathTable where
  /-- The number of each path. -/
  numbers : List (String × FileId)
  /-- The paths in the order of their numbers. -/
  paths : List String
  /-- The number of a path is its place. -/
  inStep : ∀ path, numbers.lookup path = paths.idxOf? path
deriving DecidableEq

namespace PathTable

/-- The table without paths. -/
def empty : PathTable :=
  ⟨[], [], fun _ => rfl⟩

instance : Inhabited PathTable :=
  ⟨empty⟩

/-- How many paths have a number. -/
def size (t : PathTable) : Nat :=
  t.paths.length

/-- The number of a path, if it has one. -/
def fileId? (t : PathTable) (path : String) : Option FileId :=
  t.numbers.lookup (Path.normalize path)

/-- The path behind a number. -/
def path? (t : PathTable) (file : FileId) : Option String :=
  t.paths[file]?

/-- A path that is new comes behind the others, and its number is its place. -/
theorem lookup_cons_eq_idxOf? {t : PathTable} {path : String} (h : t.numbers.lookup path = none)
    (other : String) :
    ((path, t.size) :: t.numbers).lookup other = (t.paths ++ [path]).idxOf? other := by
  have hnew : t.paths.findIdx? (· == path) = none := (t.inStep path).symm.trans h
  have happend : (t.paths ++ [path]).idxOf? other =
      (t.paths.findIdx? (· == other)).or (([path].findIdx? (· == other)).map (· + t.size)) :=
    List.findIdx?_append
  rw [happend, List.lookup_cons]
  by_cases heq : other = path
  · rw [heq, hnew]
    simp
  · have hother : (other == path) = false := beq_false_of_ne heq
    have hstep : t.numbers.lookup other = t.paths.findIdx? (· == other) := t.inStep other
    simp [hother, hstep, Ne.symm heq]

/-- The table with a path that is new. -/
def add (t : PathTable) (path : String) (h : t.numbers.lookup path = none) : PathTable where
  numbers := (path, t.size) :: t.numbers
  paths := t.paths ++ [path]
  inStep := lookup_cons_eq_idxOf? h

/-- The number of a path, and the table that knows it. -/
def intern (t : PathTable) (path : String) : FileId × PathTable :=
  match h : t.fileId? path with
  | some file => (file, t)
  | none => (t.size, t.add (Path.normalize path) h)

/-- All numbers with their paths. -/
def toList (t : PathTable) : List (FileId × String) :=
  t.paths.zipIdx.map fun (path, file) => (file, path)

end PathTable

end SolidityAtlas

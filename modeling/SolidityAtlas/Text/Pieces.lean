/-!
# Cutting text

Texts with separators: lines of a file, segments of a path, names joined by
dots. All cuts are made on lists of characters, and nothing but the separators
is lost. At its two ends a text may be cut at the white space of Unicode.

## Main Definitions

* `pieces`: the parts between the separators, at least one
* `cutOnce?`: what stands before and behind the first separator
* `dropFront?`: what follows a given beginning
* `glue`: parts joined by a separator
* `isBlank`, `trimBlank`: white space, and a text without it at its ends
-/

namespace SolidityAtlas

/-- The parts of a text between the characters that `isSep` marks. -/
def pieces (isSep : Char → Bool) : List Char → List (List Char)
  | [] => [[]]
  | c :: cs =>
    if isSep c then [] :: pieces isSep cs
    else match pieces isSep cs with
      | [] => [[c]]
      | p :: ps => (c :: p) :: ps

/-- A text has at least one piece, which may be empty. -/
theorem pieces_ne_nil (isSep : Char → Bool) (cs : List Char) : pieces isSep cs ≠ [] := by
  cases cs with
  | nil => simp [pieces]
  | cons c cs =>
    unfold pieces
    split
    · simp
    · split <;> simp

/-- What stands before and behind the first `sep`, if there is one. -/
def cutOnce? (sep : Char) : List Char → Option (List Char × List Char)
  | [] => none
  | c :: cs =>
    if c = sep then some ([], cs)
    else (cutOnce? sep cs).map fun (before, behind) => (c :: before, behind)

/-- What stands before and behind a cut, with the separator between, is the text. -/
theorem eq_append_of_cutOnce? {sep : Char} {cs before behind : List Char}
    (h : cutOnce? sep cs = some (before, behind)) : cs = before ++ sep :: behind := by
  induction cs generalizing before with
  | nil => simp [cutOnce?] at h
  | cons c cs ih =>
    unfold cutOnce? at h
    split at h
    · simp_all
    · obtain ⟨⟨b, r⟩, hb, he⟩ := Option.map_eq_some_iff.1 h
      obtain ⟨rfl, rfl⟩ := Prod.mk.inj he
      simp [← ih hb]

/-- What follows `front` in a text that begins with it. -/
def dropFront? : (front cs : List Char) → Option (List Char)
  | [], cs => some cs
  | _ :: _, [] => none
  | f :: fs, c :: cs => if f = c then dropFront? fs cs else none

/-- A front is dropped exactly from the texts that start with it. -/
theorem dropFront?_eq_some_iff {front cs rest : List Char} :
    dropFront? front cs = some rest ↔ cs = front ++ rest := by
  induction front generalizing cs with
  | nil => simp [dropFront?]
  | cons f fs ih =>
    cases cs with
    | nil => simp [dropFront?]
    | cons c cs =>
      by_cases h : f = c
      · simp [dropFront?, h, ih]
      · simp [dropFront?, h, Ne.symm h]

/-- The parts, with `sep` between any two of them. -/
def glue (sep : List Char) (parts : List (List Char)) : List Char :=
  sep.intercalate parts

/-- The characters with the Unicode property `White_Space`. -/
def isBlank (c : Char) : Bool :=
  let n := c.toNat
  (0x09 ≤ n && n ≤ 0x0D) || n == 0x20 || n == 0x85 || n == 0xA0 || n == 0x1680 ||
    (0x2000 ≤ n && n ≤ 0x200A) || n == 0x2028 || n == 0x2029 || n == 0x202F ||
    n == 0x205F || n == 0x3000

/-- A text without the blanks at its two ends. -/
def trimBlank (cs : List Char) : List Char :=
  ((cs.dropWhile isBlank).reverse.dropWhile isBlank).reverse

end SolidityAtlas

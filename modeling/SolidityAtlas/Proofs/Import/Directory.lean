import SolidityAtlas.Proofs.Import.Choice
import SolidityAtlas.Proofs.Path.Components
import SolidityAtlas.Proofs.Path.Spelling

/-!
# Imports seen from the importer's directory

An import that no remapping replaces is joined to the directory of the importer if it is
relative. The candidate is a normal form, so it does not matter how that directory is spelled
(`normalize_seenFrom_congr`), not even for the current directory: it may be left out, since a
relative import stays relative. What is written of the importer matters in one other place, the
contexts of remappings, so importers of one directory agree on the candidate as long as the same
remappings fit (`candidatePath_congr`).

## Main Results

* `candidatePath_congr`: the candidate depends on the directory and not on its spelling
* `normalize_is_canonical`: normal forms are a canonical form that agrees with joining
-/

namespace SolidityAtlas

variable {rs : List Remapping} {importer importer' path : String}

/-- Only the remappings that fit decide which of them is taken. -/
theorem bestRemapping?_congr (h : ∀ r ∈ rs, r.Fits importer path ↔ r.Fits importer' path) :
    bestRemapping? rs importer path = bestRemapping? rs importer' path := by
  rw [bestRemapping?, bestRemapping?, List.filter_congr fun r hr => Bool.eq_iff_iff.2 ?_]
  rw [← Remapping.fits_iff, ← Remapping.fits_iff]
  exact h r hr

/-- A relative import does not start at the root. -/
theorem isAbsolute_of_isRelative (h : isRelative path = true) :
    Path.isAbsolute path.toList = false := by
  rw [isRelative, Bool.or_eq_true, List.isPrefixOf_iff_prefix, List.isPrefixOf_iff_prefix] at h
  rcases h with ⟨rest, h⟩ | ⟨rest, h⟩
  · rw [← h]
    rfl
  · rw [← h]
    rfl

/-- What is seen from a directory is the same for every spelling of the directory. -/
theorem normalize_seenFrom_congr (hpath : isRelative path = true)
    (h : Path.normalize (Path.parent importer) = Path.normalize (Path.parent importer')) :
    Path.normalize (seenFrom importer path) = Path.normalize (seenFrom importer' path) := by
  have hrelative := isAbsolute_of_isRelative hpath
  rw [seenFrom, seenFrom]
  by_cases hempty : Path.parent importer = ""
  · by_cases hempty' : Path.parent importer' = ""
    · rw [if_pos hempty, if_pos hempty']
    · rw [hempty] at h
      rw [if_pos hempty, if_neg hempty', Path.normalize_join_of_empty hempty' h.symm hrelative]
  · by_cases hempty' : Path.parent importer' = ""
    · rw [hempty'] at h
      rw [if_neg hempty, if_pos hempty', Path.normalize_join_of_empty hempty h hrelative]
    · rw [if_neg hempty, if_neg hempty', Path.normalize_join_congr hempty hempty' h]

/-- Two importers whose directories are one directory agree on the candidate of an import if the
same remappings fit. -/
theorem candidatePath_congr (hfits : ∀ r ∈ rs, r.Fits importer path ↔ r.Fits importer' path)
    (h : Path.normalize (Path.parent importer) = Path.normalize (Path.parent importer')) :
    candidatePath rs importer path = candidatePath rs importer' path := by
  rw [candidatePath_eq, candidatePath_eq, bestRemapping?_congr hfits]
  split
  · rename_i hrelative
    rw [normalize_seenFrom_congr hrelative h]
  · rfl

/-- **Normal forms are a canonical form of paths, and joining agrees with it.** A normal form has
no backslash, no idle component and no step up behind a proper component or the root, it starts at
the root just if the path does, and normalizing it again changes nothing, as it changes no other
path of this kind. Two texts have one normal form just if they are spellings of one path. A
directory can be replaced by its normal form before a path is joined to it, unless the directory
is the current one; and an import that is joined to the directory of its importer does not depend
on how the directory is spelled, not even then. -/
theorem normalize_is_canonical :
    (∀ path, Path.IsNormal (Path.normalize path) ∧
      ((Path.normalize path).toList.head? = some '/' ↔
        path.toList.head? = some '/' ∨ path.toList.head? = some '\\') ∧
      Path.normalize (Path.normalize path) = Path.normalize path ∧
      (Path.normalize path = path ↔ Path.IsNormal path)) ∧
    (∀ a b, Path.normalize a = Path.normalize b ↔ Path.SamePath a b) ∧
    (∀ directory path,
      Path.normalize (directory ++ "/" ++ path) =
          Path.normalize (Path.normalize directory ++ "/" ++ path) ↔
        Path.normalize directory ≠ "" ∨ directory = "") ∧
    ∀ (rs : List Remapping) (importer importer' path : String),
      (∀ r ∈ rs, r.Fits importer path ↔ r.Fits importer' path) →
      Path.normalize (Path.parent importer) = Path.normalize (Path.parent importer') →
      candidatePath rs importer path = candidatePath rs importer' path := by
  refine ⟨fun path => ⟨Path.isNormal_normalize path, ?_, Path.normalize_normalize path,
      Path.normalize_eq_self_iff⟩,
    fun _ _ => Path.normalize_eq_iff, fun _ _ => Path.normalize_join_iff,
    fun _ _ _ _ => candidatePath_congr⟩
  rw [Path.normalize, String.toList_ofList]
  exact Path.head?_normalChars_iff path.toList

/-- One directory spelled in two ways, and a remapping that fits neither of the importers there. -/
theorem normalize_is_canonical_spelledDirectory :
    (∀ r ∈ [(⟨some "lib/", "../", "vendor/"⟩ : Remapping)],
      r.Fits "src\\lib/../token/A.sol" "../math/B.sol" ↔ r.Fits "./src/token/A.sol" "../math/B.sol") ∧
    Path.normalize (Path.parent "src\\lib/../token/A.sol") =
      Path.normalize (Path.parent "./src/token/A.sol") ∧
    candidatePath [⟨some "lib/", "../", "vendor/"⟩] "src\\lib/../token/A.sol" "../math/B.sol" =
      candidatePath [⟨some "lib/", "../", "vendor/"⟩] "./src/token/A.sol" "../math/B.sol" := by
  have hfits : ∀ r ∈ [(⟨some "lib/", "../", "vendor/"⟩ : Remapping)],
      r.Fits "src\\lib/../token/A.sol" "../math/B.sol" ↔
        r.Fits "./src/token/A.sol" "../math/B.sol" := by
    simp only [Remapping.fits_iff]
    decide
  have hdirectory : Path.normalize (Path.parent "src\\lib/../token/A.sol") =
      Path.normalize (Path.parent "./src/token/A.sol") := by decide
  exact ⟨hfits, hdirectory, normalize_is_canonical.2.2.2 _ _ _ _ hfits hdirectory⟩

end SolidityAtlas

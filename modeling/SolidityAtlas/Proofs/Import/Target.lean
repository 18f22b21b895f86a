import Mathlib.Data.Prod.Lex
import Mathlib.Data.String.Basic
import SolidityAtlas.Import.Resolve
import SolidityAtlas.Proofs.Path.Table

/-!
# What imports mean when files come and go

An import means a file that is live. What it means is decided by the live files whose
paths its candidate matches (`resolveImport?_congr`), so the paths of files that are not
live do not matter (`resolveImport?_of_known`). When one more file is live, the import
means that file, or it means what it meant before (`resolveImport?_of_live`).

## Main Results

* `normalize_candidatePath`: candidates are in normal form
* `resolveImport?_congr`, `resolveImport?_of_known`, `resolveImport?_of_live`
-/

namespace SolidityAtlas

variable {files files' : PathTable} {remappings : List Remapping} {importer path : String}
  {live live' : FileId → Bool} {file : FileId}

/-- Candidates are in normal form. -/
theorem normalize_candidatePath (remappings : List Remapping) (importer path : String) :
    Path.normalize (candidatePath remappings importer path) = candidatePath remappings importer path := by
  unfold candidatePath
  split
  · exact Path.normalize_normalize _
  · simp only
    split
    · exact Path.normalize_normalize _
    · exact Path.normalize_normalize _

/-- A candidate matches itself. -/
theorem importMatches_self (candidate : String) : importMatches candidate candidate = true := by
  rw [importMatches, beq_self_eq_true, Bool.true_or]

/-- The file at the candidate is one that the candidate matches. -/
theorem path?_of_fileId?_candidatePath
    (h : files.fileId? (candidatePath remappings importer path) = some file) :
    files.path? file = some (candidatePath remappings importer path) := by
  rw [PathTable.path?_of_fileId? h, normalize_candidatePath]

/-- The file at the candidate comes first, then the best of those that end with it. -/
theorem resolveImport?_eq :
    resolveImport? files remappings importer path live =
      ((files.fileId? (candidatePath remappings importer path)).filter live).or
        (((files.toList.filter fun entry =>
            importMatches (candidatePath remappings importer path) entry.2 && live entry.1).foldl
          shorterPath none).map (·.1)) := by
  rw [resolveImport?]
  cases (files.fileId? (candidatePath remappings importer path)).filter live with
  | none => rfl
  | some file => rfl

/-! ## The files that matter -/

/-- What an import means is decided by the files that its candidate matches. -/
theorem resolveImport?_congr (h : ∀ file written, files.path? file = some written →
      importMatches (candidatePath remappings importer path) written = true → live' file = live file) :
    resolveImport? files remappings importer path live' =
      resolveImport? files remappings importer path live := by
  have hexact : (files.fileId? (candidatePath remappings importer path)).filter live' =
      (files.fileId? (candidatePath remappings importer path)).filter live := by
    cases hfile : files.fileId? (candidatePath remappings importer path) with
    | none => rfl
    | some file =>
        rw [Option.filter_some, Option.filter_some,
          h file _ (path?_of_fileId?_candidatePath hfile) (importMatches_self _)]
  have hfitting : (files.toList.filter fun entry =>
        importMatches (candidatePath remappings importer path) entry.2 && live' entry.1) =
      files.toList.filter fun entry =>
        importMatches (candidatePath remappings importer path) entry.2 && live entry.1 := by
    refine List.filter_congr fun entry hmem => ?_
    cases hmatches : importMatches (candidatePath remappings importer path) entry.2 with
    | false => rw [Bool.false_and, Bool.false_and]
    | true => rw [h entry.1 entry.2 (PathTable.mem_toList_iff.1 hmem) hmatches]
  rw [resolveImport?_eq, resolveImport?_eq, hexact, hfitting]

/-- The paths of files that are not live do not matter. -/
theorem resolveImport?_of_known (h : files.paths <+: files'.paths)
    (hlive : ∀ file, live file = true → file < files.size) :
    resolveImport? files' remappings importer path live =
      resolveImport? files remappings importer path live := by
  obtain ⟨more, hmore⟩ := h
  have hexact : (files'.fileId? (candidatePath remappings importer path)).filter live =
      (files.fileId? (candidatePath remappings importer path)).filter live := by
    rw [PathTable.fileId?_eq_idxOf?, PathTable.fileId?_eq_idxOf?, ← hmore]
    unfold List.idxOf?
    rw [List.findIdx?_append]
    cases List.findIdx? (· == Path.normalize (candidatePath remappings importer path)) files.paths with
    | some file => rfl
    | none =>
        rw [Option.none_or, Option.filter_none, Option.filter_eq_none_iff]
        intro file hfile hmem
        obtain ⟨i, -, rfl⟩ := Option.map_eq_some_iff.1 hfile
        exact absurd (hlive _ hmem) (Nat.not_lt.2 (Nat.le_add_left _ i))
  have hfitting : (files'.toList.filter fun entry =>
        importMatches (candidatePath remappings importer path) entry.2 && live entry.1) =
      files.toList.filter fun entry =>
        importMatches (candidatePath remappings importer path) entry.2 && live entry.1 := by
    rw [PathTable.toList, PathTable.toList, ← hmore, List.zipIdx_append, List.map_append,
      List.filter_append]
    refine List.append_right_eq_self.2 (List.filter_eq_nil_iff.2 ?_)
    rintro ⟨file, written⟩ hmem hand
    obtain ⟨⟨p, f⟩, hmem, heq⟩ := List.mem_map.1 hmem
    cases heq
    have hle := List.le_snd_of_mem_zipIdx hmem
    rw [Nat.zero_add] at hle
    exact Nat.not_lt.2 hle (hlive file (Bool.and_eq_true_iff.1 hand).2)
  rw [resolveImport?_eq, resolveImport?_eq, hexact, hfitting]

/-! ## One more file -/

/-- Paths are compared by their length, then in the order of the alphabet. -/
theorem pathLt_iff {a b : String} :
    pathLt a b = true ↔ toLex (a.utf8ByteSize, a) < toLex (b.utf8ByteSize, b) := by
  rw [Prod.Lex.toLex_lt_toLex, pathLt, Bool.or_eq_true, Bool.and_eq_true, decide_eq_true_eq,
    decide_eq_true_eq, beq_iff_eq]

/-- The order of paths is transitive, also where the second step is only known not to go back. -/
theorem pathLt_of_lt_of_not_lt {a b c : String} (h : pathLt a b = true) (h' : ¬ pathLt c b = true) :
    pathLt a c = true := by
  rw [pathLt_iff] at h h' ⊢
  exact lt_of_lt_of_le h (not_lt.1 h')

/-- What comes before a path does not come behind a path that is no earlier. -/
theorem not_pathLt_of_lt_of_not_lt {a b c : String} (h : pathLt a b = true)
    (h' : ¬ pathLt c b = true) : ¬ pathLt c a = true := by
  rw [pathLt_iff] at h h' ⊢
  exact not_lt.2 (le_of_lt (lt_of_lt_of_le h (not_lt.1 h')))

/-- What is the best of a row with one more file: this file, and it is not worse than the best
without it; or what is the best without it. -/
def BestWith (file : FileId) (best' best : Option (FileId × String)) : Prop :=
  best' = best ∨ ∃ e, best' = some e ∧ e.1 = file ∧ ∀ b, best = some b → ¬ pathLt b.2 e.2 = true

/-- With an entry that both rows have, their best ones still differ by `file` at most. -/
theorem BestWith.shorterPath {best best' : Option (FileId × String)} (h : BestWith file best' best)
    (entry : FileId × String) :
    BestWith file (shorterPath best' entry) (shorterPath best entry) := by
  obtain rfl | ⟨e, rfl, hfile, hbest⟩ := h
  · exact .inl rfl
  · by_cases hlt : pathLt entry.2 e.2 = true
    · -- The entry is better than the file, so it is better than the best without it.
      have hwith : SolidityAtlas.shorterPath (some e) entry = some entry := if_pos hlt
      refine .inl (hwith.trans ?_)
      cases best with
      | none => rfl
      | some b => exact (if_pos (pathLt_of_lt_of_not_lt hlt (hbest b rfl))).symm
    · refine .inr ⟨e, if_neg hlt, hfile, fun b hb => ?_⟩
      cases best with
      | none => cases hb; exact hlt
      | some best =>
          rw [SolidityAtlas.shorterPath] at hb
          split at hb
          · cases hb; exact hlt
          · exact hbest b hb

/-- With an entry of `file` that only one row has, their best ones still differ by `file` at
most. -/
theorem BestWith.shorterPath_left {best best' : Option (FileId × String)} (h : BestWith file best' best)
    {entry : FileId × String} (hentry : entry.1 = file) :
    BestWith file (SolidityAtlas.shorterPath best' entry) best := by
  have hbetter : ∀ {b : FileId × String}, pathLt entry.2 b.2 = true → ∀ {c : FileId × String},
      ¬ pathLt c.2 b.2 = true → ¬ pathLt c.2 entry.2 = true := fun hlt _ hnot =>
    not_pathLt_of_lt_of_not_lt hlt hnot
  obtain rfl | ⟨e, rfl, hfile, hbest⟩ := h
  · cases best' with
    | none => exact .inr ⟨entry, rfl, hentry, fun _ hb => nomatch hb⟩
    | some b =>
        rw [SolidityAtlas.shorterPath]
        split
        · rename_i hlt
          refine .inr ⟨entry, rfl, hentry, fun c hc => hbetter hlt ?_⟩
          cases hc
          rw [pathLt_iff]
          exact lt_irrefl _
        · exact .inl rfl
  · rw [SolidityAtlas.shorterPath]
    split
    · rename_i hlt
      exact .inr ⟨entry, rfl, hentry, fun c hc => hbetter hlt (hbest c hc)⟩
    · exact .inr ⟨e, rfl, hfile, hbest⟩

/-- The best of a row with one more file. -/
theorem bestWith_foldl {keeps keeps' : FileId × String → Bool}
    (h : ∀ e, e.1 ≠ file → keeps' e = keeps e) (hnew : ∀ e, e.1 = file → keeps e = false)
    (row : List (FileId × String)) {best best' : Option (FileId × String)}
    (hbest : BestWith file best' best) :
    BestWith file ((row.filter keeps').foldl shorterPath best')
      ((row.filter keeps).foldl shorterPath best) := by
  induction row generalizing best best' with
  | nil => exact hbest
  | cons entry row ih =>
      by_cases hfile : entry.1 = file
      · rw [List.filter_cons_of_neg (Bool.eq_false_iff.1 (hnew entry hfile))]
        by_cases hkeeps : keeps' entry = true
        · rw [List.filter_cons_of_pos hkeeps]
          exact ih (hbest.shorterPath_left hfile)
        · rw [List.filter_cons_of_neg hkeeps]
          exact ih hbest
      · by_cases hkeeps : keeps entry = true
        · rw [List.filter_cons_of_pos hkeeps, List.filter_cons_of_pos (by rw [h entry hfile, hkeeps])]
          exact ih (hbest.shorterPath entry)
        · rw [List.filter_cons_of_neg hkeeps,
            List.filter_cons_of_neg (by rw [h entry hfile]; exact hkeeps)]
          exact ih hbest

/-- When one more file is live, an import means this file or what it meant before. -/
theorem resolveImport?_of_live (h : ∀ other, other ≠ file → live' other = live other)
    (hnew : live file = false) :
    resolveImport? files remappings importer path live' =
        resolveImport? files remappings importer path live ∨
      resolveImport? files remappings importer path live' = some file := by
  rw [resolveImport?_eq, resolveImport?_eq]
  generalize candidatePath remappings importer path = candidate
  have hfitting : BestWith file
      ((files.toList.filter fun entry => importMatches candidate entry.2 && live' entry.1).foldl
        shorterPath none)
      ((files.toList.filter fun entry => importMatches candidate entry.2 && live entry.1).foldl
        shorterPath none) := by
    refine bestWith_foldl (fun entry he => ?_) (fun entry he => ?_) _ (.inl rfl)
    · rw [h entry.1 he]
    · rw [he, hnew, Bool.and_false]
  have hor : ∀ {best best' : Option (FileId × String)}, BestWith file best' best →
      best'.map (·.1) = best.map (·.1) ∨ best'.map (·.1) = some file := by
    rintro best best' (rfl | ⟨e, rfl, rfl, -⟩)
    · exact .inl rfl
    · exact .inr rfl
  cases hexact : files.fileId? candidate with
  | none => exact hor hfitting
  | some other =>
      rw [Option.filter_some, Option.filter_some]
      by_cases hother : other = file
      · subst hother
        rw [hnew, if_neg Bool.false_ne_true]
        cases live' other with
        | true => exact .inr rfl
        | false => exact hor hfitting
      · rw [h other hother]
        cases live other with
        | true => exact .inl rfl
        | false => exact hor hfitting

end SolidityAtlas

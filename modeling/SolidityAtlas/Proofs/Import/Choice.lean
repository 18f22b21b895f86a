import Mathlib.Data.List.Induction
import Mathlib.Data.List.Nodup
import SolidityAtlas.Proofs.Import.Target
import SolidityAtlas.Proofs.Text.ByteOrder

/-!
# Which file an import means

What an import means is settled by two choices. The first one is among the remappings
that fit the import, and it gives the candidate (`CandidateFrom`). The second one is
among the live files that the candidate matches, and it gives the file (`Chosen`). Each
of them is a choice of the best, and what is best does not depend on the order of the
files: two sets of files in which the same paths are live give the same path
(`Chosen.path_eq`).

## Main Definitions

* `Remapping.Fits`, `Remapping.Decides`: the remappings for an import, and the one of them
  that decides
* `CandidateFrom`: how the candidate comes about
* `Chosen`: the file that is chosen for a candidate

## Main Results

* `candidateFrom_candidatePath`: the candidate comes from the remapping that decides
* `chosen_resolveImport?`: the file is the best of those that the candidate matches
* `import_is_one_choice`
-/

namespace SolidityAtlas

/-! ## The remapping that decides -/

namespace Remapping

variable {rs : List Remapping} {importer path : String} {r s : Remapping}

/-- The path of the importer begins with the context, if there is one, and the import path begins
with the front. -/
def Fits (r : Remapping) (importer path : String) : Prop :=
  (∀ context, r.context = some context → context.toList <+: importer.toList) ∧
    r.front.toList <+: path.toList

/-- The front is longer, or it is as long and the other remapping has no context while this one
has. -/
def Outranks (r s : Remapping) : Prop :=
  s.front.utf8ByteSize < r.front.utf8ByteSize ∨
    s.front.utf8ByteSize = r.front.utf8ByteSize ∧ r.context ≠ none ∧ s.context = none

/-- The remapping fits, nothing that fits outranks it, and it outranks what fits and stands behind
it in the list. -/
def Decides (rs : List Remapping) (importer path : String) (r : Remapping) : Prop :=
  r.Fits importer path ∧ ∃ before after, rs = before ++ r :: after ∧
    (∀ s ∈ before, s.Fits importer path → ¬ s.Outranks r) ∧
    ∀ s ∈ after, s.Fits importer path → r.Outranks s

/-- A remapping applies to the importers whose path starts with its context, or to all. -/
theorem appliesTo_iff :
    r.appliesTo importer = true ↔
      ∀ context, r.context = some context → context.toList <+: importer.toList := by
  rw [appliesTo, Option.all_eq_true]
  exact forall₂_congr fun context _ => List.isPrefixOf_iff_prefix

/-- A path is replaced by the target with what follows the front. -/
theorem replace?_eq_some_iff {replaced : String} :
    r.replace? path = some replaced ↔
      ∃ rest, path.toList = r.front.toList ++ rest ∧ replaced = r.target ++ String.ofList rest := by
  rw [replace?, Option.map_eq_some_iff]
  refine exists_congr fun rest => and_congr ?_ eq_comm
  exact dropFront?_eq_some_iff

/-- A remapping rewrites the paths that start with its front. -/
theorem isSome_replace?_iff : (r.replace? path).isSome = true ↔ r.front.toList <+: path.toList := by
  rw [Option.isSome_iff_exists]
  constructor
  · rintro ⟨replaced, h⟩
    obtain ⟨rest, hpath, -⟩ := replace?_eq_some_iff.1 h
    exact ⟨rest, hpath.symm⟩
  · rintro ⟨rest, hpath⟩
    exact ⟨_, replace?_eq_some_iff.2 ⟨rest, hpath.symm, rfl⟩⟩

/-- A remapping fits if it applies to the importer and rewrites the path. -/
theorem fits_iff :
    r.Fits importer path ↔ (r.appliesTo importer && (r.replace? path).isSome) = true := by
  rw [Bool.and_eq_true, appliesTo_iff, isSome_replace?_iff, Fits]

/-- A remapping comes before another one if it ranks lower. -/
theorem outranks_iff : r.Outranks s ↔ toLex s.rank < toLex r.rank := by
  rw [Prod.Lex.toLex_lt_toLex, rank, rank, Outranks, Bool.lt_iff, Option.isSome_eq_false_iff,
    Option.isNone_iff_eq_none, Option.isSome_iff_ne_none, and_comm (a := s.context = none)]

/-- Not being outranked is ranking at least as high. -/
theorem rankLe_rank_iff : rankLe s.rank r.rank = true ↔ ¬ s.Outranks r := by
  rw [outranks_iff, not_lt, Prod.Lex.toLex_le_toLex, rankLe, Bool.or_eq_true, decide_eq_true_eq,
    Bool.and_eq_true, beq_iff_eq, Bool.le_iff_imp, Bool.or_eq_true, Bool.not_eq_true',
    ← Bool.not_eq_true, ← imp_iff_not_or]

/-- What a list with one more remapping is decided by. -/
theorem bestRemapping?_append :
    bestRemapping? (rs ++ [r]) importer path =
      if r.appliesTo importer && (r.replace? path).isSome then
        betterRemapping (bestRemapping? rs importer path) r
      else bestRemapping? rs importer path := by
  rw [bestRemapping?, List.filter_append, List.foldl_append, List.filter_cons, List.filter_nil]
  split
  · rfl
  · rfl

/-- One more remapping that fits decides unless the old one outranks it. -/
theorem Decides.better (h : Decides rs importer path r) (hs : s.Fits importer path) :
    Decides (rs ++ [s]) importer path (if rankLe r.rank s.rank then s else r) := by
  obtain ⟨hr, before, after, rfl, hbefore, hafter⟩ := h
  split
  · rename_i hle
    rw [rankLe_rank_iff, outranks_iff, not_lt] at hle
    refine ⟨hs, before ++ r :: after, [], rfl, fun t ht htfits => ?_,
      fun _ hmem => absurd hmem List.not_mem_nil⟩
    rw [outranks_iff, not_lt]
    rcases List.mem_append.1 ht with ht | ht
    · have hnot := hbefore t ht htfits
      rw [outranks_iff, not_lt] at hnot
      exact hnot.trans hle
    · rcases List.mem_cons.1 ht with rfl | ht
      · exact hle
      · exact (outranks_iff.1 (hafter t ht htfits)).le.trans hle
  · rename_i hlt
    rw [rankLe_rank_iff, not_not] at hlt
    refine ⟨hr, before, after ++ [s], by rw [List.append_assoc, List.cons_append], hbefore,
      fun t ht htfits => ?_⟩
    rcases List.mem_append.1 ht with ht | ht
    · exact hafter t ht htfits
    · rw [List.mem_singleton.1 ht]
      exact hlt

/-- The best remapping is the one that decides, and there is one as soon as one fits. -/
theorem decides_bestRemapping? (rs : List Remapping) (importer path : String) :
    (∃ r, bestRemapping? rs importer path = some r ∧ Decides rs importer path r) ∨
      (bestRemapping? rs importer path = none ∧ ∀ r ∈ rs, ¬ r.Fits importer path) := by
  induction rs using List.reverseRecOn with
  | nil => exact .inr ⟨rfl, fun _ hmem => absurd hmem List.not_mem_nil⟩
  | append_singleton rs s ih =>
      rw [bestRemapping?_append]
      by_cases hs : s.Fits importer path
      · rw [if_pos (fits_iff.1 hs)]
        rcases ih with ⟨r, hbest, hr⟩ | ⟨hbest, hnone⟩
        · refine .inl ⟨_, ?_, hr.better hs⟩
          rw [hbest, betterRemapping]
          split <;> rfl
        · refine .inl ⟨s, by rw [hbest]; rfl, hs, rs, [], rfl, fun t ht htfits => ?_,
            fun _ hmem => absurd hmem List.not_mem_nil⟩
          exact absurd htfits (hnone t ht)
      · rw [if_neg (mt fits_iff.2 hs)]
        rcases ih with ⟨r, hbest, hr, before, after, rfl, hbefore, hafter⟩ | ⟨hbest, hnone⟩
        · refine .inl ⟨r, hbest, hr, before, after ++ [s], ?_, hbefore, fun t ht htfits => ?_⟩
          · rw [List.append_assoc, List.cons_append]
          · rcases List.mem_append.1 ht with ht | ht
            · exact hafter t ht htfits
            · exact absurd (List.mem_singleton.1 ht ▸ htfits) hs
        · refine .inr ⟨hbest, fun t ht => ?_⟩
          rcases List.mem_append.1 ht with ht | ht
          · exact hnone t ht
          · exact List.mem_singleton.1 ht ▸ hs

/-- At most one remapping decides. -/
theorem Decides.unique (h : Decides rs importer path r) (h' : Decides rs importer path s) : r = s := by
  obtain ⟨hr, before, after, rfl, hbefore, hafter⟩ := h
  obtain ⟨hs, before', after', heq, hbefore', hafter'⟩ := h'
  -- Of two that decide, one stands behind the other, and then the first one outranks it and does not.
  rcases List.append_eq_append_iff.1 heq with ⟨between, rfl, hrest⟩ | ⟨between, rfl, hrest⟩
  · cases between with
    | nil => exact (List.cons.inj hrest).1
    | cons t between =>
        obtain ⟨rfl, rfl⟩ := List.cons.inj hrest
        exact absurd (hafter s (List.mem_append_right _ List.mem_cons_self) hs)
          (hbefore' r (List.mem_append_right _ List.mem_cons_self) hr)
  · cases between with
    | nil => exact (List.cons.inj hrest).1.symm
    | cons t between =>
        obtain ⟨rfl, rfl⟩ := List.cons.inj hrest
        exact absurd (hafter' r (List.mem_append_right _ List.mem_cons_self) hr)
          (hbefore s (List.mem_append_right _ List.mem_cons_self) hs)

end Remapping

/-! ## The candidate -/

/-- A path as it is seen from the directory of an importer. -/
def seenFrom (importer path : String) : String :=
  if Path.parent importer = "" then path else Path.parent importer ++ "/" ++ path

/-- A remapping decides, or the import is seen from the directory if it is relative. -/
theorem candidatePath_eq (rs : List Remapping) (importer path : String) :
    candidatePath rs importer path =
      ((bestRemapping? rs importer path).bind (·.replace? path)).elim
        (Path.normalize (if isRelative path then seenFrom importer path else path))
        Path.normalize := by
  rw [candidatePath]
  cases (bestRemapping? rs importer path).bind (·.replace? path) with
  | some remapped => rfl
  | none =>
      simp only [Option.elim_none, seenFrom, Bool.and_eq_true, bne_iff_ne]
      by_cases hrelative : isRelative path = true
      · by_cases hparent : Path.parent importer = ""
        · rw [if_neg (fun h => h.2 hparent), if_pos hrelative, if_pos hparent]
        · rw [if_pos ⟨hrelative, hparent⟩, if_pos hrelative, if_neg hparent]
      · rw [if_neg (fun h => hrelative h.1), if_neg hrelative]

/-- How a candidate comes about: from the remapping that decides, or, if no remapping fits, from
the importer's directory or from the import path alone. -/
structure CandidateFrom (rs : List Remapping) (importer path candidate : String) : Prop where
  /-- One remapping decides as soon as one fits, and its target replaces its front. -/
  remapped : (∃ r ∈ rs, r.Fits importer path) → ∃ r, Remapping.Decides rs importer path r ∧
    (∀ s, Remapping.Decides rs importer path s → s = r) ∧
    ∃ rest, path.toList = r.front.toList ++ rest ∧
      candidate = Path.normalize (r.target ++ String.ofList rest)
  /-- Without a remapping, relative paths are seen from the importer's directory. -/
  relative : (∀ r ∈ rs, ¬ r.Fits importer path) → isRelative path = true →
    candidate = Path.normalize (seenFrom importer path)
  /-- Without a remapping, other paths are taken as they are. -/
  asWritten : (∀ r ∈ rs, ¬ r.Fits importer path) → isRelative path = false →
    candidate = Path.normalize path
  normal : Path.normalize candidate = candidate

/-- The candidate is made in one of the four ways. -/
theorem candidateFrom_candidatePath (rs : List Remapping) (importer path : String) :
    CandidateFrom rs importer path (candidatePath rs importer path) := by
  have hnormal := normalize_candidatePath rs importer path
  rcases Remapping.decides_bestRemapping? rs importer path with ⟨r, hbest, hr⟩ | ⟨hbest, hnone⟩
  · obtain ⟨rest, hpath⟩ := hr.1.2
    have hreplace := Remapping.replace?_eq_some_iff.2 ⟨rest, hpath.symm, rfl⟩
    have hsome : ¬ ∀ s ∈ rs, ¬ s.Fits importer path := by
      obtain ⟨hfits, before, after, rfl, -, -⟩ := hr
      exact fun hnone => hnone r (List.mem_append_right _ List.mem_cons_self) hfits
    refine ⟨fun _ => ⟨r, hr, fun s hs => hs.unique hr, rest, hpath.symm, ?_⟩,
      fun hnone => absurd hnone hsome, fun hnone => absurd hnone hsome, hnormal⟩
    rw [candidatePath_eq, hbest, Option.bind_some, hreplace, Option.elim_some]
  · have hunmapped : candidatePath rs importer path =
        Path.normalize (if isRelative path then seenFrom importer path else path) := by
      rw [candidatePath_eq, hbest]
      rfl
    refine ⟨?_, fun _ hrelative => ?_, fun _ hrelative => ?_, hnormal⟩
    · rintro ⟨r, hmem, hfits⟩
      exact absurd hfits (hnone r hmem)
    · rw [hunmapped, if_pos hrelative]
    · rw [hunmapped, if_neg (Bool.eq_false_iff.1 hrelative)]

/-! ## The file that is chosen -/

/-- One path is shorter than another, or it is as long and its bytes come earlier. -/
def Closer (p q : String) : Prop :=
  p.utf8ByteSize < q.utf8ByteSize ∨ p.utf8ByteSize = q.utf8ByteSize ∧ textBytes p < textBytes q

/-- No two paths come before each other. -/
theorem not_closer_of_closer {p q : String} (h : Closer p q) : ¬ Closer q p := by
  rintro (hlt | ⟨heq, hlt⟩)
  · rcases h with hlt' | ⟨heq, -⟩
    · exact Nat.lt_asymm hlt hlt'
    · exact Nat.ne_of_lt hlt heq.symm
  · rcases h with hlt' | ⟨-, hlt'⟩
    · exact Nat.ne_of_lt hlt' heq.symm
    · exact List.lt_asymm hlt hlt'

/-- Of two paths one comes first. -/
theorem closer_of_ne_of_not_pathLt {p q : String} (hne : p ≠ q) (h : ¬ pathLt q p = true) :
    Closer p q := by
  rw [pathLt_iff, not_lt] at h
  have hlt : toLex (p.utf8ByteSize, p) < toLex (q.utf8ByteSize, q) :=
    lt_of_le_of_ne h fun heq => hne (Prod.mk.inj (toLex.injective heq)).2
  rcases Prod.Lex.toLex_lt_toLex.1 hlt with hsize | ⟨hsize, hlt⟩
  · exact .inl hsize
  · exact .inr ⟨hsize, textBytes_lt hlt⟩

section Choice

variable (files : PathTable) (live : FileId → Bool) (candidate : String)

/-- The file is live, it has this path, and the candidate matches it. -/
def Offered (file : FileId) (path : String) : Prop :=
  files.path? file = some path ∧ live file = true ∧ importMatches candidate path = true

/-- What is chosen for a candidate among the live files: the file that has the candidate as its
path, else the closest one of those that the candidate matches. -/
structure Chosen (chosen : Option FileId) : Prop where
  none_iff : chosen = none ↔ ∀ file path, ¬ Offered files live candidate file path
  exact_some : ∀ file, files.path? file = some candidate → live file = true → chosen = some file
  offered : ∀ file, chosen = some file → ∃ path, Offered files live candidate file path ∧
    (path ≠ candidate → ∀ other q, Offered files live candidate other q → q ≠ path → Closer path q)

/-- The path is one of a live file. -/
def IsLivePath (path : String) : Prop :=
  ∃ file, files.path? file = some path ∧ live file = true

end Choice

section Chosen

variable {files files' : PathTable} {live live' : FileId → Bool} {candidate : String}

/-- The best of some entries is one of them, and no other entry is better. -/
theorem foldl_shorterPath (row : List (FileId × String)) :
    (row.foldl shorterPath none = none ∧ row = []) ∨
      ∃ entry ∈ row, row.foldl shorterPath none = some entry ∧
        ∀ other ∈ row, ¬ pathLt other.2 entry.2 = true := by
  induction row using List.reverseRecOn with
  | nil => exact .inl ⟨rfl, rfl⟩
  | append_singleton row last ih =>
      rw [List.foldl_append, List.foldl_cons, List.foldl_nil]
      refine .inr ?_
      rcases ih with ⟨hbest, rfl⟩ | ⟨entry, hmem, hbest, hleast⟩
      · refine ⟨last, List.mem_append_right _ (List.mem_singleton_self _), rfl,
          fun other hother => ?_⟩
        rw [List.nil_append, List.mem_singleton] at hother
        rw [hother, pathLt_iff]
        exact lt_irrefl _
      · rw [hbest, shorterPath]
        split
        · rename_i hlt
          refine ⟨last, List.mem_append_right _ (List.mem_singleton_self _), rfl,
            fun other hother => ?_⟩
          rcases List.mem_append.1 hother with hother | hother
          · exact not_pathLt_of_lt_of_not_lt hlt (hleast other hother)
          · rw [List.mem_singleton.1 hother, pathLt_iff]
            exact lt_irrefl _
        · rename_i hnot
          refine ⟨entry, List.mem_append_left _ hmem, rfl, fun other hother => ?_⟩
          rcases List.mem_append.1 hother with hother | hother
          · exact hleast other hother
          · rw [List.mem_singleton.1 hother]
            exact hnot

/-- The file that an import means is the best of the live files that its candidate matches. -/
theorem chosen_resolveImport? (h : files.paths.Nodup) (rs : List Remapping) (importer path : String) :
    Chosen files live (candidatePath rs importer path)
      (resolveImport? files rs importer path live) := by
  have hnormal := normalize_candidatePath rs importer path
  rw [resolveImport?_eq]
  generalize candidatePath rs importer path = candidate at hnormal ⊢
  have hmem : ∀ file p, (file, p) ∈ (files.toList.filter fun entry =>
      importMatches candidate entry.2 && live entry.1) ↔ Offered files live candidate file p := by
    intro file p
    rw [List.mem_filter, PathTable.mem_toList_iff, Bool.and_eq_true, Offered,
      and_comm (a := live file = true)]
  by_cases hexact : ∃ file, files.path? file = some candidate ∧ live file = true
  · obtain ⟨file, hfile, hlive⟩ := hexact
    have hoffered : Offered files live candidate file candidate :=
      ⟨hfile, hlive, importMatches_self _⟩
    rw [PathTable.fileId?_of_path? h hfile hnormal, Option.filter_some, hlive, if_pos rfl,
      Option.some_or]
    refine ⟨⟨fun hnone => absurd hnone (Option.some_ne_none _),
        fun hnone => absurd hoffered (hnone _ _)⟩,
      fun other hother _ => by rw [PathTable.eq_of_path? h hfile hother], fun other hother => ?_⟩
    cases hother
    exact ⟨candidate, hoffered, fun hne => absurd rfl hne⟩
  · have hfile : (files.fileId? candidate).filter live = none := by
      rw [Option.filter_eq_none_iff]
      intro file hfile hlive
      refine hexact ⟨file, ?_, hlive⟩
      rw [PathTable.path?_of_fileId? hfile, hnormal]
    rw [hfile, Option.none_or]
    have hnoexact : ∀ (chosen : Option FileId) file, files.path? file = some candidate →
        live file = true → chosen = some file :=
      fun _ file hfile hlive => absurd ⟨file, hfile, hlive⟩ hexact
    rcases foldl_shorterPath (files.toList.filter fun entry =>
        importMatches candidate entry.2 && live entry.1) with
      ⟨hbest, hrow⟩ | ⟨⟨file, p⟩, hfile, hbest, hleast⟩
    · rw [hbest]
      refine ⟨⟨fun _ file p hoffered => ?_, fun _ => rfl⟩, hnoexact _,
        fun file hchosen => nomatch hchosen⟩
      have hrow' := (hmem file p).2 hoffered
      rw [hrow] at hrow'
      exact absurd hrow' List.not_mem_nil
    · rw [hbest]
      refine ⟨⟨fun hnone => absurd hnone (Option.some_ne_none _),
          fun hnone => absurd ((hmem file p).1 hfile) (hnone _ _)⟩,
        hnoexact _, fun other hchosen => ?_⟩
      cases hchosen
      refine ⟨p, (hmem file p).1 hfile, fun _ other q hother hne => ?_⟩
      exact closer_of_ne_of_not_pathLt hne.symm (hleast (other, q) ((hmem other q).2 hother))

/-- What is offered depends on the paths that are live. -/
theorem Offered.of_isLivePath {file : FileId} {path : String}
    (h : ∀ p, IsLivePath files live p ↔ IsLivePath files' live' p)
    (hoffered : Offered files live candidate file path) :
    ∃ file', Offered files' live' candidate file' path := by
  obtain ⟨hpath, hlive, hmatches⟩ := hoffered
  obtain ⟨file', hpath', hlive'⟩ := (h path).1 ⟨file, hpath, hlive⟩
  exact ⟨file', hpath', hlive', hmatches⟩

/-- When the same paths are live, what is chosen has the same path. -/
theorem Chosen.path_eq {chosen chosen' : Option FileId} (hc : Chosen files live candidate chosen)
    (hc' : Chosen files' live' candidate chosen')
    (h : ∀ p, IsLivePath files live p ↔ IsLivePath files' live' p) :
    chosen.bind files.path? = chosen'.bind files'.path? := by
  have hsymm := fun p => (h p).symm
  cases hfile : chosen with
  | none =>
      cases hfile' : chosen' with
      | none => rfl
      | some file' =>
          obtain ⟨p', hoffered', -⟩ := hc'.offered file' hfile'
          obtain ⟨file, hoffered⟩ := hoffered'.of_isLivePath hsymm
          exact absurd hoffered (hc.none_iff.1 hfile _ _)
  | some file =>
      obtain ⟨p, hoffered, hleast⟩ := hc.offered file hfile
      obtain ⟨other', hother'⟩ := hoffered.of_isLivePath h
      cases hfile' : chosen' with
      | none => exact absurd hother' (hc'.none_iff.1 hfile' _ _)
      | some file' =>
          obtain ⟨p', hoffered', hleast'⟩ := hc'.offered file' hfile'
          obtain ⟨other, hother⟩ := hoffered'.of_isLivePath hsymm
          rw [Option.bind_some, Option.bind_some, hoffered.1, hoffered'.1]
          refine congrArg some (Classical.by_contradiction fun hne => ?_)
          -- Neither path is the candidate, since that would have been chosen on both sides.
          have hp : p ≠ candidate := by
            rintro rfl
            have heq := hfile'.symm.trans (hc'.exact_some other' hother'.1 hother'.2.1)
            cases heq
            exact hne (Option.some.inj (hother'.1.symm.trans hoffered'.1))
          have hp' : p' ≠ candidate := by
            rintro rfl
            have heq := hfile.symm.trans (hc.exact_some other hother.1 hother.2.1)
            cases heq
            exact hne (Option.some.inj (hoffered.1.symm.trans hother.1))
          exact not_closer_of_closer (hleast hp other p' hother (Ne.symm hne))
            (hleast' hp' other' p hother' hne)

end Chosen

/-- An import path is resolved by one choice among the remappings and one among the live files.
The path that is chosen depends on the paths that are live alone, and not on the order in which
files were mentioned or on other files that are known. -/
theorem import_is_one_choice (rs : List Remapping) (importer path : String) :
    CandidateFrom rs importer path (candidatePath rs importer path) ∧
      (∀ (written : List String) (live : FileId → Bool),
        Chosen (PathTable.ofPaths written) live (candidatePath rs importer path)
          (resolveImport? (PathTable.ofPaths written) rs importer path live)) ∧
      ∀ (written written' : List String) (live live' : FileId → Bool),
        (∀ p, IsLivePath (PathTable.ofPaths written) live p ↔
          IsLivePath (PathTable.ofPaths written') live' p) →
        (resolveImport? (PathTable.ofPaths written) rs importer path live).bind
            (PathTable.ofPaths written).path? =
          (resolveImport? (PathTable.ofPaths written') rs importer path live').bind
            (PathTable.ofPaths written').path? := by
  have hchosen : ∀ (written : List String) (live : FileId → Bool),
      Chosen (PathTable.ofPaths written) live (candidatePath rs importer path)
        (resolveImport? (PathTable.ofPaths written) rs importer path live) := fun written live =>
    chosen_resolveImport? (PathTable.nodup_ofPaths written) rs importer path
  exact ⟨candidateFrom_candidatePath rs importer path, hchosen,
    fun written written' live live' => (hchosen written live).path_eq (hchosen written' live')⟩

end SolidityAtlas

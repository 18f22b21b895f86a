import Mathlib.Logic.Relation
import SolidityAtlas.Proofs.Workspace.Agreement
import SolidityAtlas.Workspace.Importers

/-!
# The importers of a file

The importers of a file are looked for level by level, and each level is taken out of
the files that are still to be looked at. No importer is lost by that: when a file is
found, all files that import it are found too, in the next level at the latest
(`mem_importersAmong`). So the importers are exactly the other files from which the
file is reached over imports (`mem_importersOf_iff`), each of them once.

## Main Definitions

* `Snapshot.Reaches`: a file is reached from another one over imports

## Main Results

* `Snapshot.mem_importersOf_iff`, `Snapshot.nodup_importersOf`
-/

namespace SolidityAtlas

/-- A row without its repetitions has none. -/
theorem nodup_eraseDups {α : Type} [BEq α] [LawfulBEq α] : (row : List α) → row.eraseDups.Nodup
  | [] => List.nodup_nil
  | a :: row => by
      have hshorter : (row.filter fun b => ! b == a).length < row.length + 1 :=
        Nat.lt_succ_of_le (List.length_filter_le _ _)
      rw [List.eraseDups_cons]
      refine List.nodup_cons.2 ⟨fun hmem => ?_, nodup_eraseDups _⟩
      rw [List.mem_eraseDups, List.mem_filter] at hmem
      simp at hmem
termination_by row => row.length

namespace Snapshot

variable {s : Snapshot}

/-- A file is reached from another one by following imports, one or more times. -/
def Reaches (s : Snapshot) : FileId → FileId → Prop :=
  Relation.TransGen fun source target => target ∈ s.importedFiles source

/-- A next layer are the files left that import one of the layer. -/
theorem mem_nextImporters {fresh targets : List FileId} {file : FileId} :
    file ∈ s.nextImporters fresh targets ↔
      file ∈ fresh ∧ ∃ target ∈ targets, target ∈ s.importedFiles file := by
  simp only [nextImporters, List.mem_eraseDups, List.mem_flatMap, List.mem_filter,
    List.contains_iff_mem]
  constructor
  · rintro ⟨target, htarget, hfresh, himport⟩
    exact ⟨hfresh, target, htarget, himport⟩
  · rintro ⟨hfresh, target, htarget, himport⟩
    exact ⟨target, htarget, hfresh, himport⟩

/-- Unlisted is what is left and not listed. -/
theorem mem_unlisted {listed fresh : List FileId} {file : FileId} :
    file ∈ unlisted listed fresh ↔ file ∈ fresh ∧ file ∉ listed := by
  simp [unlisted]

/-- Importers are searched for among the files that are left. -/
theorem mem_fresh_of_mem_importersAmong {fresh targets : List FileId} {file : FileId}
    (h : file ∈ s.importersAmong fresh targets) : file ∈ fresh := by
  fun_induction importersAmong s fresh targets with
  | case1 => cases h
  | case2 fresh targets next _ ih =>
      rcases List.mem_append.1 h with h | h
      · exact (mem_nextImporters.1 h).1
      · exact (mem_unlisted.1 (ih h)).1

/-- No importer is found twice. -/
theorem nodup_importersAmong (fresh targets : List FileId) :
    (s.importersAmong fresh targets).Nodup := by
  fun_induction importersAmong s fresh targets with
  | case1 => exact List.nodup_nil
  | case2 fresh targets next _ ih =>
      refine List.nodup_append.2 ⟨nodup_eraseDups _, ih, ?_⟩
      rintro a ha b hb rfl
      exact (mem_unlisted.1 (mem_fresh_of_mem_importersAmong hb)).2 ha

/-- Whatever is found reaches one of the targets. -/
theorem exists_reaches_of_mem_importersAmong {fresh targets : List FileId} {file : FileId}
    (h : file ∈ s.importersAmong fresh targets) : ∃ target ∈ targets, s.Reaches file target := by
  fun_induction importersAmong s fresh targets with
  | case1 => cases h
  | case2 fresh targets next _ ih =>
      rcases List.mem_append.1 h with h | h
      · obtain ⟨-, target, htarget, himport⟩ := mem_nextImporters.1 h
        exact ⟨target, htarget, .single himport⟩
      · obtain ⟨between, hbetween, hreach⟩ := ih h
        obtain ⟨-, target, htarget, himport⟩ := mem_nextImporters.1 hbetween
        exact ⟨target, htarget, hreach.tail himport⟩

/-- A file that imports a target, or something that is found, is found itself. -/
theorem mem_importersAmong {fresh targets : List FileId} {file other : FileId}
    (hfresh : file ∈ fresh) (himport : other ∈ s.importedFiles file)
    (hother : other ∈ targets ∨ other ∈ s.importersAmong fresh targets) :
    file ∈ s.importersAmong fresh targets := by
  fun_induction importersAmong s fresh targets with
  | case1 fresh targets next hnil =>
      have htarget := hother.resolve_right List.not_mem_nil
      have hnext : file ∈ s.nextImporters fresh targets :=
        mem_nextImporters.2 ⟨hfresh, other, htarget, himport⟩
      exact hnil ▸ hnext
  | case2 fresh targets next _ ih =>
      by_cases hnext : file ∈ s.nextImporters fresh targets
      · exact List.mem_append_left _ hnext
      · refine List.mem_append_right _ (ih (mem_unlisted.2 ⟨hfresh, hnext⟩) ?_)
        rcases hother with htarget | hfound
        · exact absurd (mem_nextImporters.2 ⟨hfresh, other, htarget, himport⟩) hnext
        · exact List.mem_append.1 hfound

/-- Only files with edges import. -/
theorem mem_keys_of_mem_importedFiles {file other : FileId} (h : other ∈ s.importedFiles file) :
    file ∈ s.edges.keys := by
  rw [FileMap.mem_keys_iff]
  rw [importedFiles] at h
  cases hedges : s.edges.get? file with
  | none =>
      rw [hedges] at h
      cases h
  | some _ => rfl

/-- The importers of a file are the other files from which it is reached. -/
theorem mem_importersOf_iff {file source : FileId} :
    source ∈ s.importersOf file ↔ source ≠ file ∧ s.Reaches source file := by
  constructor
  · intro h
    have hfresh := (List.mem_filter.1 (mem_fresh_of_mem_importersAmong h)).2
    obtain ⟨target, htarget, hreach⟩ := exists_reaches_of_mem_importersAmong h
    rw [List.mem_singleton.1 htarget] at hreach
    exact ⟨bne_iff_ne.1 hfresh, hreach⟩
  · rintro ⟨hne, hreach⟩
    have hfresh : ∀ {source other : FileId}, source ≠ file → other ∈ s.importedFiles source →
        source ∈ s.edges.keys.filter (· != file) := fun hne himport =>
      List.mem_filter.2 ⟨mem_keys_of_mem_importedFiles himport, bne_iff_ne.2 hne⟩
    induction hreach using Relation.TransGen.head_induction_on with
    | single himport =>
        exact mem_importersAmong (hfresh hne himport) himport (.inl List.mem_cons_self)
    | @head source other himport _ ih =>
        refine mem_importersAmong (hfresh hne himport) himport ?_
        by_cases hother : other = file
        · exact .inl (List.mem_singleton.2 hother)
        · exact .inr (ih hother)

/-- No file is listed twice among the importers. -/
theorem nodup_importersOf (file : FileId) : (s.importersOf file).Nodup :=
  nodup_importersAmong _ _

end Snapshot

end SolidityAtlas

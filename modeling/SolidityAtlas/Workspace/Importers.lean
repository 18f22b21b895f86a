import SolidityAtlas.Workspace.Snapshot

/-!
# Importers

The files that import a file, directly or over others. They are found level by
level: first the direct importers, then the importers of these, and so on. Each
file is listed once, at the least number of steps.

## Main Definitions

* `Snapshot.importersOf`: the importers of a file, nearest first
-/

namespace SolidityAtlas.Snapshot

variable (s : Snapshot)

/-- Those of the files `fresh` that import one of the files `targets`, in the order of the
targets. -/
def nextImporters (fresh targets : List FileId) : List FileId :=
  (targets.flatMap fun target =>
    fresh.filter fun source => (s.importedFiles source).contains target).eraseDups

/-- A next layer consists of files that have not been reached before. -/
theorem mem_fresh_of_mem_nextImporters {fresh targets : List FileId} {file : FileId}
    (h : file ∈ s.nextImporters fresh targets) : file ∈ fresh := by
  simp only [nextImporters, List.mem_eraseDups, List.mem_flatMap, List.mem_filter] at h
  exact h.choose_spec.2.1

/-- The files that are not listed. -/
def unlisted (listed fresh : List FileId) : List FileId :=
  fresh.filter fun file => ! listed.contains file

/-- Files that are listed are no longer fresh. -/
theorem length_unlisted_lt {fresh listed : List FileId}
    (hne : listed ≠ []) (hsub : ∀ file ∈ listed, file ∈ fresh) :
    (unlisted listed fresh).length < fresh.length := by
  obtain ⟨file, files, rfl⟩ := List.exists_cons_of_ne_nil hne
  refine List.length_filter_lt_length_iff_exists.2 ⟨file, hsub file List.mem_cons_self, ?_⟩
  simp

/-- The files among `fresh` that reach one of the files `targets` over imports, level by level. -/
def importersAmong (s : Snapshot) (fresh targets : List FileId) : List FileId :=
  let next := s.nextImporters fresh targets
  if _h : next = [] then []
  else next ++ s.importersAmong (unlisted next fresh) next
termination_by fresh.length
decreasing_by exact length_unlisted_lt _h fun _ => s.mem_fresh_of_mem_nextImporters

/-- The other files that import a file, directly or over others, nearest first. -/
def importersOf (file : FileId) : List FileId :=
  s.importersAmong (s.edges.keys.filter (· != file)) [file]

end SolidityAtlas.Snapshot

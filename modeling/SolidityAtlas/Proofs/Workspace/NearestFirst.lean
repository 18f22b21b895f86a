import Mathlib.Order.Lattice.Nat
import SolidityAtlas.Proofs.Workspace.ImportEdges

/-!
# The nearest importers first

The importers of a file are looked for level by level. Before each level there is a number
such that the targets are the files at just that distance from the file, and the files that
are still to be looked at are those that are farther away (`Snapshot.Level`). What is found
next is then at a distance greater by one, so what is found early is never farther away than
what is found late.

That holds of any table of imports, also if files import each other in circles or import
themselves. That the files in the table are installed holds of the snapshots that come about
by the changes that a workspace makes (`Snapshot.built`).

## Main Definitions

* `Snapshot.ReachesIn`, `Snapshot.distance`: how far a file is from one that it reaches
* `Snapshot.Level`: where the search is between two levels
* `Snapshot.Change`, `Snapshot.built`: the snapshots that can come about

## Main Results

* `Snapshot.pairwise_importersOf`: nearest first
* `Session.exists_built_callAll`: what calls lead to comes about by changes
* `Snapshot.importersOf_built`
-/

namespace SolidityAtlas

namespace Snapshot

/-! ## Distances -/

section Distance

variable {s : Snapshot} {source target file : FileId}

/-- A file is reached from another one by following just so many imports. -/
def ReachesIn (s : Snapshot) : Nat → FileId → FileId → Prop
  | 0, source, target => source = target
  | n + 1, source, target => ∃ next ∈ s.importedFiles source, s.ReachesIn n next target

/-- The length of the shortest way from a file to one that it reaches. -/
noncomputable def distance (s : Snapshot) (source target : FileId) : Nat :=
  sInf {n | s.ReachesIn n source target}

/-- What is reached is reached in some number of steps. -/
theorem Reaches.exists_reachesIn (h : s.Reaches source target) : ∃ n, s.ReachesIn n source target := by
  induction h using Relation.TransGen.head_induction_on with
  | single himport => exact ⟨1, _, himport, rfl⟩
  | head himport _ ih =>
      obtain ⟨n, hn⟩ := ih
      exact ⟨n + 1, _, himport, hn⟩

/-- What is reached is reached in as many steps as the distance says. -/
theorem Reaches.reachesIn_distance (h : s.Reaches source target) :
    s.ReachesIn (s.distance source target) source target :=
  Nat.sInf_mem h.exists_reachesIn

/-- The distance is not more than any number of steps. -/
theorem distance_le {n : Nat} (h : s.ReachesIn n source target) : s.distance source target ≤ n :=
  Nat.sInf_le h

end Distance

/-! ## The search level by level -/

section Search

variable {s : Snapshot} {source file : FileId} {n : Nat} {fresh targets : List FileId}

/-- So many imports lead from a file to another one, and no fewer do. -/
def Apart (s : Snapshot) (n : Nat) (source file : FileId) : Prop :=
  s.ReachesIn n source file ∧ ∀ m < n, ¬ s.ReachesIn m source file

/-- The targets are the files at a certain distance, and the files that import something and are
farther away are still to be looked at. -/
structure Level (s : Snapshot) (file : FileId) (n : Nat) (fresh targets : List FileId) : Prop where
  targets : ∀ source, source ∈ targets ↔ s.Apart n source file
  fresh : ∀ source, source ∈ fresh ↔
    source ∈ s.edges.keys ∧ ∀ m ≤ n, ¬ s.ReachesIn m source file

/-- At distance zero stands the file itself. -/
theorem level_start (s : Snapshot) (file : FileId) :
    s.Level file 0 (s.edges.keys.filter (· != file)) [file] := by
  refine ⟨fun source => ?_, fun source => ?_⟩
  · rw [List.mem_singleton]
    exact ⟨fun heq => ⟨heq, fun m hm => absurd hm (Nat.not_lt_zero m)⟩, And.left⟩
  · rw [List.mem_filter, bne_iff_ne]
    refine and_congr_right fun _ => ⟨fun hne m hm => ?_, fun hfar => hfar 0 (Nat.le_refl 0)⟩
    rw [Nat.le_zero.1 hm]
    exact hne

namespace Level

variable (h : s.Level file n fresh targets)

include h

/-- What is found next is one import farther away. -/
theorem mem_nextImporters_iff : source ∈ s.nextImporters fresh targets ↔ s.Apart (n + 1) source file := by
  rw [mem_nextImporters, h.fresh]
  constructor
  · rintro ⟨⟨-, hfar⟩, target, htarget, himport⟩
    exact ⟨⟨target, himport, ((h.targets target).1 htarget).1⟩,
      fun m hm => hfar m (Nat.le_of_lt_succ hm)⟩
  · rintro ⟨⟨next, himport, hnext⟩, hfar⟩
    refine ⟨⟨mem_keys_of_mem_importedFiles himport, fun m hm => hfar m (Nat.lt_succ_of_le hm)⟩,
      next, (h.targets next).2 ⟨hnext, fun m hm hshort => ?_⟩, himport⟩
    -- A shorter way from the next file would make the way of the source shorter too.
    exact hfar (m + 1) (Nat.succ_lt_succ hm) ⟨next, himport, hshort⟩

/-- The next layer stands one step further away. -/
theorem next : s.Level file (n + 1) (unlisted (s.nextImporters fresh targets) fresh)
    (s.nextImporters fresh targets) := by
  refine ⟨fun source => h.mem_nextImporters_iff, fun source => ?_⟩
  rw [mem_unlisted, h.fresh, h.mem_nextImporters_iff]
  constructor
  · rintro ⟨⟨hkey, hfar⟩, hnot⟩
    refine ⟨hkey, fun m hm hreach => ?_⟩
    rcases Nat.le_or_eq_of_le_succ hm with hm | rfl
    · exact hfar m hm hreach
    · exact hnot ⟨hreach, fun m hm => hfar m (Nat.le_of_lt_succ hm)⟩
  · rintro ⟨hkey, hfar⟩
    exact ⟨⟨hkey, fun m hm => hfar m (Nat.le_succ_of_le hm)⟩,
      fun hapart => hfar (n + 1) (Nat.le_refl _) hapart.1⟩

omit h in
/-- No way from what is found late is shorter than all ways from what is found early. -/
theorem pairwise_importersAmong (n : Nat) (h : s.Level file n fresh targets) :
    (s.importersAmong fresh targets).Pairwise fun near far =>
      ∀ m, s.ReachesIn m far file → ∃ k ≤ m, s.ReachesIn k near file := by
  fun_induction importersAmong s fresh targets generalizing n with
  | case1 => exact .nil
  | case2 fresh targets next _ ih =>
      have hnext : ∀ {near}, near ∈ next → s.Apart (n + 1) near file := h.mem_nextImporters_iff.1
      refine List.pairwise_append.2 ⟨?_, ih _ h.next, fun near hnear far hfar m hm => ?_⟩
      · refine List.pairwise_of_forall_mem_list fun near hnear far hfar m hm => ?_
        exact ⟨n + 1, Nat.le_of_not_lt fun hlt => (hnext hfar).2 m hlt hm, (hnext hnear).1⟩
      · have hlate := (h.next.fresh far).1 (mem_fresh_of_mem_importersAmong hfar)
        exact ⟨n + 1, Nat.le_of_not_le fun hle => hlate.2 m hle hm, (hnext hnear).1⟩

end Level

/-- Of two importers of a file the one that is listed first is not farther away. -/
theorem pairwise_importersOf (s : Snapshot) (file : FileId) :
    (s.importersOf file).Pairwise fun near far => s.distance near file ≤ s.distance far file := by
  refine (Level.pairwise_importersAmong 0 (level_start s file)).imp_of_mem fun {near far} _ hfar h => ?_
  obtain ⟨m, hm, hreach⟩ := h _ (mem_importersOf_iff.1 hfar).2.reachesIn_distance
  exact Nat.le_trans (distance_le hreach) hm

end Search

/-! ## Snapshots that can come about -/

/-- What can be changed of a snapshot at once. -/
inductive Change where
  /-- The paths that are known. -/
  | know (files : PathTable)
  | install (t : SymbolTree)
  | uninstall (file : FileId)
  | modifyTree (file : FileId) (f : SymbolTree → SymbolTree)
  | addRemappings (remappings : List Remapping)

/-- The snapshot after a change. -/
def change (s : Snapshot) : Change → Snapshot
  | .know files => { s with files := files }
  | .install t => s.install t
  | .uninstall file => s.uninstall file
  | .modifyTree file f => s.modifyTree file f
  | .addRemappings remappings => s.addRemappings remappings

/-- The snapshot that comes about by changes of the one without files. -/
def built (remappings : List Remapping) (changes : List Change) : Snapshot :=
  changes.foldl change (empty remappings)

/-- Every change keeps edges for the installed files. -/
theorem KeptForInstalled.change {s : Snapshot} (h : s.KeptForInstalled) (c : Change) :
    (s.change c).KeptForInstalled := by
  cases c with
  | know files => exact h
  | install t =>
      refine h.refreshAround rfl fun other hne => ?_
      rw [tree?, FileMap.get?_insert, if_neg hne]
      rfl
  | uninstall file =>
      refine h.refreshAround rfl fun other hne => ?_
      rw [tree?, FileMap.get?_erase, if_neg hne]
      rfl
  | modifyTree file f =>
      intro other
      rw [Snapshot.change, tree?_modifyTree]
      split
      · rename_i heq
        rw [heq, Option.isSome_map]
        exact h file
      · exact h other
  | addRemappings remappings => exact h.addRemappings remappings

/-- A snapshot that is built keeps edges for the installed files. -/
theorem keptForInstalled_built (remappings : List Remapping) (changes : List Change) :
    (built remappings changes).KeptForInstalled := by
  induction changes using List.reverseRecOn with
  | nil => exact fun _ => rfl
  | append_singleton changes c ih =>
      rw [built, List.foldl_append]
      exact ih.change c

/-- A snapshot comes about by changes. -/
def IsBuilt (s : Snapshot) : Prop :=
  ∃ remappings changes, s = built remappings changes

/-- A change of what is built is built. -/
theorem IsBuilt.change {s : Snapshot} (h : s.IsBuilt) (c : Change) : (s.change c).IsBuilt := by
  obtain ⟨remappings, changes, rfl⟩ := h
  refine ⟨remappings, changes ++ [c], ?_⟩
  rw [built, built, List.foldl_append]
  rfl

end Snapshot

/-- Another tree for a file is a sequence of changes. -/
theorem Workspace.isBuilt_replace {w : Workspace} (h : w.snapshot.IsBuilt) (file : FileId)
    (tree : Option SymbolTree) : (w.replace file tree).snapshot.IsBuilt := by
  have hswapped : (w.swapped file tree).IsBuilt := by
    cases tree with
    | none => exact (h.change (.know w.files)).change (.uninstall file)
    | some t => exact (h.change (.know w.files)).change (.install t)
  have hchange : ∀ {s : Snapshot} (changed : FileId) {f}, SymbolTree.LinkChange f → s.IsBuilt →
      (s.modifyTree changed f).IsBuilt :=
    fun changed f _ hs => hs.change (.modifyTree changed f)
  rw [snapshot_replace]
  exact Snapshot.linkAll_changes hchange _ (Snapshot.detachAll_changes hchange _ _ hswapped)

namespace Session

variable {s : Session}

theorem isBuilt_step (h : s.snapshot.IsBuilt) (a : Step) : (s.step a).snapshot.IsBuilt := by
  rcases s.step_cases a with ⟨-, -, hsame | ⟨remappings, rfl⟩⟩ |
    ⟨w, file, tree, heq, -, hsnapshot, -, -⟩
  · rw [hsame]
    exact h
  · exact h.change (.addRemappings remappings)
  · rw [Session.snapshot, heq]
    exact Workspace.isBuilt_replace (by rw [hsnapshot]; exact h) file tree

/-- A run leads from what is built to what is built. -/
theorem isBuilt_run (h : s.snapshot.IsBuilt) (steps : List Step) : (s.run steps).snapshot.IsBuilt := by
  induction steps generalizing s with
  | nil => exact h
  | cons a steps ih => exact ih (isBuilt_step h a)

/-- Every snapshot that calls lead to comes about by changes. -/
theorem exists_built_callAll (config : Config) (calls : List Call) :
    ∃ remappings changes, ((start config).callAll calls).snapshot = .built remappings changes := by
  rw [callAll_eq_run]
  exact isBuilt_run ⟨config.remappings, [], rfl⟩ _

end Session

/-- Whatever imports there are, in circles or of a file itself, the importers of a file are the
other installed files from which it is reached over imports, each of them once, and of two of them
the one with the shorter way comes first. -/
theorem Snapshot.importersOf_built (remappings : List Remapping) (changes : List Change)
    (file : FileId) :
    let s := built remappings changes
    (∀ source, source ∈ s.importersOf file ↔
      source ≠ file ∧ s.isInstalled source = true ∧ s.Reaches source file) ∧
    (s.importersOf file).Nodup ∧
    (s.importersOf file).Pairwise fun near far => s.distance near file ≤ s.distance far file := by
  intro s
  refine ⟨fun source => ?_, nodup_importersOf file, pairwise_importersOf s file⟩
  rw [mem_importersOf_iff]
  refine and_congr_right fun _ => ⟨fun hreach => ⟨?_, hreach⟩, And.right⟩
  have hkey : source ∈ s.edges.keys := by
    obtain ⟨other, himport, -⟩ := Relation.TransGen.head'_iff.1 hreach
    exact mem_keys_of_mem_importedFiles himport
  rw [isInstalled_eq, ← keptForInstalled_built remappings changes source]
  exact FileMap.mem_keys_iff.1 hkey

end SolidityAtlas

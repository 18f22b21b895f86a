import SolidityAtlas.Proofs.Workspace.Imports

/-!
# What is kept of imports

Beside each installed tree the workspace keeps the files that the tree imports. At any time
these are the files that the import directives of the tree mean, one after the other in the
order of the text: it makes no difference whether an import is looked up in what is kept or
resolved again, with the paths, the remappings and the installed files that there are now.

Every installed tree is the reading of a text apart from its links (`Session.readFromTexts_run`), so
what is true of all readings and is decided by outlines is true of all installed trees.

## Main Definitions

* `SymbolTree.ReadFromText`: a tree that is the reading of a text apart from its links
* `Snapshot.KeptForInstalled`: imports are kept for the installed files

## Main Results

* `Session.edges_callAll`
-/

namespace SolidityAtlas

/-! ## The import directives of a text -/

namespace SymbolTree

/-- A tree that is the reading of a text apart from its links. -/
def ReadFromText (t : SymbolTree) : Prop :=
  ∃ maxDepth file generation text,
    t.outline = (grow maxDepth file generation (.ofText text) (parse text).tree).outline

/-- The imports of a tree are its import directives, in the order of the text. -/
theorem ReadFromText.imports {t : SymbolTree} (h : t.ReadFromText) :
    t.imports.Pairwise (· < ·) ∧ ∀ id, id ∈ t.imports ↔ t.kind? id = some .importDirective := by
  obtain ⟨maxDepth, file, generation, text, houtline⟩ := h
  rw [imports_congr houtline, kind?_congr houtline]
  refine ⟨(pairwise_children_grow _ _ _ _ _ _).filter _, fun id => ⟨fun hid => ?_, mem_imports_grow⟩⟩
  exact eq_of_beq (List.mem_filter.1 hid).2

end SymbolTree

namespace Session

variable {s : Session}

/-- Every tree of a session is the reading of a text. -/
structure ReadFromTexts (s : Session) : Prop where
  installed : ∀ file t, s.snapshot.tree? file = some t → t.ReadFromText
  prepared : ∀ p ∈ s.prepared, p.tree.ReadFromText

/-- A step puts in trees that are read from texts only. -/
theorem ReadFromTexts.step (h : s.ReadFromTexts) (hsound : s.Sound) (a : Step) :
    (s.step a).ReadFromTexts := by
  refine ⟨fun other t ht => ?_, fun p hp => ?_⟩
  · rcases s.step_cases a with ⟨-, htrees, -⟩ |
      ⟨w, file, tree, heq, hlinks, hsnapshot, htree, -⟩
    · rw [Snapshot.tree?, htrees] at ht
      exact h.installed other t ht
    · obtain ⟨hw, hgrown⟩ := hsound.premises hlinks hsnapshot htree
      rw [Session.snapshot, heq] at ht
      obtain ⟨u, hu, halike⟩ := (hw.readAlike_replace hgrown other).flip.exists_right ht
      rw [SymbolTree.ReadFromText, ← halike.outline]
      -- The tree of the file comes from what was prepared, the other trees were there before.
      split at hu
      · obtain ⟨k, p, -, hp, rfl, -⟩ := htree u hu
        exact h.prepared p (List.mem_of_getElem? hp)
      · rw [hsnapshot] at hu
        exact h.installed other u hu
  · rcases s.mem_prepared_step hp with hp | ⟨path, text, -, rfl⟩
    · exact h.prepared p hp
    · exact ⟨_, _, _, text, rfl⟩

/-- In every run the trees are read from texts. -/
theorem readFromTexts_run (config : Config) (steps : List Step) :
    ((start config).run steps).ReadFromTexts := by
  induction steps using List.reverseRecOn with
  | nil => exact ⟨fun _ _ ht => (nomatch ht), fun _ hp => absurd hp List.not_mem_nil⟩
  | append_singleton steps a ih =>
      rw [run_append]
      exact ih.step ((Sound.start config).run steps) a

end Session

/-! ## Imports are kept for the installed files -/

namespace Snapshot

variable {s s' : Snapshot} {file : FileId}

/-- Imports are kept for the installed files and for no others. -/
def KeptForInstalled (s : Snapshot) : Prop :=
  ∀ file, (s.edges.get? file).isSome = (s.tree? file).isSome

/-- The edges of a file are kept if it has a tree when they are refreshed. -/
theorem isSome_edges_refreshEdges (s : Snapshot) (file other : FileId) :
    ((s.refreshEdges file).edges.get? other).isSome =
      if other = file then (s.tree? file).isSome else (s.edges.get? other).isSome := by
  unfold refreshEdges
  cases s.tree? file with
  | none =>
      rw [FileMap.get?_erase]
      split <;> rfl
  | some t =>
      rw [FileMap.get?_insert]
      split <;> rfl

/-- Refreshing files keeps the edges of those that have trees. -/
theorem isSome_edges_foldl_refreshEdges (files : List FileId) (s : Snapshot) (other : FileId) :
    ((files.foldl refreshEdges s).edges.get? other).isSome =
      if other ∈ files then (s.tree? other).isSome else (s.edges.get? other).isSome := by
  induction files generalizing s with
  | nil => rw [List.foldl_nil, if_neg List.not_mem_nil]
  | cons file files ih =>
      rw [List.foldl_cons, ih, tree?, trees_refreshEdges, isSome_edges_refreshEdges]
      by_cases hmem : other ∈ files
      · rw [if_pos hmem, if_pos (List.mem_cons_of_mem _ hmem)]
        rfl
      · rw [if_neg hmem]
        by_cases heq : other = file
        · rw [if_pos heq, if_pos (heq ▸ List.mem_cons_self), heq]
        · rw [if_neg heq, if_neg fun hcons => (List.mem_cons.1 hcons).elim heq hmem]

/-- Refreshing around a file keeps edges for the installed files. -/
theorem KeptForInstalled.refreshAround (h : s.KeptForInstalled) (hedges : s'.edges = s.edges)
    (htrees : ∀ other, other ≠ file → s'.tree? other = s.tree? other) :
    (s'.refreshAround file).KeptForInstalled := by
  intro other
  rw [Snapshot.refreshAround, isSome_edges_foldl_refreshEdges, tree?_foldl_refreshEdges]
  split
  · rfl
  · rename_i hnot
    rw [hedges, htrees other fun heq => hnot (heq ▸ List.mem_cons_self)]
    exact h other

/-- New remappings keep edges for the installed files. -/
theorem KeptForInstalled.addRemappings (h : s.KeptForInstalled) (remappings : List Remapping) :
    (s.addRemappings remappings).KeptForInstalled := by
  intro other
  rw [Snapshot.addRemappings, isSome_edges_foldl_refreshEdges, tree?_foldl_refreshEdges]
  split
  · rfl
  · exact h other

/-- What is kept for an installed file is what its imports mean now. -/
theorem Charted.edges_eq (h : s.Charted) (hkept : s.KeptForInstalled) (file : FileId) :
    s.edges.get? file = (s.tree? file).map fun t => t.imports.filterMap (s.importTarget? file) := by
  have hexact := h.exact file
  have hisSome := hkept file
  rw [importedFiles, targets] at hexact
  cases hedges : s.edges.get? file with
  | none =>
      rw [hedges, Option.isSome_none, eq_comm, Option.isSome_eq_false_iff,
        Option.isNone_iff_eq_none] at hisSome
      rw [hisSome]
      rfl
  | some edges =>
      rw [hedges] at hisSome hexact
      obtain ⟨t, ht⟩ := Option.isSome_iff_exists.1 hisSome.symm
      rw [ht] at hexact ⊢
      exact congrArg some hexact

/-- Paths behind those of the installed files change no import. -/
theorem importTarget?_of_known (hknown : ∀ file, s.isInstalled file = true → file < s.files.size)
    {files : PathTable} (hfiles : s.files.paths <+: files.paths) (file : FileId)
    (directive : NodeId) : ({ s with files := files } : Snapshot).importTarget? file directive =
      s.importTarget? file directive := by
  cases ht : s.tree? file with
  | none =>
      rw [importTarget?, importTarget?, ht, show ({ s with files := files } : Snapshot).tree? file =
        none from ht]
      rfl
  | some t =>
      have hlt := hknown file (by rw [isInstalled_eq, ht]; rfl)
      have hpath : s.files.path? file = some s.files.paths[file] := List.getElem?_eq_getElem hlt
      rw [importTarget?_eq ht hpath, importTarget?_eq (s := { s with files := files }) ht
        (PathTable.path?_of_known hfiles hpath)]
      exact congrArg _ (funext fun path => resolveImport?_of_known hfiles hknown)

/-- Paths that have come to be known since the last change of a tree change no import. -/
theorem Charted.importTarget?_of_known (h : s.Charted) {files : PathTable}
    (hfiles : s.files.paths <+: files.paths) (file : FileId) (directive : NodeId) :
    ({ s with files := files } : Snapshot).importTarget? file directive =
      s.importTarget? file directive :=
  Snapshot.importTarget?_of_known h.known hfiles file directive

end Snapshot

/-- Replacing a file keeps edges for the installed files. -/
theorem Workspace.Sound.keptForInstalled_replace {w : Workspace} {file : FileId}
    {tree : Option SymbolTree} (h : w.Sound) (hkept : w.snapshot.KeptForInstalled)
    (htree : ∀ t, tree = some t → t.Grown (fun _ => False) ∧ t.file = file) :
    (w.replace file tree).snapshot.KeptForInstalled := by
  have hswapped : (w.swapped file tree).KeptForInstalled := by
    cases tree with
    | none =>
        refine hkept.refreshAround rfl fun other hne => ?_
        rw [Snapshot.tree?, FileMap.get?_erase, if_neg hne]
        rfl
    | some t =>
        obtain ⟨-, rfl⟩ := htree t rfl
        refine hkept.refreshAround rfl fun other hne => ?_
        rw [Snapshot.tree?, FileMap.get?_insert, if_neg hne]
        rfl
  have hshape := h.sameShape_replace htree
  intro other
  rw [hshape.edges, ← (hshape.tree other).isSome_eq]
  exact hswapped other

namespace Session

variable {s : Session}

/-- Every step keeps edges for the installed files. -/
theorem keptForInstalled_step (hsound : s.Sound) (h : s.snapshot.KeptForInstalled) (a : Step) :
    (s.step a).snapshot.KeptForInstalled := by
  rcases s.step_cases a with ⟨-, -, hsame | ⟨remappings, rfl⟩⟩ |
    ⟨w, file, tree, heq, hlinks, hsnapshot, htree, -⟩
  · rw [hsame]
    exact h
  · exact h.addRemappings remappings
  · obtain ⟨hw, hgrown⟩ := hsound.premises hlinks hsnapshot htree
    rw [Session.snapshot, heq]
    exact hw.keptForInstalled_replace (by rw [hsnapshot]; exact h) hgrown

/-- In every run edges are kept for the installed files. -/
theorem keptForInstalled_run (config : Config) (steps : List Step) :
    ((start config).run steps).snapshot.KeptForInstalled := by
  induction steps using List.reverseRecOn with
  | nil => exact fun _ => rfl
  | append_singleton steps a ih =>
      rw [run_append]
      exact keptForInstalled_step ((Sound.start config).run steps) ih a

/-- If an import means something else after the tree of another file has come, changed or gone, the
file in which the import stands is among those whose imports are found anew. -/
theorem Charted.mem_concernedBy (h : s.Charted) (hsound : s.Sound) {a : Step} {file : FileId}
    (hreplaced : s.replaced? a = some file) {other : FileId} (hne : other ≠ file)
    {directive : NodeId} (hchanged : (s.step a).snapshot.importTarget? other directive ≠
      s.snapshot.importTarget? other directive) :
    other ∈ (s.step a).snapshot.concernedBy file := by
  obtain ⟨w, tree, heq, hlinks, hsnapshot, htree, hfiles⟩ := step_of_replaced? hreplaced
  obtain ⟨hw, hgrown⟩ := hsound.premises hlinks hsnapshot htree
  have hswaps := hw.swaps_replace (by rw [hsnapshot, hfiles]; exact h.files) hgrown
  rw [hsnapshot, ← heq] at hswaps
  by_contra hconcerned
  apply hchanged
  cases ht : s.snapshot.tree? other with
  | none =>
      have hgone := hswaps.outline other hne
      rw [show s.workspace.snapshot.tree? other = none from ht] at hgone
      rw [Snapshot.importTarget?, Snapshot.importTarget?, ht, hgone.eq_none]
      rfl
  | some t =>
      by_cases hdirective : directive ∈ t.imports
      · exact hswaps.importTarget?_of_not_mem_concernedBy h.snapshot hne ht hconcerned hdirective
      · -- What is no import directive means no file, before and after.
        have hpath : Snapshot.importPath? t directive = none :=
          Option.eq_none_iff_forall_ne_some.2 fun path hpath =>
            hdirective (h.snapshot.top other t ht directive path hpath)
        obtain ⟨importer, -, hbefore, hafter⟩ :=
          hswaps.importTarget?_eq h.snapshot hne ht directive
        rw [hbefore, hafter, hpath]
        rfl

/-- Whatever calls are made, what is kept for an installed file is what its import directives mean
with the paths, the remappings and the installed files that there are now, in the order of the
text, and nothing is kept for the other files. When the tree of a file comes, changes or goes, the
imports of every other file are found anew in which some import changes its meaning. -/
theorem edges_callAll (config : Config) (calls : List Call) :
    let s := (start config).callAll calls
    (∀ file, s.snapshot.edges.get? file = (s.snapshot.tree? file).map fun t =>
      t.imports.filterMap
        (({ s.snapshot with files := s.workspace.files } : Snapshot).importTarget? file)) ∧
    (∀ file t, s.snapshot.tree? file = some t →
      t.imports.Pairwise (· < ·) ∧ ∀ id, id ∈ t.imports ↔ t.kind? id = some .importDirective) ∧
    (∀ a file, s.replaced? a = some file → ∀ other directive, other ≠ file →
      (s.step a).snapshot.importTarget? other directive ≠
        s.snapshot.importTarget? other directive →
      other ∈ (s.step a).snapshot.concernedBy file) := by
  intro s
  have hrun : s = (start config).run ((start config).steps calls) := callAll_eq_run _ calls
  have hsound : s.Sound := sound_callAll config calls
  have hcharted : s.Charted := charted_callAll config calls
  refine ⟨fun file => ?_, fun file t ht => ?_, fun a file ha other directive hne hchanged =>
    hcharted.mem_concernedBy hsound ha hne hchanged⟩
  · have hkept : s.snapshot.KeptForInstalled := by
      rw [hrun]
      exact keptForInstalled_run config _
    rw [hcharted.snapshot.edges_eq hkept file]
    refine congrArg (fun targets => (s.snapshot.tree? file).map fun t =>
      t.imports.filterMap targets) (funext fun directive => ?_)
    exact (hcharted.snapshot.importTarget?_of_known hcharted.files file directive).symm
  · have htexts : s.ReadFromTexts := by
      rw [hrun]
      exact readFromTexts_run config _
    exact (htexts.installed file t ht).imports

end Session

end SolidityAtlas

import SolidityAtlas.Proofs.Symbol.Stage
import SolidityAtlas.Proofs.Workspace.Reindex

/-!
# The imports of files

What the imports of a file mean is kept beside its tree and found anew only for the files
that a change can concern. Nobody else is concerned: for the other files all that their
imports can mean is as live as before. So the files that are kept beside a tree are at any
time those that its imports mean now (`Session.Charted`), whatever calls are made.

A change of one tree changes what imports mean in one way only. If the tree comes, an import
that changes means the new file now; if it goes, an import that changes meant it before
(`Snapshot.Swaps.importTarget?_cases`).

## Main Definitions

* `Snapshot.targets`: the files that the imports of a file mean now
* `Snapshot.Charted`: the imports that are kept are those that imports mean
* `Snapshot.Swaps`: a snapshot with another tree for one file

## Main Results

* `Snapshot.Charted.refreshAround`: finding the imports anew that a change concerns is enough
* `Session.charted_callAll`
-/

namespace SolidityAtlas

namespace SymbolTree

/-- Whatever is written with the path of an import is an import directive at the top of the file. -/
def ImportsOnTop (t : SymbolTree) : Prop :=
  ∀ id path, Snapshot.importPath? t id = some path → id ∈ t.imports

/-- That directives stand on top is read off the outline. -/
theorem ImportsOnTop.congr {t u : SymbolTree} (h : t.ImportsOnTop) (houtline : t.outline = u.outline) :
    u.ImportsOnTop := by
  intro id path hpath
  rw [← Snapshot.importPath?_congr houtline] at hpath
  rw [← imports_congr houtline]
  exact h id path hpath

/-- The import directives of a text all stand at its top. -/
theorem mem_imports_grow {maxDepth file generation : Nat} {m : LineMap} {text : String} {id : NodeId}
    (hkind : (grow maxDepth file generation m (parse text).tree).kind? id = some .importDirective) :
    id ∈ (grow maxDepth file generation m (parse text).tree).imports := by
  have hstage := stage_grow maxDepth file generation m (parse text).tree
  have hkind' := hkind
  rw [kind?_stems hstage.stems] at hkind'
  obtain ⟨x, hx, -⟩ := Option.map_eq_some_iff.1 hkind'
  have hmem := mem_settlingOrder_planted.2 (lt_size_of_symbol? hx)
  refine List.mem_filter.2 ⟨hstage.mem_children_iff.2 ⟨hmem, ?_⟩, ?_⟩
  · rcases parent?_of_topLevel hkind' with ⟨-, hsource⟩ | ⟨-, -, hinner | hparent⟩
    · cases hsource
    · cases hinner
    · exact hparent
  · rw [hkind]
    rfl

/-- In a tree that has grown from a text the directives stand on top. -/
theorem importsOnTop_grow (maxDepth file generation : Nat) (m : LineMap) (text : String) :
    (grow maxDepth file generation m (parse text).tree).ImportsOnTop := by
  intro id path hpath
  refine mem_imports_grow ?_
  unfold Snapshot.importPath? at hpath
  split at hpath
  · rename_i hdetail
    obtain ⟨s, hs, hdetail⟩ := Option.map_eq_some_iff.1 hdetail
    rw [kind?, hs, Option.map_some, Symbol.kind, hdetail]
    rfl
  · cases hpath

end SymbolTree

namespace Snapshot

variable {s s' : Snapshot} {file other : FileId}

/-! ## Imports that are found anew -/

/-- The files that the imports of a file mean now, in the order of the text. -/
def targets (s : Snapshot) (file : FileId) : List FileId :=
  match s.tree? file with
  | some t => t.imports.filterMap (s.importTarget? file)
  | none => []

/-- An installed file imports what its directives lead to. -/
theorem targets_of_tree? {t : SymbolTree} (ht : s.tree? file = some t) :
    s.targets file = t.imports.filterMap (s.importTarget? file) := by
  rw [targets, ht]

/-- A file without a tree imports nothing. -/
theorem targets_of_none (ht : s.tree? file = none) : s.targets file = [] := by
  rw [targets, ht]

/-- Only the file that is refreshed gets other edges. -/
theorem importedFiles_refreshEdges (s : Snapshot) (file other : FileId) :
    (s.refreshEdges file).importedFiles other =
      if other = file then s.targets file else s.importedFiles other := by
  unfold refreshEdges
  cases ht : s.tree? file with
  | none =>
      rw [importedFiles, importedFiles, FileMap.get?_erase, targets_of_none ht]
      split <;> rfl
  | some t =>
      rw [importedFiles, importedFiles, FileMap.get?_insert, targets_of_tree? ht]
      split <;> rfl

/-- What imports mean does not depend on what was found before. -/
theorem targets_refreshEdges (s : Snapshot) (file : FileId) :
    (s.refreshEdges file).targets = s.targets := by
  unfold refreshEdges
  split <;> rfl

/-- Refreshing edges does not change what files import. -/
theorem targets_foldl_refreshEdges (files : List FileId) (s : Snapshot) :
    (files.foldl refreshEdges s).targets = s.targets := by
  induction files generalizing s with
  | nil => rfl
  | cons file files ih => rw [List.foldl_cons, ih, targets_refreshEdges]

/-- Every file is found anew or left as it is. -/
theorem importedFiles_foldl_refreshEdges (files : List FileId) (s : Snapshot) (other : FileId) :
    (files.foldl refreshEdges s).importedFiles other =
      if other ∈ files then s.targets other else s.importedFiles other := by
  induction files generalizing s with
  | nil => rw [List.foldl_nil, if_neg List.not_mem_nil]
  | cons file files ih =>
      rw [List.foldl_cons, ih, targets_refreshEdges, importedFiles_refreshEdges]
      by_cases hmem : other ∈ files
      · rw [if_pos hmem, if_pos (List.mem_cons_of_mem _ hmem)]
      · rw [if_neg hmem]
        by_cases heq : other = file
        · rw [if_pos heq, if_pos (heq ▸ List.mem_cons_self), heq]
        · rw [if_neg heq, if_neg fun hcons => (List.mem_cons.1 hcons).elim heq hmem]

/-! ## Charted snapshots -/

/-- Installed files have paths, their imports stand at their tops, and the files that are kept
beside them are those that their imports mean now. -/
structure Charted (s : Snapshot) : Prop where
  known : ∀ file, s.isInstalled file = true → file < s.files.size
  top : ∀ file t, s.tree? file = some t → t.ImportsOnTop
  exact : ∀ file, s.importedFiles file = s.targets file

theorem isInstalled_eq : s.isInstalled file = (s.tree? file).isSome := rfl

/-- An installed file has a path. -/
theorem Charted.exists_path? (h : s.Charted) {t : SymbolTree} (ht : s.tree? file = some t) :
    ∃ path, s.files.path? file = some path := by
  have hlt := h.known file (by rw [isInstalled_eq, ht]; rfl)
  exact ⟨_, List.getElem?_eq_getElem hlt⟩

/-- A directive leads to what its path is resolved to, among the installed files. -/
theorem importTarget?_eq {t : SymbolTree} {importer : String} (ht : s.tree? file = some t)
    (hpath : s.files.path? file = some importer) (directive : NodeId) :
    s.importTarget? file directive = (importPath? t directive).bind fun path =>
      resolveImport? s.files s.remappings importer path s.isInstalled := by
  rw [importTarget?, ht, hpath]
  rfl

/-- What an import means is kept. -/
theorem Charted.mem_importedFiles (h : s.Charted) {directive : NodeId}
    (htarget : s.importTarget? file directive = some other) : other ∈ s.importedFiles file := by
  obtain ⟨t, ht, hrest⟩ := Option.bind_eq_some_iff.1 htarget
  obtain ⟨path, hpath, -⟩ := Option.bind_eq_some_iff.1 hrest
  rw [h.exact, targets_of_tree? ht, List.mem_filterMap]
  exact ⟨directive, h.top file t ht directive path hpath, htarget⟩

/-- Snapshots of one shape are charted alike. -/
theorem Charted.congr (h : s.Charted) (hshape : SameShape s s') : s'.Charted := by
  have hinstalled := hshape.isInstalled
  refine ⟨fun file hfile => ?_, fun file t ht => ?_, fun file => ?_⟩
  · rw [hinstalled] at hfile
    rw [hshape.files]
    exact h.known file hfile
  · have htrees := hshape.tree file
    rw [ht] at htrees
    obtain ⟨u, hu, houtline⟩ := htrees.flip.exists_right rfl
    exact (h.top file u hu).congr houtline
  · have hexact := h.exact file
    have htrees := hshape.tree file
    rw [importedFiles, hshape.edges]
    refine hexact.trans ?_
    cases ht : s.tree? file with
    | none =>
        rw [ht] at htrees
        rw [targets_of_none ht, targets_of_none htrees.eq_none]
    | some t =>
        obtain ⟨u, hu, houtline⟩ := htrees.exists_right ht
        rw [targets_of_tree? ht, targets_of_tree? hu, SymbolTree.imports_congr houtline]
        exact List.filterMap_congr fun directive _ => (hshape.importTarget?_eq file directive).symm

/-! ## Another tree for a file -/

/-- One snapshot has another tree than the other one for a file, and perhaps more paths. -/
structure Swaps (file : FileId) (s s' : Snapshot) : Prop where
  files : s.files.paths <+: s'.files.paths
  remappings : s'.remappings = s.remappings
  outline : ∀ other, other ≠ file →
    Option.Rel (fun t u : SymbolTree => t.outline = u.outline) (s.tree? other) (s'.tree? other)

namespace Swaps

/-- The other files are installed as before. -/
theorem isInstalled (h : Swaps file s s') (hne : other ≠ file) :
    s'.isInstalled other = s.isInstalled other :=
  (h.outline other hne).isSome_eq.symm

/-- A swap is seen in the shape of a snapshot. -/
theorem shape {s'' : Snapshot} (h : Swaps file s s') (hshape : SameShape s' s'') : Swaps file s s'' where
  files := by
    rw [hshape.files]
    exact h.files
  remappings := hshape.remappings.trans h.remappings
  outline other hne := (h.outline other hne).comp (hshape.tree other) fun _ _ _ => Eq.trans

section

variable (h : Swaps file s s') (hcharted : s.Charted) (hne : other ≠ file) {t : SymbolTree}
  (ht : s.tree? other = some t)

include h hcharted hne ht

/-- What an import of another file means before and after. -/
theorem importTarget?_eq (directive : NodeId) : ∃ importer,
    s'.files.path? other = some importer ∧
      s.importTarget? other directive = (importPath? t directive).bind (fun path =>
        resolveImport? s'.files s.remappings importer path s.isInstalled) ∧
      s'.importTarget? other directive = (importPath? t directive).bind fun path =>
        resolveImport? s'.files s.remappings importer path s'.isInstalled := by
  obtain ⟨importer, hpath⟩ := hcharted.exists_path? ht
  obtain ⟨u, hu, houtline⟩ := (h.outline other hne).exists_right ht
  have hpath' := PathTable.path?_of_known h.files hpath
  refine ⟨importer, hpath', ?_, ?_⟩
  · rw [Snapshot.importTarget?_eq ht hpath]
    refine congrArg _ (funext fun path => ?_)
    exact (resolveImport?_of_known h.files hcharted.known).symm
  · rw [Snapshot.importTarget?_eq hu hpath', h.remappings, importPath?_congr houtline]

/-- If an import of another file changes its meaning, it means the file that has come, or it meant
the file that has gone. -/
theorem importTarget?_cases (directive : NodeId) :
    s'.importTarget? other directive = s.importTarget? other directive ∨
      s'.importTarget? other directive = some file ∨
      s.isInstalled file = true ∧ s'.isInstalled file = false ∧
        s.importTarget? other directive = some file := by
  obtain ⟨importer, -, hbefore, hafter⟩ := h.importTarget?_eq hcharted hne ht directive
  rw [hbefore, hafter]
  cases importPath? t directive with
  | none => exact .inl rfl
  | some path =>
      rw [Option.bind_some, Option.bind_some]
      have hothers : ∀ other, other ≠ file → s'.isInstalled other = s.isInstalled other :=
        fun _ hne => h.isInstalled hne
      cases hold : s.isInstalled file with
      | false => exact (resolveImport?_of_live hothers hold).imp_right .inl
      | true =>
          cases hnew : s'.isInstalled file with
          | false =>
              exact (resolveImport?_of_live (fun other hne => (hothers other hne).symm) hnew).imp
                Eq.symm fun hgone => .inr ⟨rfl, rfl, hgone⟩
          | true =>
              refine .inl (resolveImport?_congr fun other _ _ _ => ?_)
              by_cases heq : other = file
              · rw [heq, hold, hnew]
              · exact hothers other heq

/-- The imports of a file that is not concerned mean what they meant. -/
theorem importTarget?_of_not_mem_concernedBy (hconcerned : other ∉ s'.concernedBy file)
    {directive : NodeId} (hdirective : directive ∈ t.imports) :
    s'.importTarget? other directive = s.importTarget? other directive := by
  obtain ⟨u, hu, houtline⟩ := (h.outline other hne).exists_right ht
  obtain ⟨importer, himporter, hbefore, hafter⟩ := h.importTarget?_eq hcharted hne ht directive
  rw [hbefore, hafter]
  cases hwritten : importPath? t directive with
  | none => rfl
  | some written =>
      refine resolveImport?_congr fun live path hpath hmatches => ?_
      by_cases heq : live = file
      · -- The import could mean the file, so the file that it stands in is concerned.
        rw [heq] at hpath
        refine absurd ?_ hconcerned
        rw [concernedBy, hpath]
        refine List.mem_filter.2 ⟨mem_installed_iff.2 (by rw [hu]; rfl), ?_⟩
        rw [Bool.and_eq_true, bne_iff_ne]
        refine ⟨hne, ?_⟩
        rw [mayImport, hu, himporter]
        refine List.any_eq_true.2 ⟨written, List.mem_filterMap.2 ⟨directive, ?_, ?_⟩, ?_⟩
        · rw [← SymbolTree.imports_congr houtline]
          exact hdirective
        · rw [← importPath?_congr houtline]
          exact hwritten
        · rw [h.remappings]
          exact hmatches
      · exact h.isInstalled heq

/-- A file that is not concerned by the swap imports what it did. -/
theorem targets_eq (hconcerned : other ∉ s'.concernedBy file) : s'.targets other = s.targets other := by
  obtain ⟨u, hu, houtline⟩ := (h.outline other hne).exists_right ht
  rw [targets_of_tree? hu, targets_of_tree? ht, ← SymbolTree.imports_congr houtline]
  exact List.filterMap_congr fun directive hdirective =>
    h.importTarget?_of_not_mem_concernedBy hcharted hne ht hconcerned hdirective

end

end Swaps

/-- Refreshing edges changes no tree. -/
theorem tree?_foldl_refreshEdges (files : List FileId) (s : Snapshot) :
    (files.foldl refreshEdges s).tree? = s.tree? := by
  funext other
  rw [tree?, tree?, trees_foldl_refreshEdges]

/-- When the tree of a file has come, changed or gone, it is enough to find the imports of this file
anew and of those that have an import that could mean it. -/
theorem Charted.refreshAround (h : s.Charted) (hswaps : Swaps file s s') (hedges : s'.edges = s.edges)
    (hknown : s'.isInstalled file = true → file < s'.files.size)
    (htop : ∀ t, s'.tree? file = some t → t.ImportsOnTop) : (s'.refreshAround file).Charted := by
  have htrees : (s'.refreshAround file).tree? = s'.tree? := tree?_foldl_refreshEdges _ _
  refine ⟨fun other hother => ?_, fun other t ht => ?_, fun other => ?_⟩
  · rw [isInstalled_eq, htrees] at hother
    rw [Snapshot.refreshAround, (files_foldl_refreshEdges _ _).1]
    by_cases heq : other = file
    · rw [heq] at hother ⊢
      exact hknown hother
    · rw [← isInstalled_eq, hswaps.isInstalled heq] at hother
      exact Nat.lt_of_lt_of_le (h.known other hother) hswaps.files.length_le
  · rw [htrees] at ht
    by_cases heq : other = file
    · exact htop t (heq ▸ ht)
    · obtain ⟨u, hu, houtline⟩ := (hswaps.outline other heq).flip.exists_right ht
      exact (h.top other u hu).congr houtline
  · rw [Snapshot.refreshAround, targets_foldl_refreshEdges, importedFiles_foldl_refreshEdges]
    split
    · rfl
    · rename_i hnot
      obtain ⟨hne, hconcerned⟩ := not_or.1 (mt List.mem_cons.2 hnot)
      rw [importedFiles, hedges]
      refine (h.exact other).trans ?_
      cases ht : s.tree? other with
      | none =>
          have hgone := hswaps.outline other hne
          rw [ht] at hgone
          rw [targets_of_none ht, targets_of_none hgone.eq_none]
      | some t => exact (hswaps.targets_eq h hne ht hconcerned).symm

/-- More remappings concern all files, and all are found anew. -/
theorem Charted.addRemappings (h : s.Charted) (remappings : List Remapping) :
    (s.addRemappings remappings).Charted := by
  have htrees : (s.addRemappings remappings).tree? = s.tree? := tree?_foldl_refreshEdges _ _
  refine ⟨fun file hfile => ?_, fun file t ht => ?_, fun file => ?_⟩
  · rw [isInstalled_eq, htrees] at hfile
    rw [Snapshot.addRemappings, (files_foldl_refreshEdges _ _).1]
    exact h.known file hfile
  · rw [htrees] at ht
    exact h.top file t ht
  · rw [Snapshot.addRemappings, targets_foldl_refreshEdges, importedFiles_foldl_refreshEdges]
    split
    · rfl
    · rename_i hnot
      have hnone : s.tree? file = none :=
        Option.not_isSome_iff_eq_none.1 fun hsome => hnot (mem_installed_iff.2 hsome)
      have himported := h.exact file
      rw [targets_of_none hnone] at himported
      have htargets : ({ s with remappings := s.remappings ++ remappings } : Snapshot).targets file =
          [] := by
        rw [targets, tree?]
        rw [tree?] at hnone
        rw [hnone]
      rw [htargets]
      exact himported

end Snapshot

/-! ## Replacements -/

namespace Workspace

variable {w : Workspace} {file : FileId} {tree : Option SymbolTree}

/-- The links that a replacement makes do not change the shape of the snapshot. -/
theorem Sound.sameShape_replace (h : w.Sound)
    (htree : ∀ t, tree = some t → t.Grown (fun _ => False) ∧ t.file = file) :
    Snapshot.SameShape (w.swapped file tree) (w.replace file tree).snapshot := by
  obtain ⟨hfiles, hremappings⟩ := h.files_replace htree
  obtain ⟨hfiles', hremappings'⟩ := files_swapped w file tree
  refine ⟨hfiles.trans hfiles'.symm, hremappings.trans hremappings'.symm, ?_, fun other => ?_⟩
  · rw [snapshot_replace, (h.relinked htree).2.imports.2.2]
    exact (Snapshot.imports_detachAll _ _ _).2.2.1
  · rw [tree?_swapped fun t ht => (htree t ht).2]
    exact (h.readAlike_replace htree other).imp fun _ _ halike => halike.outline

section

variable (h : w.Sound) (hcharted : w.snapshot.Charted)
  (hfiles : w.snapshot.files.paths <+: w.files.paths)
  (htree : ∀ t, tree = some t → t.Grown (fun _ => False) ∧ t.file = file)

include h hfiles htree

/-- A replacement gives a file another tree. -/
theorem Sound.swaps_replace : Snapshot.Swaps file w.snapshot (w.replace file tree).snapshot := by
  obtain ⟨hfiles', hremappings'⟩ := files_swapped w file tree
  have hswaps : Snapshot.Swaps file w.snapshot (w.swapped file tree) := by
    refine ⟨by rw [hfiles']; exact hfiles, hremappings', fun other hne => ?_⟩
    rw [tree?_swapped fun t ht => (htree t ht).2, if_neg hne]
    exact .self fun _ _ => rfl
  exact hswaps.shape (h.sameShape_replace htree)

include hcharted

/-- A replacement keeps the imports that are kept exact. -/
theorem Sound.charted_replace
    (htop : ∀ t, tree = some t → file < w.files.size ∧ t.ImportsOnTop) :
    (w.replace file tree).snapshot.Charted := by
  refine Snapshot.Charted.congr ?_ (h.sameShape_replace htree)
  cases tree with
  | none =>
      refine hcharted.refreshAround ⟨hfiles, rfl, fun other hne => ?_⟩ rfl (fun hfile => ?_) fun t ht => ?_
      · rw [Snapshot.tree?, Snapshot.tree?, FileMap.get?_erase, if_neg hne]
        exact .self fun _ _ => rfl
      · rw [Snapshot.isInstalled_eq, Snapshot.tree?, FileMap.get?_erase, if_pos rfl] at hfile
        cases hfile
      · rw [Snapshot.tree?, FileMap.get?_erase, if_pos rfl] at ht
        cases ht
  | some t =>
      obtain ⟨-, rfl⟩ := htree t rfl
      refine hcharted.refreshAround ⟨hfiles, rfl, fun other hne => ?_⟩ rfl
        (fun _ => (htop t rfl).1) fun t' ht => ?_
      · rw [Snapshot.tree?, Snapshot.tree?, FileMap.get?_insert, if_neg hne]
        exact .self fun _ _ => rfl
      · rw [Snapshot.tree?, FileMap.get?_insert, if_pos rfl] at ht
        cases ht
        exact (htop t rfl).2

end

end Workspace

/-! ## Sessions -/

namespace Session

variable {s : Session}

/-- The imports that are kept are those that imports mean now. What has been read can be installed
without changing that. -/
structure Charted (s : Session) : Prop where
  snapshot : s.snapshot.Charted
  files : s.snapshot.files.paths <+: s.workspace.files.paths
  prepared : ∀ p ∈ s.prepared, p.file < s.workspace.files.size ∧ p.tree.ImportsOnTop

/-- At the start there are no edges. -/
theorem charted_start (config : Config) : (start config).Charted where
  snapshot := ⟨fun _ hfile => (nomatch hfile), fun _ _ ht => (nomatch ht), fun _ => rfl⟩
  files := List.prefix_refl _
  prepared _ hp := absurd hp List.not_mem_nil

/-- What a session knows of paths it does not forget. -/
theorem prefix_step (s : Session) (a : Step) :
    s.workspace.files.paths <+: (s.step a).workspace.files.paths := by
  cases a with
  | prepare path text => exact PathTable.prefix_intern _ path
  | install k =>
      simp only [step]
      split
      · unfold Workspace.install
        split
        · exact List.prefix_refl _
        · split <;> exact List.prefix_refl _
      · exact List.prefix_refl _
  | remove path =>
      simp only [step, Workspace.remove]
      cases s.workspace.files.fileId? path <;> exact List.prefix_refl _
  | addRemappings remappings => exact List.prefix_refl _

namespace Charted

variable (h : s.Charted) (hsound : s.Sound)

include h hsound

/-- Every step keeps the edges charted. -/
theorem step (a : Step) : (s.step a).Charted := by
  have hpaths := s.prefix_step a
  refine ⟨?_, ?_, fun p hp => ?_⟩
  · rcases s.step_cases a with ⟨-, -, hsame | ⟨remappings, rfl⟩⟩ |
      ⟨w, file, tree, heq, hlinks, hsnapshot, htree, hfiles⟩
    · rw [hsame]
      exact h.snapshot
    · exact h.snapshot.addRemappings remappings
    · obtain ⟨hw, hgrown⟩ := hsound.premises hlinks hsnapshot htree
      rw [Session.snapshot, heq]
      refine hw.charted_replace (by rw [hsnapshot]; exact h.snapshot)
        (by rw [hsnapshot, hfiles]; exact h.files) hgrown fun t ht => ?_
      obtain ⟨k, p, -, hp, rfl, rfl⟩ := htree t ht
      rw [hfiles]
      exact h.prepared p (List.mem_of_getElem? hp)
  · rcases s.step_cases a with ⟨-, -, hsame | ⟨remappings, rfl⟩⟩ |
      ⟨w, file, tree, heq, hlinks, hsnapshot, htree, hfiles⟩
    · rw [hsame]
      exact h.files.trans hpaths
    · have hkept : (s.step (.addRemappings remappings)).snapshot.files = s.snapshot.files :=
        (Snapshot.files_foldl_refreshEdges _ _).1
      rw [hkept]
      exact h.files
    · obtain ⟨hw, hgrown⟩ := hsound.premises hlinks hsnapshot htree
      have hnow : (s.step a).snapshot.files = (s.step a).workspace.files := by
        rw [Session.snapshot, heq, (hw.files_replace hgrown).1]
        rfl
      exact hnow ▸ List.prefix_refl _
  · rcases s.mem_prepared_step hp with hp | ⟨path, text, rfl, rfl⟩
    · exact ⟨Nat.lt_of_lt_of_le (h.prepared p hp).1 hpaths.length_le, (h.prepared p hp).2⟩
    · obtain ⟨written, hwritten⟩ := s.workspace.files.exists_path?_intern path
      exact ⟨(List.getElem?_eq_some_iff.1 hwritten).1, SymbolTree.importsOnTop_grow _ _ _ _ _⟩

/-- In every run the edges are charted. -/
theorem run (steps : List Step) : (s.run steps).Charted := by
  induction steps generalizing s with
  | nil => exact h
  | cons a steps ih => exact ih (h.step hsound a) (hsound.step a)

end Charted

/-- Whatever calls are made, the imports that are kept are those that imports mean now. -/
theorem charted_callAll (config : Config) (calls : List Call) :
    ((start config).callAll calls).Charted := by
  rw [callAll_eq_run]
  exact (charted_start config).run (Sound.start config) _

end Session

end SolidityAtlas

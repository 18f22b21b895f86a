import SolidityAtlas.Proofs.Workspace.ImportEdges
import SolidityAtlas.Proofs.Workspace.Phases

/-!
# Paths that are only known

A path can be known before its file is installed, since a request for a file makes its path known.
Such paths stand behind those of all installed files. They are never what an import means
(`Snapshot.Extendable.importTarget?_withFiles`), and everything else that a replacement does
depends on paths by way of imports only. So every step of a replacement commutes with making
more paths known, and a replacement does the same whether they are known or not
(`Workspace.replace_of_known`).

## Main Definitions

* `Snapshot.withFiles`: a snapshot that knows other paths
* `Snapshot.Extendable`: more paths can be made known without a difference

## Main Results

* `Snapshot.Extendable.forest_withFiles`, `Snapshot.Extendable.linkAll_withFiles`: linking
* `Workspace.replace_of_known`
-/

namespace SolidityAtlas

namespace Snapshot

/-- The snapshot with other paths. -/
def withFiles (s : Snapshot) (files : PathTable) : Snapshot :=
  { s with files := files }

/-- The paths of the snapshot are the first ones of a table, and installed files are among those that
have one. -/
structure Extendable (s : Snapshot) (files : PathTable) : Prop where
  known : ∀ file, s.isInstalled file = true → file < s.files.size
  paths : s.files.paths <+: files.paths

variable {s s' : Snapshot} {files : PathTable} {file : FileId} {maxDepth : Nat}

/-- Further paths change no tree. -/
@[simp] theorem tree?_withFiles (s : Snapshot) (files : PathTable) :
    (s.withFiles files).tree? = s.tree? := rfl

@[simp] theorem symbol?_withFiles (s : Snapshot) (files : PathTable) :
    (s.withFiles files).symbol? = s.symbol? := rfl

namespace Extendable

/-- Whether paths may be added depends on the paths there are and the installed files. -/
theorem congr (h : s.Extendable files) (hfiles : s'.files = s.files)
    (hinstalled : ∀ file, s'.isInstalled file = true → s.isInstalled file = true) :
    s'.Extendable files :=
  ⟨fun file hfile => hfiles ▸ h.known file (hinstalled file hfile), hfiles ▸ h.paths⟩

theorem modifyTree (h : s.Extendable files) (file : FileId) (f : SymbolTree → SymbolTree) :
    (s.modifyTree file f).Extendable files := by
  refine h.congr rfl fun other hother => ?_
  rw [isInstalled_eq, tree?_modifyTree] at hother
  split at hother
  · rename_i heq
    rwa [Option.isSome_map, ← heq] at hother
  · exact hother

theorem foldl_refreshEdges (h : s.Extendable files) (row : List FileId) :
    (row.foldl refreshEdges s).Extendable files := by
  refine h.congr (files_foldl_refreshEdges _ _).1 fun other hother => ?_
  rwa [isInstalled_eq, tree?_foldl_refreshEdges] at hother

/-- A file keeps its path when further ones are added. -/
theorem path?_eq (h : s.Extendable files) (hlt : file < s.files.size) :
    files.path? file = s.files.path? file := by
  have hpath : s.files.path? file = some s.files.paths[file] := List.getElem?_eq_getElem hlt
  rw [hpath, PathTable.path?_of_known h.paths hpath]

variable (h : s.Extendable files)

include h

/-! ## Imports -/

/-- Paths that are only known change no import. -/
theorem importTarget?_withFiles (file : FileId) (directive : NodeId) :
    (s.withFiles files).importTarget? file directive = s.importTarget? file directive :=
  importTarget?_of_known h.known h.paths file directive

theorem mayImport_withFiles (path : String) (file : FileId) :
    (s.withFiles files).mayImport path file = s.mayImport path file := by
  rw [mayImport, mayImport, tree?_withFiles]
  cases ht : s.tree? file with
  | none => rfl
  | some t =>
      have hlt := h.known file (by rw [isInstalled_eq, ht]; rfl)
      rw [show (s.withFiles files).files.path? file = s.files.path? file from h.path?_eq hlt]
      rfl

/-- The same files are concerned, whatever paths are added. -/
theorem concernedBy_withFiles (hlt : file < s.files.size) :
    (s.withFiles files).concernedBy file = s.concernedBy file := by
  rw [concernedBy, concernedBy,
    show (s.withFiles files).files.path? file = s.files.path? file from h.path?_eq hlt]
  cases s.files.path? file with
  | none => rfl
  | some path =>
      simp only [h.mayImport_withFiles]
      rfl

theorem refreshEdges_withFiles (file : FileId) :
    (s.withFiles files).refreshEdges file = (s.refreshEdges file).withFiles files := by
  rw [refreshEdges, refreshEdges, tree?_withFiles]
  cases s.tree? file with
  | none => rfl
  | some t =>
      simp only [funext (h.importTarget?_withFiles file)]
      rfl

omit h in
theorem foldl_refreshEdges_withFiles (row : List FileId) {s : Snapshot} (h : s.Extendable files) :
    row.foldl refreshEdges (s.withFiles files) = (row.foldl refreshEdges s).withFiles files := by
  induction row generalizing s with
  | nil => rfl
  | cons file row ih =>
      rw [List.foldl_cons, List.foldl_cons, h.refreshEdges_withFiles]
      exact ih (h.foldl_refreshEdges [file])

theorem refreshAround_withFiles (hlt : file < s.files.size) :
    (s.withFiles files).refreshAround file = (s.refreshAround file).withFiles files := by
  rw [refreshAround, refreshAround, h.concernedBy_withFiles hlt, foldl_refreshEdges_withFiles _ h]

/-! ## What is offered, and links -/

/-- Files import the same with further paths. -/
theorem sameImports_withFiles : SameImports s (s.withFiles files) where
  target := h.importTarget?_withFiles
  installed := rfl
  tree _ := .self fun _ _ => ⟨⟨rfl, fun _ _ => rfl⟩, fun _ _ => rfl⟩

theorem offered?_withFiles (follow : FileId → NodeId → Option Handle) (fresh : List FileId)
    (stops : List Stop) (name : String) (accept : Symbol → Bool) :
    (s.withFiles files).offered? follow fresh stops name accept =
      s.offered? follow fresh stops name accept := by
  rw [offered?, offered?, h.sameImports_withFiles.walk_eq]
  rfl

theorem exported?_withFiles : (s.withFiles files).exported? = s.exported? := by
  funext file name accept
  rw [exported?, exported?, h.offered?_withFiles, h.sameImports_withFiles.follow?_eq]
  rfl

theorem imported?_withFiles : (s.withFiles files).imported? = s.imported? := by
  funext visited file name accept
  rw [imported?, imported?, tree?_withFiles, h.sameImports_withFiles.follow?_eq]
  refine congrArg _ (funext fun t => ?_)
  rw [h.offered?_withFiles, h.sameImports_withFiles.stopsOf_eq rfl]
  rfl

/-- Paths that are only known change nothing that a name can stand for. -/
theorem forest_withFiles : (s.withFiles files).forest = s.forest := by
  simp only [forest, symbol?_withFiles, tree?_withFiles, h.importTarget?_withFiles,
    h.exported?_withFiles]

theorem targetOf?_withFiles (phase : Phase) (t : SymbolTree) (usage : NodeId) (u : Symbol) :
    (s.withFiles files).targetOf? maxDepth phase t usage u = s.targetOf? maxDepth phase t usage u := by
  have himported : (s.withFiles files).importedFor? t.file u = s.importedFor? t.file u :=
    h.sameImports_withFiles.importedFor?_eq t.file rfl
  cases phase with
  | imports => exact h.sameImports_withFiles.importTargetOf?_eq rfl usage rfl
  | names =>
      show (s.withFiles files).nameTargetOf? maxDepth t usage u = s.nameTargetOf? maxDepth t usage u
      rw [nameTargetOf?, nameTargetOf?, h.forest_withFiles, himported]
  | members =>
      show (s.withFiles files).memberTargetOf? maxDepth t usage u =
        s.memberTargetOf? maxDepth t usage u
      rw [memberTargetOf?, memberTargetOf?, h.forest_withFiles, h.imported?_withFiles]

/-- A phase finds the same links. -/
theorem linksIn_withFiles (phase : Phase) (file : FileId) :
    (s.withFiles files).linksIn maxDepth phase file = s.linksIn maxDepth phase file := by
  rw [linksIn, linksIn, tree?_withFiles]
  cases s.tree? file with
  | none => rfl
  | some t =>
      refine List.filterMap_congr fun usage _ => ?_
      simp only [linkFor?, h.targetOf?_withFiles, h.forest_withFiles]

omit h

theorem addLinks (h : s.Extendable files) (file : FileId) (links : List (NodeId × Handle)) :
    (s.addLinks file links).Extendable files :=
  addLinks_changes (P := (Extendable · files)) (fun file f _ h => h.modifyTree file f) links h

end Extendable

theorem addLink_withFiles (s : Snapshot) (files : PathTable) (file : FileId) (l : NodeId × Handle) :
    (s.withFiles files).addLink file l = (s.addLink file l).withFiles files := by
  rw [addLink, addLink, tree?_withFiles]
  cases s.tree? file with
  | none => rfl
  | some t =>
      simp only
      have hlinked : (s.withFiles files).modifyTree file (·.linkExternal l.1 l.2) =
          (s.modifyTree file (·.linkExternal l.1 l.2)).withFiles files := rfl
      rw [hlinked, symbol?_withFiles]
      split
      · rfl
      · rfl

theorem addLinks_withFiles (files : PathTable) (file : FileId) (links : List (NodeId × Handle))
    (s : Snapshot) :
    (s.withFiles files).addLinks file links = (s.addLinks file links).withFiles files := by
  induction links generalizing s with
  | nil => rfl
  | cons l links ih =>
      show ((s.withFiles files).addLink file l).addLinks file links = _
      rw [addLink_withFiles]
      exact ih (s.addLink file l)

namespace Extendable

/-- A phase is exhausted in the same way, and after the same number of links. -/
theorem exhaust_withFiles (h : s.Extendable files) (phase : Phase) (file : FileId) :
    (s.withFiles files).exhaust maxDepth phase file =
      ((s.exhaust maxDepth phase file).1.withFiles files, (s.exhaust maxDepth phase file).2) := by
  fun_induction exhaust maxDepth phase file s with
  | case1 s links hnil =>
      rw [exhaust, dif_pos (by rw [h.linksIn_withFiles]; exact hnil)]
  | case2 s links hne linked n heq ih =>
      rw [exhaust, dif_neg (by rw [h.linksIn_withFiles]; exact hne), h.linksIn_withFiles,
        addLinks_withFiles, ih (h.addLinks file links), heq]

theorem exhaust (h : s.Extendable files) (phase : Phase) (file : FileId) :
    (s.exhaust maxDepth phase file).1.Extendable files :=
  exhaust_batches (P := fun s => s.Extendable files) (fun _ h => h.addLinks file _) h

theorem linkRound_withFiles (h : s.Extendable files) (file : FileId) :
    (s.withFiles files).linkRound maxDepth file =
      ((s.linkRound maxDepth file).1.withFiles files, (s.linkRound maxDepth file).2) := by
  have himports : (s.exhaust maxDepth .imports file).1.Extendable files := h.exhaust .imports file
  have hnames := himports.addLinks file
    ((s.exhaust maxDepth .imports file).1.linksIn maxDepth .names file)
  simp only [linkRound, h.exhaust_withFiles, himports.linksIn_withFiles, addLinks_withFiles,
    hnames.exhaust_withFiles]

theorem linkRound (h : s.Extendable files) (file : FileId) :
    (s.linkRound maxDepth file).1.Extendable files :=
  ((h.exhaust .imports file).addLinks file _).exhaust .members file

/-- A file is linked alike with further paths. -/
theorem linkFile_withFiles (h : s.Extendable files) (file : FileId) :
    (s.withFiles files).linkFile maxDepth file =
      ((s.linkFile maxDepth file).1.withFiles files, (s.linkFile maxDepth file).2) := by
  fun_induction linkFile maxDepth file s with
  | case1 s r hzero =>
      rw [linkFile, dif_pos (by rw [h.linkRound_withFiles]; exact hzero), h.linkRound_withFiles]
  | case2 s r hne linked n heq ih =>
      rw [linkFile, dif_neg (by rw [h.linkRound_withFiles]; exact hne), h.linkRound_withFiles]
      have hlinked := ih (h.linkRound file)
      rw [heq] at hlinked
      exact congrArg (fun p : Snapshot × Nat => (p.1, r.2 + p.2)) hlinked

theorem linkFile (h : s.Extendable files) (file : FileId) :
    (s.linkFile maxDepth file).1.Extendable files :=
  linkFile_batches (P := fun s => s.Extendable files) (fun _ _ h => h.addLinks file _) h

/-- Files are linked in the same way. -/
theorem linkAll_withFiles (h : s.Extendable files) (row : List FileId) :
    Workspace.linkAll maxDepth row (s.withFiles files) =
      (Workspace.linkAll maxDepth row s).withFiles files := by
  induction row generalizing s with
  | nil => rfl
  | cons file row ih =>
      rw [Workspace.linkAll, List.foldl_cons, h.linkFile_withFiles]
      exact ih (h.linkFile file)

end Extendable

/-! ## Taking back links -/

theorem unlinkIn_withFiles (g : LinkGraph) (file : FileId) (s : Snapshot) (files : PathTable) :
    g.unlinkIn file (s.withFiles files) = (g.unlinkIn file s).withFiles files := by
  have hfold : ∀ (targets : List FileId) (s : Snapshot),
      targets.foldl (fun s target => s.modifyTree target (·.dropReferencesFrom file))
          (s.withFiles files) =
        (targets.foldl (fun s target => s.modifyTree target (·.dropReferencesFrom file)) s).withFiles
          files := by
    intro targets
    induction targets with
    | nil => exact fun _ => rfl
    | cons target targets ih => exact fun s => ih (s.modifyTree target (·.dropReferencesFrom file))
  exact hfold (g.targets file) (s.modifyTree file SymbolTree.unlinkExternal)

/-- Files are detached alike with further paths. -/
theorem detachAll_withFiles (row : List FileId) (g : LinkGraph) (s : Snapshot) (files : PathTable) :
    g.detachAll row (s.withFiles files) =
      ((g.detachAll row s).1, (g.detachAll row s).2.withFiles files) := by
  induction row generalizing g s with
  | nil => rfl
  | cons file row ih =>
      rw [LinkGraph.detachAll_cons, LinkGraph.detachAll_cons, unlinkIn_withFiles, ih]

theorem Extendable.detachAll (h : s.Extendable files) (g : LinkGraph) (row : List FileId) :
    (g.detachAll row s).2.Extendable files :=
  detachAll_changes (P := (Extendable · files)) (fun file f _ h => h.modifyTree file f) g row h

/-! ## Another tree -/

/-- A tree is installed alike with further paths. -/
theorem Extendable.install (h : s.Extendable files) {t : SymbolTree} (hlt : t.file < s.files.size) :
    (s.withFiles files).install t = (s.install t).withFiles files ∧
      (s.install t).Extendable files := by
  have hinserted : ({ s with trees := s.trees.insert t.file t } : Snapshot).Extendable files := by
    refine ⟨fun other hother => ?_, h.paths⟩
    rw [isInstalled_eq, tree?, FileMap.get?_insert] at hother
    split at hother
    · rename_i heq
      exact heq ▸ hlt
    · exact h.known other hother
  exact ⟨hinserted.refreshAround_withFiles hlt, hinserted.foldl_refreshEdges _⟩

theorem Extendable.uninstall (h : s.Extendable files) (hlt : file < s.files.size) :
    (s.withFiles files).uninstall file = (s.uninstall file).withFiles files ∧
      (s.uninstall file).Extendable files := by
  have herased : ({ s with trees := s.trees.erase file } : Snapshot).Extendable files := by
    refine h.congr rfl fun other hother => ?_
    rw [isInstalled_eq, tree?, FileMap.get?_erase] at hother
    split at hother
    · cases hother
    · exact hother
  exact ⟨herased.refreshAround_withFiles hlt, herased.foldl_refreshEdges _⟩

end Snapshot

namespace Workspace

variable {w w' : Workspace} {file : FileId} {tree : Option SymbolTree}

section Known

variable (hextendable : (w.snapshot.withFiles w.files).Extendable w'.files)
  (htree : ∀ t, tree = some t → t.file = file) (hlt : file < w.files.size)

include hextendable htree hlt

/-- A file is swapped alike in workspaces that differ in further paths. -/
theorem swapped_of_known (hsnapshot : w'.snapshot = w.snapshot) :
    w'.swapped file tree = (w.swapped file tree).withFiles w'.files ∧
      (w.swapped file tree).Extendable w'.files := by
  cases tree with
  | none =>
      have hswapped : w'.swapped file none =
          ((w.snapshot.withFiles w.files).withFiles w'.files).uninstall file := by
        rw [← hsnapshot]
        rfl
      exact hswapped ▸ hextendable.uninstall hlt
  | some t =>
      have hswapped : w'.swapped file (some t) =
          ((w.snapshot.withFiles w.files).withFiles w'.files).install t := by
        rw [← hsnapshot]
        rfl
      have hfile : t.file < w.files.size := htree t rfl ▸ hlt
      exact hswapped ▸ hextendable.install hfile

/-- A replacement does the same when more paths are known. -/
theorem replace_of_known (hconfig : w'.config = w.config) (hlinks : w'.links = w.links)
    (hsnapshot : w'.snapshot = w.snapshot) :
    w'.replace file tree =
      { w' with
        links := (w.replace file tree).links
        snapshot := (w.replace file tree).snapshot.withFiles w'.files } := by
  obtain ⟨hswapped, hready⟩ := swapped_of_known hextendable htree hlt hsnapshot
  have hothers : w'.others file tree = w.others file tree := by
    have hedges : ((w.swapped file tree).withFiles w'.files).edges = (w.swapped file tree).edges := rfl
    rw [others, others, hswapped, hlinks, affected, affected, Snapshot.importersOf_congr hedges]
  have hdetached : w'.detached file tree =
      ((w.detached file tree).1, (w.detached file tree).2.withFiles w'.files) := by
    rw [detached, detached, hswapped, hothers, hlinks, Snapshot.detachAll_withFiles]
  have hrelinked : w'.relinked file tree = (w.relinked file tree).withFiles w'.files := by
    rw [relinked, relinked, hdetached, hothers, hconfig]
    exact (hready.detachAll _ _).linkAll_withFiles _
  rw [replace_eq, replace_eq, hrelinked, hothers, hdetached]
  rfl

end Known

end Workspace

end SolidityAtlas

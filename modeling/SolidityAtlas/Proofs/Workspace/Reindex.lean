import SolidityAtlas.Proofs.Import.Target
import SolidityAtlas.Proofs.Workspace.Importers
import SolidityAtlas.Proofs.Workspace.Relink
import SolidityAtlas.Proofs.Workspace.Session

/-!
# Indexing a text again

If the text that a file has already is indexed once more, the tree of the file is read
anew, and the links of the file and of all files that this can concern are made again.
The new tree is the old one without its links from outside, apart from its generation.
So all that happens to the links is that they are taken back and made again, in the
order in which the workspace goes through the files.

That is no guarantee that they are the same afterwards. The importers are linked the
nearest first and otherwise by their numbers, so a file can be linked before another
file whose links it needs. `Workspace.sameLinks_index_iff` says exactly when nothing
changes.

## Main Definitions

* `Workspace.indexEach`: texts indexed one after the other
* `Workspace.lastText?`: the text that a path was given last

## Main Results

* `Workspace.sameLinks_index_iff`
-/

namespace SolidityAtlas

/-! ## Imports are decided by outlines -/

namespace Snapshot

/-- Two snapshots with the same imports, whose trees have the same outlines. -/
structure SameShape (s s' : Snapshot) : Prop where
  files : s'.files = s.files
  remappings : s'.remappings = s.remappings
  edges : s'.edges = s.edges
  tree : ∀ file, Option.Rel (fun t u : SymbolTree => t.outline = u.outline) (s.tree? file)
    (s'.tree? file)

namespace SameShape

variable {s s' : Snapshot} (h : SameShape s s')

include h

theorem isInstalled : s'.isInstalled = s.isInstalled := by
  funext f
  rw [Snapshot.isInstalled, Snapshot.isInstalled, FileMap.contains, FileMap.contains]
  exact (h.tree f).isSome_eq.symm

theorem importTarget?_eq (file : FileId) (directive : NodeId) :
    s'.importTarget? file directive = s.importTarget? file directive := by
  refine importTarget?_congr h.files h.remappings h.isInstalled ?_ directive
  have htrees := h.tree file
  cases ht : s.tree? file with
  | none =>
      rw [ht] at htrees
      rw [htrees.eq_none]
  | some t =>
      obtain ⟨u, hu, houtline⟩ := htrees.exists_right ht
      rw [hu, Option.map_some, Option.map_some, houtline]

/-- Edges are refreshed alike. -/
theorem refreshEdges (file : FileId) : SameShape (s.refreshEdges file) (s'.refreshEdges file) := by
  have htrees := h.tree file
  have htarget : s'.importTarget? file = s.importTarget? file := by
    funext directive
    exact h.importTarget?_eq file directive
  refine ⟨?_, ?_, ?_, fun f => ?_⟩
  · unfold Snapshot.refreshEdges
    split <;> split <;> exact h.files
  · unfold Snapshot.refreshEdges
    split <;> split <;> exact h.remappings
  · unfold Snapshot.refreshEdges
    cases ht : s.tree? file with
    | none =>
        rw [ht] at htrees
        rw [htrees.eq_none]
        exact congrArg (·.erase file) h.edges
    | some t =>
        obtain ⟨u, hu, houtline⟩ := htrees.exists_right ht
        rw [hu]
        simp only [h.edges, htarget, SymbolTree.imports_congr houtline]
  · rw [tree?, tree?, trees_refreshEdges, trees_refreshEdges]
    exact h.tree f

theorem foldl_refreshEdges (files : List FileId) :
    SameShape (files.foldl Snapshot.refreshEdges s) (files.foldl Snapshot.refreshEdges s') := by
  induction files generalizing s s' with
  | nil => exact h
  | cons file files ih => exact ih (h.refreshEdges file)

/-- The same files are concerned. -/
theorem concernedBy_eq (file : FileId) : s'.concernedBy file = s.concernedBy file := by
  have hmay : s'.mayImport = s.mayImport := by
    funext path other
    have htrees := h.tree other
    rw [mayImport, mayImport, h.files, h.remappings]
    cases ht : s.tree? other with
    | none =>
        rw [ht] at htrees
        rw [htrees.eq_none]
    | some t =>
        obtain ⟨u, hu, houtline⟩ := htrees.exists_right ht
        have hpaths : importPath? u = importPath? t := by
          funext directive
          exact importPath?_congr houtline.symm directive
        rw [hu]
        cases s.files.path? other with
        | none => rfl
        | some importer => simp only [hpaths, SymbolTree.imports_congr houtline]
  have hinstalled : s'.installed = s.installed :=
    (FileMap.keys_eq fun f => (h.tree f).isSome_eq).symm
  rw [concernedBy, concernedBy, h.files, hinstalled, hmay]

end SameShape

/-- Trees with one outline bring the same imports into a snapshot. -/
theorem sameShape_install (s : Snapshot) {t u : SymbolTree} (houtline : t.outline = u.outline) :
    SameShape (s.install t) (s.install u) := by
  have hfile := SymbolTree.file_congr houtline
  have hshape : SameShape { s with trees := s.trees.insert t.file t }
      { s with trees := s.trees.insert t.file u } := by
    refine ⟨rfl, rfl, rfl, fun f => ?_⟩
    rw [tree?, tree?, FileMap.get?_insert, FileMap.get?_insert]
    split
    · exact .some houtline
    · exact .self fun _ _ => rfl
  rw [install, install, refreshAround, refreshAround, ← hfile, hshape.concernedBy_eq]
  exact hshape.foldl_refreshEdges _

end Snapshot

namespace Workspace

variable {w : Workspace} {file : FileId}

variable (file) in
/-- The files to be linked again do not depend on which of two trees with one outline comes. -/
theorem others_congr {t u : SymbolTree} (houtline : t.outline = u.outline) :
    w.others file (some t) = w.others file (some u) := by
  have hshape := Snapshot.sameShape_install { w.snapshot with files := w.files } houtline
  have hedges : (w.swapped file (some u)).edges = (w.swapped file (some t)).edges := hshape.edges
  rw [others, others, affected, affected, Snapshot.importersOf_congr hedges]

variable (file) in
/-- No file is linked again twice. -/
theorem Sound.nodup_others (h : w.Sound) (tree : Option SymbolTree) :
    (file :: w.others file tree).Nodup := by
  refine List.nodup_cons.2 ⟨fun hmem => ((w.mem_others file tree).1 hmem).1 rfl, ?_⟩
  refine List.Pairwise.filter _ (List.nodup_append.2 ⟨Snapshot.nodup_importersOf file, ?_, ?_⟩)
  · refine List.Pairwise.filter _ ((perm_ascending _).nodup_iff.2 ?_)
    exact (h.links.nodup file).filter _
  · rintro a ha b hb rfl
    have hnot := (List.mem_filter.1 hb).2
    simp only [List.contains_eq_mem, ha, decide_true, Bool.not_true] at hnot
    cases hnot

end Workspace

/-! ## A tree that reads like the one before -/

/-- Refreshing edges changes neither paths nor remappings. -/
theorem Snapshot.files_foldl_refreshEdges (files : List FileId) (s : Snapshot) :
    (files.foldl refreshEdges s).files = s.files ∧
      (files.foldl refreshEdges s).remappings = s.remappings := by
  induction files generalizing s with
  | nil => exact ⟨rfl, rfl⟩
  | cons file files ih =>
      have hstep : (s.refreshEdges file).files = s.files ∧
          (s.refreshEdges file).remappings = s.remappings := by
        unfold refreshEdges
        split
        · exact ⟨rfl, rfl⟩
        · exact ⟨rfl, rfl⟩
      obtain ⟨hfiles, hremappings⟩ := ih (s.refreshEdges file)
      exact ⟨hfiles.trans hstep.1, hremappings.trans hstep.2⟩

namespace Workspace

variable {w : Workspace} {file : FileId} {tree : Option SymbolTree}

/-- A swap changes neither paths nor remappings. -/
theorem files_swapped (w : Workspace) (file : FileId) (tree : Option SymbolTree) :
    (w.swapped file tree).files = w.files ∧
      (w.swapped file tree).remappings = w.snapshot.remappings := by
  cases tree with
  | none => exact Snapshot.files_foldl_refreshEdges _ _
  | some t => exact Snapshot.files_foldl_refreshEdges _ _

/-- Apart from links from outside, a replacement changes the tree of the file only. -/
theorem Sound.readAlike_replace (h : w.Sound)
    (htree : ∀ t, tree = some t → t.Grown (fun _ => False) ∧ t.file = file) (other : FileId) :
    Option.Rel SymbolTree.ReadAlike (if other = file then tree else w.snapshot.tree? other)
      ((w.replace file tree).snapshot.tree? other) := by
  have hswapped := tree?_swapped (w := w) (fun t ht => (htree t ht).2) other
  have hdetached := (w.links.forgetDependents file).tree?_detachAll_rel (file :: w.others file tree)
    (w.swapped file tree) other
  have hlinked := (h.cleared htree).sound.tree?_linkAll_rel w.config.maxDepth
    (h.nodup_others file tree) other
  rw [hswapped] at hdetached
  rw [replace_eq]
  show Option.Rel SymbolTree.ReadAlike _ ((w.relinked file tree).tree? other)
  refine hdetached.comp hlinked fun t t' t'' ht ht' => ?_
  have hleft : t.ReadAlike t' := by
    split at ht
    · exact ht.readAlike
    · exact ht.readAlike
  have hright : t'.ReadAlike t'' := by
    split at ht'
    · exact ht'.readAlike
    · exact ht'.readAlike
  exact hleft.trans hright

/-- A replacement brings no other paths and no other remappings than those there are. -/
theorem Sound.files_replace (h : w.Sound)
    (htree : ∀ t, tree = some t → t.Grown (fun _ => False) ∧ t.file = file) :
    (w.replace file tree).snapshot.files = w.files ∧
      (w.replace file tree).snapshot.remappings = w.snapshot.remappings := by
  have hlinked := (h.relinked htree).2.imports
  have hdetached := Snapshot.imports_detachAll (w.links.forgetDependents file)
    (file :: w.others file tree) (w.swapped file tree)
  have hswapped := files_swapped w file tree
  rw [replace_eq]
  exact ⟨hlinked.1.trans (hdetached.1.trans hswapped.1),
    hlinked.2.1.trans (hdetached.2.1.trans hswapped.2)⟩

/-- Whether a file finds the links that it has when the links of some files, its own among them,
are taken back and it is linked again. -/
def Finds (w : Workspace) (file : FileId) (unlinked : List FileId) : Prop :=
  Option.Rel SymbolTree.SameLinks (w.snapshot.tree? file)
    (((w.links.unlinkAll unlinked w.snapshot).linkFile w.config.maxDepth file).1.tree? file)

/-- When a tree comes that reads like the one before, the snapshot in which the links have been
taken back looks as if the tree had stayed. -/
theorem Sound.mirrors_detached (h : w.Sound) (hfiles : w.snapshot.files = w.files)
    {t u : SymbolTree} (ht : w.snapshot.tree? file = some t) (hu : u.Grown fun _ => False)
    (halike : t.ReadAlike u) :
    Snapshot.Mirrors (fun _ => True)
      (w.links.unlinkAll (file :: w.others file (some t)) w.snapshot)
      (w.detached file (some u)).2 := by
  have hfile : u.file = file :=
    (SymbolTree.file_congr halike.outline).symm.trans (h.snapshot.home file t ht)
  have htree : ∀ v, some u = some v → v.Grown (fun _ => False) ∧ v.file = file := by
    rintro v ⟨⟩
    exact ⟨hu, hfile⟩
  have horder := w.others_congr file halike.outline
  have hfiles' := Snapshot.imports_detachAll (w.links.forgetDependents file)
    (file :: w.others file (some u)) (w.swapped file (some u))
  have hleft := Snapshot.imports_detachAll w.links (file :: w.others file (some t)) w.snapshot
  have hswapped := files_swapped w file (some u)
  refine ⟨h.snapshot.unlinkAll h.links (fun _ _ hM => hM) _, (h.cleared htree).sound, ?_, ?_,
    fun f => ?_⟩
  · exact hfiles'.1.trans (hswapped.1.trans (hfiles.symm.trans hleft.1.symm))
  · exact hfiles'.2.1.trans (hswapped.2.trans hleft.2.1.symm)
  · have hold := w.links.tree?_detachAll_rel (file :: w.others file (some t)) w.snapshot f
    have hnew := (w.links.forgetDependents file).tree?_detachAll_rel
      (file :: w.others file (some u)) (w.swapped file (some u)) f
    rw [tree?_swapped fun v hv => (htree v hv).2, ← horder] at hnew
    rw [LinkGraph.unlinkAll, detached, ← horder]
    by_cases hf : f = file
    · have hmem : f ∈ file :: w.others file (some t) := List.mem_cons.2 (.inl hf)
      obtain ⟨t', ht', hback⟩ := hold.exists_right ((congrArg _ hf).trans ht)
      obtain ⟨u', hu', hback'⟩ := hnew.exists_right (if_pos hf)
      rw [if_pos hmem] at hback hback'
      rw [ht', hu']
      obtain ⟨hmirrors, hpending⟩ := halike.mirrors_of_unlinked
        (h.snapshot.tidy file t ht).nodup_pending hu.tidy.nodup_pending hback hback'
      exact .some ⟨hmirrors, fun _ => hpending⟩
    · rw [if_neg hf] at hnew
      refine (hold.imp_some fun v _ hv _ hback =>
        And.intro hback (h.snapshot.tidy f v hv).nodup_pending).flip.comp hnew ?_
      intro v' v v'' hv hv'
      obtain ⟨hback, hnodup⟩ := hv
      split at hback
      · rw [if_pos ‹_›] at hv'
        obtain ⟨hmirrors, hpending⟩ :=
          (SymbolTree.ReadAlike.refl v).mirrors_of_unlinked hnodup hnodup hback hv'
        exact ⟨hmirrors, fun _ => hpending⟩
      · rw [if_neg ‹_›] at hv'
        exact ⟨hback.mirrors.symm.trans hv'.mirrors, fun _ => hback.pending.trans hv'.pending.symm⟩

/-- When a tree comes that reads like the one before, all links are the same afterwards if and
only if each file that is linked again finds its links while the files behind it have none. -/
theorem Sound.sameLinks_replace_iff (h : w.Sound) (hfiles : w.snapshot.files = w.files)
    {t u : SymbolTree} (ht : w.snapshot.tree? file = some t) (hu : u.Grown fun _ => False)
    (halike : t.ReadAlike u) :
    w.snapshot.SameLinks (w.replace file (some u)).snapshot ↔
      ∀ done f rest, file :: w.others file (some t) = done ++ f :: rest → w.Finds f (f :: rest) := by
  have hmirrors : Snapshot.Mirrors (fun _ => True)
      (linkAll w.config.maxDepth (file :: w.others file (some t)) _)
      (linkAll w.config.maxDepth (file :: w.others file (some t)) _) :=
    (h.mirrors_detached hfiles ht hu halike).linkAll w.config.maxDepth fun _ _ => trivial
  have hagain := h.snapshot.sameLinks_linkAll_iff h.links (fun _ _ hM => hM) w.config.maxDepth
    (h.nodup_others file (some t))
  have hnew : (w.replace file (some u)).snapshot =
      linkAll w.config.maxDepth (file :: w.others file (some t)) (w.detached file (some u)).2 := by
    rw [replace_eq, others_congr file halike.outline]
    rfl
  rw [hnew]
  refine Iff.trans (forall_congr' fun f => ?_) hagain
  have htree := hmirrors.tree f
  constructor
  · intro hsame
    exact hsame.comp htree.flip fun _ _ _ hv hv' =>
      ⟨fun id => (hv.link id).trans (hv'.1.link id).symm, fun id => by
        rw [hv.pending, hv'.2 trivial]⟩
  · intro hsame
    exact hsame.comp htree fun _ _ _ hv hv' =>
      ⟨fun id => (hv.link id).trans (hv'.1.link id), fun id => by rw [hv.pending, hv'.2 trivial]⟩

end Workspace

/-! ## Texts one after the other -/

/-- Two readings of one text are the same by places. -/
theorem SymbolTree.readAlike_grow (maxDepth file generation generation' : Nat) (m : LineMap)
    (tree : SyntaxTree) :
    ReadAlike (grow maxDepth file generation m tree) (grow maxDepth file generation' m tree) := by
  have htwin := twin_grow maxDepth file generation generation' m tree
  have hexternal := (grown_grow maxDepth file generation' m tree).external
  refine ⟨htwin.agree.outline, fun id => ?_, fun id => ?_⟩
  · rw [innerLink?_of_external htwin.external, innerLink?_of_external hexternal]
    exact (htwin.agree.declaration?_rel id).map_eq fun _ _ hplace =>
      Prod.ext hplace.file hplace.node
  · rw [htwin.pending, htwin.external, hexternal]

namespace Workspace

/-- The workspace after texts, each with its path, have been indexed one after the other. -/
def indexEach (config : Config) (texts : List (String × String)) : Workspace :=
  texts.foldl (fun w e => (w.index e.1 e.2).2) (empty config)

/-- The text that a path was given last. -/
def lastText? (texts : List (String × String)) (path : String) : Option String :=
  (texts.reverse.find? fun e => Path.normalize e.1 == Path.normalize path).map (·.2)

/-- What a file of a workspace is known to have been read from. -/
structure ReadFrom (maxDepth : Nat) (tolerant : Bool) (file : FileId) (text : String)
    (t : SymbolTree) : Prop where
  accepted : ((parse text).faults.isEmpty || tolerant) = true
  alike : ∀ generation, t.ReadAlike (.grow maxDepth file generation (.ofText text) (parse text).tree)

/-- What a workspace is like after texts have been indexed. -/
structure Indexed (config : Config) (texts : List (String × String)) (w : Workspace) : Prop where
  sound : w.Sound
  settings : w.config = config
  files : w.snapshot.files = w.files
  read : ∀ path file t, w.files.fileId? path = some file → w.snapshot.tree? file = some t →
    ∃ text, lastText? texts path = some text ∧
      ReadFrom config.maxDepth config.toleratesFaults file text t

variable {w : Workspace} {file : FileId}

/-- The tree that a text brings for the file at a path, if the workspace accepts the text. -/
def brings? (w : Workspace) (path text : String) : Option SymbolTree :=
  let p := (w.prepare path text).1
  if p.faults.isEmpty || w.config.toleratesFaults then some p.tree else none

/-- Indexing a text replaces the tree of the file by the one that the text brings. -/
theorem index_eq (w : Workspace) (path text : String) :
    (w.index path text).2 =
      (w.reserve path).2.replace (w.files.intern path).1 (w.brings? path text) := by
  have hrequested : (w.reserve path).2.requested.get? (w.prepare path text).1.file =
      some (w.prepare path text).1.generation :=
    (FileMap.get?_insert _ _ _ _).trans (if_pos rfl)
  show ((w.reserve path).2.install (w.prepare path text).1).2 = _
  unfold install
  have hconfig : (w.reserve path).2.config = w.config := rfl
  rw [if_neg (not_not_intro hrequested), hconfig]
  by_cases haccepted : ((w.prepare path text).1.faults.isEmpty || w.config.toleratesFaults) = true
  · have hbrings : w.brings? path text = some (w.prepare path text).1.tree := if_pos haccepted
    rw [if_pos haccepted, hbrings]
    rfl
  · have hbrings : w.brings? path text = none := if_neg haccepted
    rw [if_neg haccepted, hbrings]
    rfl

/-- A text brings in a tree if it is clean, or faults are tolerated. -/
theorem brings?_eq_some {t : SymbolTree} {path text : String} (ht : w.brings? path text = some t) :
    ((parse text).faults.isEmpty || w.config.toleratesFaults) = true ∧
      t = .grow w.config.maxDepth (w.files.intern path).1 w.nextGeneration (.ofText text)
        (parse text).tree := by
  rw [brings?] at ht
  split at ht
  · rename_i haccepted
    exact ⟨haccepted, (Option.some.inj ht).symm⟩
  · cases ht

/-- A request leaves a workspace sound. -/
theorem sound_request (h : w.Sound) (file : FileId) : (w.request file).2.Sound :=
  ⟨h.snapshot, h.links⟩

theorem sound_reserve (h : w.Sound) (path : String) : (w.reserve path).2.Sound :=
  ⟨h.snapshot, h.links⟩

/-- No path gets a number when a file that has one is read again. -/
theorem reserve_of_fileId? {path : String} (h : w.files.fileId? path = some file) :
    w.reserve path = ((file, w.nextGeneration), (w.request file).2) := by
  rw [reserve, PathTable.intern_of_fileId? h]
  rfl

/-- Nothing has been indexed at the start. -/
theorem indexed_nil (config : Config) : Indexed config [] (empty config) :=
  ⟨sound_empty config, rfl, rfl, fun _ _ _ _ ht => nomatch ht⟩

/-- The last text of a path is the last one whose path has the same normal form. -/
theorem lastText?_append_singleton (texts : List (String × String)) (path text other : String) :
    lastText? (texts ++ [(path, text)]) other =
      if Path.normalize path = Path.normalize other then some text else lastText? texts other := by
  rw [lastText?, List.reverse_append, List.reverse_singleton, List.singleton_append, List.find?_cons]
  split
  · rename_i heq
    rw [if_pos (eq_of_beq heq)]
    rfl
  · rename_i hne
    rw [if_neg (ne_of_beq_false hne)]
    rfl

/-- Indexing a text adds it to what has been indexed. -/
theorem Indexed.index {config : Config} {texts : List (String × String)}
    (h : Indexed config texts w) (path text : String) :
    Indexed config (texts ++ [(path, text)]) (w.index path text).2 := by
  have hsound := sound_reserve h.sound path
  have hgrown : ∀ t, w.brings? path text = some t →
      t.Grown (fun _ => False) ∧ t.file = (w.files.intern path).1 := by
    intro t ht
    rw [(brings?_eq_some ht).2]
    exact ⟨SymbolTree.grown_grow _ _ _ _ _, (SymbolTree.label_grow _ _ _ _ _).1⟩
  rw [index_eq]
  refine ⟨hsound.replace hgrown, h.settings, (hsound.files_replace hgrown).1,
    fun other file t hfile ht => ?_⟩
  have halike := hsound.readAlike_replace hgrown file
  rw [ht] at halike
  rw [lastText?_append_singleton]
  rcases PathTable.fileId?_intern hfile with ⟨rfl, hsame⟩ | ⟨hne, hother, hold⟩
  · rw [if_pos rfl] at halike
    obtain ⟨u, hu, hread⟩ := halike.flip.exists_right rfl
    obtain ⟨haccepted, hgrow⟩ := brings?_eq_some hu
    rw [if_pos hsame.symm]
    rw [h.settings] at haccepted hgrow
    refine ⟨text, rfl, haccepted, fun generation => hread.symm.trans ?_⟩
    rw [hgrow]
    exact SymbolTree.readAlike_grow _ _ _ _ _ _
  · rw [if_neg hne] at halike
    obtain ⟨u, hu, hread⟩ := halike.flip.exists_right rfl
    obtain ⟨last, hlast, haccepted, hgrow⟩ := h.read other file u hold hu
    rw [if_neg hother.symm]
    exact ⟨last, hlast, haccepted, fun generation => hread.symm.trans (hgrow generation)⟩

/-- Texts that are indexed one by one have been indexed. -/
theorem indexed_indexEach (config : Config) (texts : List (String × String)) :
    Indexed config texts (indexEach config texts) := by
  induction texts using List.reverseRecOn with
  | nil => exact indexed_nil config
  | append_singleton texts e ih =>
      have hstep : indexEach config (texts ++ [e]) = ((indexEach config texts).index e.1 e.2).2 :=
        List.foldl_append
      rw [hstep]
      exact ih.index e.1 e.2

/-- When the text that a file has is indexed again, all links are the same afterwards if and only
if each file that is linked again, in its turn, finds the links that it has while the files behind
it have none. -/
theorem sameLinks_index_iff (config : Config) (texts : List (String × String)) {path text : String}
    {file : FileId} (hfile : (indexEach config texts).files.fileId? path = some file)
    (hinstalled : (indexEach config texts).snapshot.isInstalled file = true)
    (htext : lastText? texts path = some text) :
    (indexEach config texts).snapshot.SameLinks
        ((indexEach config texts).index path text).2.snapshot ↔
      ∀ done f rest, file :: (indexEach config texts).others file
          ((indexEach config texts).snapshot.tree? file) = done ++ f :: rest →
        (indexEach config texts).Finds f (f :: rest) := by
  have h := indexed_indexEach config texts
  generalize indexEach config texts = w at hfile hinstalled h
  obtain ⟨t, ht⟩ := Option.isSome_iff_exists.1 hinstalled
  obtain ⟨last, hlast, haccepted, halike⟩ := h.read path file t hfile ht
  rw [htext] at hlast
  cases hlast
  have hintern := congrArg Prod.fst (PathTable.intern_of_fileId? hfile)
  have hbrings : w.brings? path text =
      some (.grow w.config.maxDepth file w.nextGeneration (.ofText text) (parse text).tree) := by
    rw [brings?, if_pos (h.settings ▸ haccepted)]
    show some (SymbolTree.grow _ (w.files.intern path).1 _ _ _) = _
    rw [hintern]
  rw [← h.settings] at halike
  rw [index_eq, hbrings, hintern, reserve_of_fileId? hfile, show w.snapshot.tree? file = some t from ht]
  exact (sound_request h.sound file).sameLinks_replace_iff h.files ht
    (SymbolTree.grown_grow _ _ _ _ _) (halike w.nextGeneration)

/-- A contract in the first file uses a type that comes from the second file by way of a base in
the third. No file imports itself, directly or over others. -/
def detour : List (String × String) :=
  [("C.sol", "import \"./A.sol\"; import \"./B.sol\"; contract Leaf is Mid \x7b S s; \x7d"),
    ("A.sol", "contract Base \x7b enum S \x7b V \x7d \x7d"),
    ("B.sol", "import \"./A.sol\"; contract Mid is Base \x7b\x7d")]

/-- After `detour` the link of a use is there, and after `A.sol` has been indexed again it is
gone. -/
theorem index_detour :
    (((∀ e ∈ detour, (parse e.2).faults.isEmpty) ∧
        (List.range 3).map (indexEach .default detour).snapshot.importedFiles = [[1, 2], [], [1]] ∧
        lastText? detour "A.sol" = some "contract Base \x7b enum S \x7b V \x7d \x7d") ∧
      (indexEach .default detour).files.fileId? "A.sol" = some 1 ∧
      (indexEach .default detour).snapshot.isInstalled 1 = true) ∧
    ((indexEach .default detour).snapshot.tree? 0).any (fun t => (t.linkOf? 8).isSome) = true ∧
    (((indexEach .default detour).index "A.sol"
      "contract Base \x7b enum S \x7b V \x7d \x7d").2.snapshot.tree? 0).any
      (fun t => (t.linkOf? 8).isNone) = true := by
  decide +kernel

/-- When the second file is indexed again, the use is linked no longer: both other files import the
second directly, so the first one is linked before the third, which has no links yet. -/
theorem not_sameLinks_index_detour :
    ((∀ e ∈ detour, (parse e.2).faults.isEmpty) ∧
      (List.range 3).map (indexEach .default detour).snapshot.importedFiles = [[1, 2], [], [1]] ∧
      lastText? detour "A.sol" = some "contract Base \x7b enum S \x7b V \x7d \x7d") ∧
    ¬ (indexEach .default detour).snapshot.SameLinks
      ((indexEach .default detour).index "A.sol"
        "contract Base \x7b enum S \x7b V \x7d \x7d").2.snapshot := by
  obtain ⟨hinput, hlinked, hgone⟩ := index_detour
  refine ⟨hinput.1, fun hsame => ?_⟩
  obtain ⟨t, ht, hsome⟩ := (Option.any_eq_true _ _).1 hlinked
  obtain ⟨u, hu, hnone⟩ := (Option.any_eq_true _ _).1 hgone
  obtain ⟨u', hu', hlinks⟩ := (hsame 0).exists_right ht
  rw [hu] at hu'
  cases hu'
  have hplaces := congrArg Option.isSome (hlinks.link 8)
  rw [Option.isSome_map, Option.isSome_map, hsome, ← Option.not_isNone, hnone] at hplaces
  cases hplaces

/-- The premises of the exact condition hold of that input. -/
theorem sameLinks_index_detour_iff :
    ((indexEach .default detour).files.fileId? "A.sol" = some 1 ∧
      (indexEach .default detour).snapshot.isInstalled 1 = true) ∧
    ((indexEach .default detour).snapshot.SameLinks
        ((indexEach .default detour).index "A.sol"
          "contract Base \x7b enum S \x7b V \x7d \x7d").2.snapshot ↔
      ∀ done f rest, 1 :: (indexEach .default detour).others 1
          ((indexEach .default detour).snapshot.tree? 1) = done ++ f :: rest →
        (indexEach .default detour).Finds f (f :: rest)) := by
  obtain ⟨⟨⟨-, -, htext⟩, hfile, hinstalled⟩, -⟩ := index_detour
  exact ⟨⟨hfile, hinstalled⟩, sameLinks_index_iff _ _ hfile hinstalled htext⟩

end Workspace

end SolidityAtlas

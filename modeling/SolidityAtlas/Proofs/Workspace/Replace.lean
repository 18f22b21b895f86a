import SolidityAtlas.Proofs.Workspace.Linking

/-!
# Another tree for a file

When the tree of a file comes, changes or goes, a workspace swaps the tree, takes
back the links of the file and of all files that this can concern, links them again,
and notes who links into whom.

The tree is swapped before links are taken back, so in between there are handles that
find nothing. The steps commute, however: taking back links changes each tree by
itself. So the snapshot that is linked again is one from which first the links were
taken back, all handles being good, and in which then a tree was swapped that no link
leads into or out of (`Sound.detached`).

## Main Definitions

* `Workspace.Sound`: the snapshot is sound, and the link graph says what is linked
* `Workspace.swapped`, `Workspace.others`, `Workspace.detached`: the steps of `replace`

## Main Results

* `Workspace.replace_eq`: `replace` by its steps
* `Workspace.Sound.replace`: what `replace` keeps
-/

namespace SolidityAtlas

/-! ## Taking back the links of many files -/

namespace LinkGraph

variable {g : LinkGraph}

/-- Files are detached one after the other. -/
theorem detachAll_cons (g : LinkGraph) (file : FileId) (files : List FileId) (s : Snapshot) :
    g.detachAll (file :: files) s = (g.forget file).detachAll files (g.unlinkIn file s) := rfl

/-- What detaching leaves noted does not depend on the trees. -/
theorem fst_detachAll (g : LinkGraph) (files : List FileId) (s s' : Snapshot) :
    (g.detachAll files s).1 = (g.detachAll files s').1 := by
  induction files generalizing g s s' with
  | nil => rfl
  | cons file files ih => exact ih _ _ _

end LinkGraph

/-- One tree is another that is not linked to others yet, with the same symbols. -/
structure SymbolTree.Renews (t t' : SymbolTree) : Prop where
  grown : t'.Grown fun _ => False
  file : t'.file = t.file
  generation : t'.generation = t.generation
  symbol : ∀ id, t'.symbol? id = t.symbol? id

theorem SymbolTree.Renews.trans {t t' t'' : SymbolTree} (h : Renews t t') (h' : Renews t' t'') :
    Renews t t'' :=
  ⟨h'.grown, h'.file.trans h.file, h'.generation.trans h.generation,
    fun id => (h'.symbol id).trans (h.symbol id)⟩

namespace LinkGraph

variable {g : LinkGraph}

/-- What taking back the links of a file does to the tree of another or the same file. -/
def unlinkTree (g : LinkGraph) (file other : FileId) (t : SymbolTree) : SymbolTree :=
  let t := if other = file then t.unlinkExternal else t
  if other ∈ g.targets file then t.dropReferencesFrom file else t

/-- A tree that is not linked to others yet keeps its symbols. -/
theorem renews_unlinkTree (hself : ∀ file, file ∉ g.targets file) (file : FileId) {t : SymbolTree}
    (h : t.Grown fun _ => False) : t.Renews (g.unlinkTree file t.file t) := by
  have hunlinked : t.Renews (if t.file = file then t.unlinkExternal else t) := by
    split
    · exact ⟨h.unlinkExternal, rfl, rfl, h.symbol?_unlinkExternal⟩
    · exact ⟨h, rfl, rfl, fun _ => rfl⟩
  unfold unlinkTree
  simp only
  split
  · rename_i hmem
    have hne : file ≠ t.file := fun heq => hself file (by rw [← heq] at hmem; exact hmem)
    rw [← hunlinked.file] at hne
    exact hunlinked.trans ⟨hunlinked.grown.dropReferencesFrom hne, rfl, rfl,
      hunlinked.grown.symbol?_dropReferencesFrom hne⟩
  · exact hunlinked

/-- Taking back links changes each tree by itself. -/
theorem tree?_detachAll (hself : ∀ file, file ∉ g.targets file) (files : List FileId)
    (other : FileId) :
    ∃ f : SymbolTree → SymbolTree,
      (∀ s : Snapshot, (g.detachAll files s).2.tree? other = (s.tree? other).map f) ∧
      ∀ t : SymbolTree, t.file = other → t.Grown (fun _ => False) → t.Renews (f t) := by
  induction files generalizing g with
  | nil =>
      refine ⟨id, fun s => by rw [Option.map_id]; rfl, fun t _ h => ⟨h, rfl, rfl, fun _ => rfl⟩⟩
  | cons file files ih =>
      have hself' : ∀ source, source ∉ (g.forget file).targets source := by
        intro source
        rw [targets_forget]
        split
        · exact List.not_mem_nil
        · exact hself source
      obtain ⟨f, hf, hrenews⟩ := ih hself'
      refine ⟨f ∘ g.unlinkTree file other, fun s => ?_, ?_⟩
      · rw [detachAll_cons, hf, Snapshot.tree?_unlinkIn, Option.map_map]
        rfl
      · rintro t rfl h
        have hunlinked := renews_unlinkTree hself file h
        exact hunlinked.trans (hrenews _ hunlinked.file hunlinked.grown)

end LinkGraph

namespace Snapshot

variable {s : Snapshot} {g : LinkGraph} {M : FileId → FileId → Prop}

/-- Only trees are changed when links are taken back. -/
theorem imports_detachAll (g : LinkGraph) (files : List FileId) (s : Snapshot) :
    (g.detachAll files s).2.files = s.files ∧ (g.detachAll files s).2.remappings = s.remappings ∧
      (g.detachAll files s).2.edges = s.edges ∧ (g.detachAll files s).2.installed = s.installed := by
  refine detachAll_changes (P := fun s' => s'.files = s.files ∧ s'.remappings = s.remappings ∧
    s'.edges = s.edges ∧ s'.installed = s.installed) (fun file f _ h => ?_) g files
    ⟨rfl, rfl, rfl, rfl⟩
  exact ⟨h.1, h.2.1, h.2.2.1, (keys_modify _ _ _).trans h.2.2.2⟩

/-- What taking back the links of some files does to a sound snapshot. -/
structure Detached (files : List FileId) (s s' : Snapshot) : Prop where
  sound : s'.Sound
  imports : s'.files = s.files ∧ s'.remappings = s.remappings ∧ s'.edges = s.edges ∧
    s'.installed = s.installed
  found : ∀ a, (s'.symbol? a).isSome = (s.symbol? a).isSome
  linksInto : ∀ source target,
    s'.LinksInto source target ↔ source ∉ files ∧ s.LinksInto source target
  others : ∀ u, u.file ∉ files → s'.forest.declaration? u = s.forest.declaration? u
  linked : ∀ u d, s'.forest.declaration? u = some d → s.forest.declaration? u = some d
  listed : ∀ d u, s'.forest.Lists d u → s.forest.Lists d u
  ownListed : ∀ d u, d.file = u.file → s.forest.Lists d u → s'.forest.Lists d u

/-- Files that are detached have no links to other files, and the others keep theirs. -/
theorem Sound.detachAll (h : s.Sound) (hnotes : g.Notes s.LinksInto M)
    (hsub : ∀ source target, M source target → s.LinksInto source target) (files : List FileId) :
    Detached files s (g.detachAll files s).2 ∧
      (g.detachAll files s).1.Notes (g.detachAll files s).2.LinksInto fun source target =>
        source ∉ files ∧ M source target := by
  induction files generalizing s g M with
  | nil =>
      refine ⟨⟨h, ⟨rfl, rfl, rfl, rfl⟩, fun _ => rfl, fun _ _ => ?_, fun _ _ => rfl, fun _ _ hd => hd,
        fun _ _ hd => hd, fun _ _ _ hd => hd⟩, hnotes.congr (fun _ _ => Iff.rfl) fun _ _ => ?_⟩
      · exact ⟨fun h => ⟨List.not_mem_nil, h⟩, And.right⟩
      · exact ⟨fun h => ⟨List.not_mem_nil, h⟩, And.right⟩
  | cons file files ih =>
      have htargets := hnotes.targets file
      have hlinks := h.linksInto_unlinkIn_iff htargets
      have hforget := (hnotes.forget hsub file).congr (fun source target =>
        (hlinks source target).symm) fun _ _ => Iff.rfl
      obtain ⟨hrest, hnotes'⟩ := ih (h.unlinkIn htargets) hforget fun source target hM =>
        (hlinks source target).2 ⟨hM.1, hsub source target hM.2⟩
      rw [LinkGraph.detachAll_cons]
      refine ⟨⟨hrest.sound, ?_, fun a => ?_, fun source target => ?_, fun u hu => ?_,
        fun u d hd => ?_, fun d u hd => ?_, fun d u hfile hd => ?_⟩,
        hnotes'.congr (fun _ _ => Iff.rfl) fun source target => ?_⟩
      · exact imports_detachAll g (file :: files) s
      · rw [hrest.found, isSome_symbol?_unlinkIn]
      · rw [hrest.linksInto, hlinks, List.mem_cons, not_or, and_left_comm, and_assoc]
      · rw [List.mem_cons, not_or] at hu
        rw [hrest.others u hu.2, declaration?_unlinkIn_of_ne hu.1]
      · exact (h.declaration?_of_unlinkIn (hrest.linked u d hd)).1
      · exact ((lists_unlinkIn_iff d u).1 (hrest.listed d u hd)).1
      · refine hrest.ownListed d u hfile ((lists_unlinkIn_iff d u).2 ⟨hd, fun hand => ?_⟩)
        rw [hfile, hand.2] at hand
        exact ((htargets file).1 hand.1).ne h.home rfl
      · rw [List.mem_cons, not_or, and_left_comm, and_assoc]

/-! ## Steps that change trees or imports only -/

/-- Refreshing the edges of a file changes no tree. -/
theorem trees_refreshEdges (s : Snapshot) (file : FileId) : (s.refreshEdges file).trees = s.trees := by
  unfold refreshEdges
  split <;> rfl

theorem trees_foldl_refreshEdges (files : List FileId) (s : Snapshot) :
    (files.foldl refreshEdges s).trees = s.trees := by
  induction files generalizing s with
  | nil => rfl
  | cons file files ih => rw [List.foldl_cons, ih, trees_refreshEdges]

/-- A tree is installed under its own file. -/
theorem tree?_install (s : Snapshot) (t : SymbolTree) (other : FileId) :
    (s.install t).tree? other = if other = t.file then some t else s.tree? other := by
  rw [tree?, install, refreshAround, trees_foldl_refreshEdges, FileMap.get?_insert]
  rfl

/-- A file that is uninstalled has no tree. -/
theorem tree?_uninstall (s : Snapshot) (file other : FileId) :
    (s.uninstall file).tree? other = if other = file then none else s.tree? other := by
  rw [tree?, uninstall, refreshAround, trees_foldl_refreshEdges, FileMap.get?_erase]
  rfl

/-- Who imports whom is known without the trees. -/
theorem importersOf_congr {s' : Snapshot} (h : s'.edges = s.edges) (file : FileId) :
    s'.importersOf file = s.importersOf file := by
  have himported : s'.importedFiles = s.importedFiles := by
    funext other
    rw [importedFiles, importedFiles, h]
  have hnext : s'.nextImporters = s.nextImporters := by
    funext fresh targets
    rw [nextImporters, nextImporters, himported]
  have hamong : ∀ fresh targets, s'.importersAmong fresh targets = s.importersAmong fresh targets := by
    intro fresh targets
    fun_induction importersAmong s fresh targets with
    | case1 fresh targets next hnil =>
        rw [importersAmong]
        exact dif_pos (by rw [hnext]; exact hnil)
    | case2 fresh targets next hne ih =>
        rw [importersAmong]
        simp only [hnext]
        rw [dif_neg hne, ih]
  rw [importersOf, importersOf, h, hamong]

end Snapshot

/-! ## Noting the links of many files -/

namespace LinkGraph

variable {g : LinkGraph} {L M : FileId → FileId → Prop}

/-- The graph says of the files what a snapshot says, and of the others what it said before. -/
theorem Notes.record (h : g.Notes L M) (hsub : ∀ source target, M source target → L source target)
    (s : Snapshot) (files : List FileId) :
    (g.record s files).Notes
      (fun source target => source ∈ files ∧ s.LinksInto source target ∨
        source ∉ files ∧ L source target)
      fun source target => source ∈ files ∧ s.LinksInto source target ∨
        source ∉ files ∧ M source target := by
  induction files generalizing g L M with
  | nil => exact h.congr (fun _ _ => by simp) fun _ _ => by simp
  | cons file files ih =>
      have hfile := h.recordFile hsub s file (s.LinksInto file) fun _ => Iff.rfl
      have hrecord := ih hfile fun source target hM => hM.imp_right fun hand =>
        ⟨hand.1, hsub source target hand.2⟩
      have hstep : ∀ (N : FileId → FileId → Prop) (source target : FileId),
          (source ∈ files ∧ s.LinksInto source target ∨ source ∉ files ∧
            (source = file ∧ s.LinksInto file target ∨ source ≠ file ∧ N source target)) ↔
          (source ∈ file :: files ∧ s.LinksInto source target ∨
            source ∉ file :: files ∧ N source target) := by
        intro N source target
        rw [List.mem_cons]
        by_cases heq : source = file
        · subst heq
          by_cases hmem : source ∈ files <;> simp [hmem]
        · simp [heq]
      exact hrecord.congr (hstep L) (hstep M)

end LinkGraph

/-! ## The steps of a replacement -/

namespace Workspace

/-- The links of a workspace are in order. -/
structure Sound (w : Workspace) : Prop where
  snapshot : w.snapshot.Sound
  links : w.links.Notes w.snapshot.LinksInto w.snapshot.LinksInto

variable (w : Workspace) (file : FileId) (tree : Option SymbolTree)

/-- The snapshot with another tree for a file and the old links. -/
def swapped : Snapshot :=
  let s := { w.snapshot with files := w.files }
  match tree with
  | some t => s.install t
  | none => s.uninstall file

/-- The other files that are linked again. -/
def others : List FileId :=
  affected (w.swapped file tree) (w.links.dependents file) file

/-- The link graph and the snapshot when all links have been taken back. -/
def detached : LinkGraph × Snapshot :=
  (w.links.forgetDependents file).detachAll (file :: w.others file tree) (w.swapped file tree)

/-- The snapshot when the files have been linked again. -/
def relinked : Snapshot :=
  linkAll w.config.maxDepth (file :: w.others file tree) (w.detached file tree).2

/-- A replacement changes the snapshot and what is noted of links. -/
theorem replace_eq : w.replace file tree =
    { w with
      links := (w.detached file tree).1.record (w.relinked file tree) (w.others file tree ++ [file])
      snapshot := w.relinked file tree } := by
  have hothers : affected
      ((w.links.forgetDependents file).detach file (w.swapped file tree)).2 (w.links.dependents file)
      file = w.others file tree := by
    have himports := Snapshot.imports_detachAll (w.links.forgetDependents file) [file]
      (w.swapped file tree)
    rw [others, affected, affected, ← Snapshot.importersOf_congr himports.2.2.1]
    rfl
  rw [relinked, detached, LinkGraph.detachAll_cons, ← hothers]
  rfl

/-- A replacement swaps the tree, detaches the files around it, and links them again. -/
theorem snapshot_replace : (w.replace file tree).snapshot = w.relinked file tree := by
  rw [replace_eq]

/-- The other files are the importers of the file and the files that link into it. -/
theorem mem_others {other : FileId} : other ∈ w.others file tree ↔
    other ≠ file ∧ (other ∈ (w.swapped file tree).importersOf file ∨ other ∈ w.links.sources file) := by
  simp only [others, affected, List.mem_filter, List.mem_append, Bool.not_eq_eq_eq_not, Bool.not_true,
    bne_iff_ne, LinkGraph.dependents, mem_ascending, List.contains_eq_mem, decide_eq_false_iff_not]
  constructor
  · rintro ⟨hmem | ⟨⟨hmem, -⟩, -⟩, hne⟩
    · exact ⟨hne, .inl hmem⟩
    · exact ⟨hne, .inr hmem⟩
  · rintro ⟨hne, hmem⟩
    refine ⟨?_, hne⟩
    by_cases himporter : other ∈ (w.swapped file tree).importersOf file
    · exact .inl himporter
    · exact .inr ⟨⟨hmem.resolve_left himporter, hne⟩, himporter⟩

variable {w file tree}

/-- A swap changes the tree of its file. -/
theorem tree?_swapped (htree : ∀ t, tree = some t → t.file = file) (other : FileId) :
    (w.swapped file tree).tree? other = if other = file then tree else w.snapshot.tree? other := by
  unfold swapped
  cases tree with
  | none => exact Snapshot.tree?_uninstall _ _ _
  | some t =>
      rw [← htree t rfl]
      exact Snapshot.tree?_install _ _ _

/-- What a workspace is like when a tree has been swapped and links have been taken back: `s` is
the snapshot before, `s'` the one now. -/
structure Cleared (file : FileId) (tree : Option SymbolTree) (files : List FileId)
    (s s' : Snapshot) : Prop where
  sound : s'.Sound
  linksInto : ∀ source target,
    s'.LinksInto source target ↔ source ∉ files ∧ s.LinksInto source target
  found : ∀ a, a.file ≠ file → (s'.symbol? a).isSome = (s.symbol? a).isSome
  others : ∀ u, u.file ∉ files → s'.forest.declaration? u = s.forest.declaration? u
  linked : ∀ u d, u.file ≠ file → s'.forest.declaration? u = some d →
    s.forest.declaration? u = some d
  listed : ∀ d u, d.file ≠ file → s'.forest.Lists d u → s.forest.Lists d u
  ownListed : ∀ d u, d.file ≠ file → d.file = u.file → s.forest.Lists d u → s'.forest.Lists d u
  newListed : ∀ d u, d.file = file → s'.forest.Lists d u → s'.forest.declaration? u = some d
  newTree : Option.Rel SymbolTree.Renews tree (s'.tree? file)

variable (w file tree) in
/-- The link graph and the old snapshot when all links have been taken back. -/
def withdrawn : LinkGraph × Snapshot :=
  (w.links.forgetDependents file).detachAll (file :: w.others file tree) w.snapshot

namespace Sound

variable (h : w.Sound)
variable (htree : ∀ t, tree = some t → t.Grown (fun _ => False) ∧ t.file = file)

include h

/-- No file is noted to link into itself. -/
theorem not_mem_targets (f : FileId) : f ∉ (w.links.forgetDependents file).targets f := fun hmem =>
  ((h.links.targets f f).1 hmem).ne h.snapshot.home rfl

variable (file tree) in
/-- When links are withdrawn, none of the file and of the others are left, and none into the
file. -/
theorem withdrawn : Snapshot.Detached (file :: w.others file tree) w.snapshot (w.withdrawn file tree).2 ∧
    (w.withdrawn file tree).1.Notes (w.withdrawn file tree).2.LinksInto fun source target =>
      source ∉ file :: w.others file tree ∧ target ≠ file ∧ w.snapshot.LinksInto source target :=
  h.snapshot.detachAll (h.links.forgetDependents file) (fun _ _ hM => hM.2) _

/-- Whoever links into the file is linked again. -/
theorem not_linksInto_withdrawn (source : FileId) :
    ¬ (w.withdrawn file tree).2.LinksInto source file := by
  intro hlinks
  obtain ⟨hnot, hlinks⟩ := ((h.withdrawn _ _).1.linksInto source file).1 hlinks
  refine hnot (List.mem_cons_of_mem _ ((w.mem_others file tree).2 ⟨?_, .inr ?_⟩))
  · exact (hlinks.ne h.snapshot.home).symm
  · exact (h.links.sources source file).2 hlinks

/-- The file itself has no links left that are withdrawn. -/
theorem not_linksInto_withdrawn' (target : FileId) :
    ¬ (w.withdrawn file tree).2.LinksInto file target := fun hlinks =>
  (((h.withdrawn _ _).1.linksInto file target).1 hlinks).1 List.mem_cons_self

include htree

/-- Detaching changes no other tree any further. -/
theorem tree?_detached {other : FileId} (hne : other ≠ file) :
    (w.detached file tree).2.tree? other = (w.withdrawn file tree).2.tree? other := by
  obtain ⟨f, hf, -⟩ := LinkGraph.tree?_detachAll h.not_mem_targets (file :: w.others file tree) other
  rw [detached, Workspace.withdrawn, hf, hf, tree?_swapped fun t ht => (htree t ht).2, if_neg hne]

/-- Nothing is linked into the new tree yet, so it is detached with the symbols it was built with. -/
theorem renews_detached :
    Option.Rel SymbolTree.Renews tree ((w.detached file tree).2.tree? file) := by
  obtain ⟨f, hf, hrenews⟩ :=
    LinkGraph.tree?_detachAll h.not_mem_targets (file :: w.others file tree) file
  rw [detached, hf, tree?_swapped fun t ht => (htree t ht).2, if_pos rfl]
  cases tree with
  | none => exact .none
  | some t => exact .some (hrenews t (htree t rfl).2 (htree t rfl).1)

/-- When it is detached, the new tree is still one that has grown, under its file. -/
theorem grown_detached (t' : SymbolTree) (ht' : (w.detached file tree).2.tree? file = some t') :
    t'.Grown (fun _ => False) ∧ t'.file = file := by
  have hrenews := h.renews_detached htree
  rw [ht'] at hrenews
  cases tree with
  | none => cases hrenews
  | some t =>
      have hrenews := Option.rel_some_some.1 hrenews
      exact ⟨hrenews.grown, hrenews.file.trans (htree t rfl).2⟩

/-- The links that are left when a tree has been swapped are those that were left before. -/
theorem cleared :
    Cleared file tree (file :: w.others file tree) w.snapshot (w.detached file tree).2 := by
  obtain ⟨hold, -⟩ := h.withdrawn file tree
  have hothers : ∀ other, other ≠ file → _ := fun other hne => h.tree?_detached htree hne
  have hsame : ∀ {a : Handle}, a.file ≠ file → (w.detached file tree).2.symbol? a =
      (w.withdrawn file tree).2.symbol? a := fun ha => Snapshot.Sound.symbol?_of_tree?_eq (hothers _ ha)
  have hdeclaration : ∀ {u : Handle}, u.file ≠ file →
      (w.detached file tree).2.forest.declaration? u =
        (w.withdrawn file tree).2.forest.declaration? u := fun hu => by
    rw [Forest.declaration?, Forest.declaration?, Snapshot.symbol?_forest, hsame hu]
    rfl
  have hlists : ∀ {d u : Handle}, d.file ≠ file → ((w.detached file tree).2.forest.Lists d u ↔
      (w.withdrawn file tree).2.forest.Lists d u) := fun hd => by
    rw [Forest.Lists, Forest.Lists, Snapshot.symbol?_forest, hsame hd]
    rfl
  refine ⟨?_, ?_, ?_, ?_, ?_, ?_, ?_, ?_, h.renews_detached htree⟩
  · exact hold.sound.swap hothers (h.grown_detached htree) h.not_linksInto_withdrawn
      h.not_linksInto_withdrawn'
  · intro source target
    rw [Snapshot.Sound.linksInto_swap_iff hothers (h.grown_detached htree)
      h.not_linksInto_withdrawn', hold.linksInto]
  · intro a ha
    rw [hsame ha, hold.found]
  · intro u hu
    rw [hdeclaration fun heq => hu (heq ▸ List.mem_cons_self), hold.others u hu]
  · intro u d hu hd
    exact hold.linked u d (by rw [← hdeclaration hu, hd])
  · exact fun d u hd hlisted => hold.listed d u ((hlists hd).1 hlisted)
  · exact fun d u hd hfile hlisted => (hlists hd).2 (hold.ownListed d u hfile hlisted)
  · intro d u hd hlisted
    obtain ⟨x, hx, hu⟩ := hlisted
    obtain ⟨t, id, ht, -⟩ := Snapshot.exists_tree?_of_symbol? hx
    rw [hd] at ht
    have hgrown := (h.grown_detached htree t ht).1
    have hlisted : t.alone.Lists d u :=
      ⟨x, by rw [← Snapshot.Sound.symbol?_new ht hd]; exact hx, hu⟩
    obtain ⟨i, j, hi, hj⟩ := hgrown.eq_handle_of_lists hlisted
    have hfile : u.file = file := by rw [hj, ← (h.grown_detached htree t ht).2]; rfl
    rw [Forest.declaration?, Snapshot.Sound.symbol?_new ht hfile]
    exact (hgrown.exact u d).1 hlisted

/-- The graph says what is linked when links have been taken back. -/
theorem notes_detached : (w.detached file tree).1.Notes (w.detached file tree).2.LinksInto
    (w.detached file tree).2.LinksInto := by
  obtain ⟨hold, hnotes⟩ := h.withdrawn file tree
  have hlinks := (h.cleared htree).linksInto
  rw [detached, LinkGraph.fst_detachAll _ _ _ w.snapshot]
  refine hnotes.congr (fun source target => ?_) fun source target => ?_
  · rw [hold.linksInto, ← hlinks]
    rfl
  · refine Iff.trans ?_ (hlinks source target).symm
    refine ⟨fun hM => ⟨hM.1, hM.2.2⟩, fun hL => ⟨hL.1, fun heq => ?_, hL.2⟩⟩
    exact h.not_linksInto_withdrawn source (heq ▸ (hold.linksInto source target).2 hL)

/-- Linking the files again keeps the snapshot sound, and adds links of these files only. -/
theorem relinked : (w.relinked file tree).Sound ∧
    Snapshot.Extends (· ∈ file :: w.others file tree) (w.detached file tree).2
      (w.relinked file tree) := by
  obtain ⟨hsound, hextends, -⟩ := (h.cleared htree).sound.linkAll (R := fun _ _ => True)
    (fun _ => trivial) (fun _ _ _ _ _ => trivial) (fun _ _ _ _ => trivial)
    (fun _ _ _ => trivial) (file :: w.others file tree)
  exact ⟨hsound, hextends⟩

/-- The links of a workspace are in order when a file has got another tree. -/
theorem replace : (w.replace file tree).Sound := by
  obtain ⟨hsound, hextends⟩ := h.relinked htree
  rw [replace_eq]
  refine ⟨hsound, ((h.notes_detached htree).record (fun _ _ hL => hL) (w.relinked file tree)
    (w.others file tree ++ [file])).congr ?_ ?_⟩
  all_goals
    intro source target
    by_cases hmem : source ∈ w.others file tree ++ [file]
    · simp [hmem]
    · have hnot : source ∉ file :: w.others file tree := by
        rw [List.mem_append, List.mem_singleton] at hmem
        rw [List.mem_cons]
        exact fun hor => hmem hor.symm
      have hsame : (w.detached file tree).2.LinksInto source target ↔
          (w.relinked file tree).LinksInto source target := by
        rw [(h.cleared htree).sound.linksInto_iff, hsound.linksInto_iff]
        refine and_congr_right fun _ => exists_congr fun u => exists_congr fun d => ?_
        constructor
        · rintro ⟨hd, rfl, hfile⟩
          exact ⟨by rw [hextends.others u hnot, hd], rfl, hfile⟩
        · rintro ⟨hd, rfl, hfile⟩
          exact ⟨by rw [← hextends.others u hnot, hd], rfl, hfile⟩
      simp [hmem, hsame]

end Sound

end Workspace

end SolidityAtlas

import SolidityAtlas.Proofs.Workspace.Sound
import SolidityAtlas.Workspace.Basic

/-!
# Linking a file

Linking a file is a run of single links: each links a use of the file that is pending
to something that a phase has found. What one such step keeps, the whole run keeps
(`linkFile_induction`), through phases and rounds.

With the law that look-ups in a snapshot find what exists (`Sound.found`) this gives
what linking a file does to a sound snapshot (`Sound.linkFile`): it stays sound, no
link of another file changes, no link is taken back, and a use that is listed now and
was not before is linked where it is listed.

## Main Definitions

* `SymbolTree.LinkChange`: what links do to a tree
* `Snapshot.Extends`: a snapshot has more links of one file than another one

## Main Results

* `Snapshot.linkAll_changes`, `Snapshot.detachAll_changes`: what changes of single trees keep
* `Snapshot.linkFile_induction`
* `Snapshot.Sound.linkFile`, `Snapshot.Sound.linkAll`
-/

namespace SolidityAtlas

/-- What is done to a tree when links are made and when they are taken back. -/
inductive SymbolTree.LinkChange : (SymbolTree → SymbolTree) → Prop where
  | linkExternal (usage : NodeId) (d : Handle) : LinkChange (·.linkExternal usage d)
  | addReference (d : NodeId) (usage : Handle) : LinkChange (·.addReference d usage)
  | unlinkExternal : LinkChange SymbolTree.unlinkExternal
  | dropReferencesFrom (file : FileId) : LinkChange (·.dropReferencesFrom file)

namespace Snapshot

variable {s s' : Snapshot} {file : FileId} {maxDepth : Nat}

/-! ## Runs of links -/

/-- A link takes a use from the pool of the tree, and the tree keeps its handle. -/
theorem exists_tree?_addLink {t : SymbolTree} (ht : s.tree? file = some t) (l : NodeId × Handle) :
    ∃ t', (s.addLink file l).tree? file = some t' ∧ t'.pending = t.pending.erase l.1 ∧
      t'.handle = t.handle := by
  have hlinked : (s.modifyTree file (·.linkExternal l.1 l.2)).tree? file =
      some (t.linkExternal l.1 l.2) := by rw [tree?_modifyTree, if_pos rfl, ht]; rfl
  rw [addLink, ht]
  simp only
  split
  · by_cases hfile : file = l.2.file
    · rw [tree?_modifyTree, if_pos hfile, ← hfile, hlinked]
      exact ⟨_, rfl, rfl, rfl⟩
    · rw [tree?_modifyTree, if_neg hfile, hlinked]
      exact ⟨_, rfl, rfl, rfl⟩
  · exact ⟨_, hlinked, rfl, rfl⟩

/-- The links that a phase finds are for different pending uses. -/
theorem map_fst_linksIn_sublist {t : SymbolTree} (ht : s.tree? file = some t) (phase : Phase) :
    ((s.linksIn maxDepth phase file).map (·.1)).Sublist t.pending := by
  simp only [linksIn, ht]
  refine List.map_fst_filterMap_sublist (fun usage l hl => ?_) t.pending
  obtain ⟨x, -, hl⟩ := Option.bind_eq_some_iff.1 hl
  obtain ⟨d, -, rfl⟩ := Option.map_eq_some_iff.1 hl
  rfl

section Batches

variable {P : Snapshot → Prop}

/-- What the links that a phase finds keep, all together, is kept when the phase is repeated. -/
theorem exhaust_batches {phase : Phase}
    (hbatch : ∀ s, P s → P (s.addLinks file (s.linksIn maxDepth phase file))) (hs : P s) :
    P (exhaust maxDepth phase file s).1 := by
  fun_induction exhaust maxDepth phase file s with
  | case1 => exact hs
  | case2 s links hne linked n heq ih =>
      rw [heq] at ih
      exact ih (hbatch s hs)

variable (hbatch : ∀ s phase, P s → P (s.addLinks file (s.linksIn maxDepth phase file)))

include hbatch

/-- What the links that phases find keep is kept when a file is linked. -/
theorem linkFile_batches (hs : P s) : P (linkFile maxDepth file s).1 := by
  have hround : ∀ s, P s → P (linkRound maxDepth file s).1 := fun s hs =>
    exhaust_batches (hbatch · .members) (hbatch _ .names (exhaust_batches (hbatch · .imports) hs))
  fun_induction linkFile maxDepth file s with
  | case1 s => exact hround s hs
  | case2 s r _ linked n heq ih =>
      rw [heq] at ih
      exact ih (hround s hs)

/-- What holds when names have been looked up for the first time, and is kept by the links that phases
find, holds when the file has been linked. -/
theorem linkFile_of_names (hs : P (((exhaust maxDepth .imports file s).1).addLinks file
      ((exhaust maxDepth .imports file s).1.linksIn maxDepth .names file))) :
    P (linkFile maxDepth file s).1 := by
  have hround : P (linkRound maxDepth file s).1 := exhaust_batches (hbatch · .members) hs
  rw [linkFile]
  split
  · exact hround
  · exact linkFile_batches hbatch hround

end Batches

/-! ## Changes of single trees -/

section Changes

variable {P : Snapshot → Prop}
variable (hchange : ∀ {s} file {f}, SymbolTree.LinkChange f → P s → P (s.modifyTree file f))

include hchange

/-- What every change of a node keeps a link keeps. -/
theorem addLink_changes (l : NodeId × Handle) (hs : P s) : P (s.addLink file l) := by
  rw [addLink]
  cases s.tree? file with
  | none => exact hs
  | some t =>
      have hlinked := hchange file (.linkExternal l.1 l.2) hs
      simp only
      split
      · exact hchange l.2.file (.addReference l.2.node (t.handle l.1)) hlinked
      · exact hlinked

/-- What every change of a node keeps links keep. -/
theorem addLinks_changes (links : List (NodeId × Handle)) (hs : P s) : P (s.addLinks file links) := by
  induction links generalizing s with
  | nil => exact hs
  | cons l links ih => exact ih (addLink_changes hchange l hs)

/-- What changes of single trees keep is kept when files are linked. -/
theorem linkAll_changes (files : List FileId) (hs : P s) :
    P (Workspace.linkAll maxDepth files s) := by
  induction files generalizing s with
  | nil => exact hs
  | cons file files ih =>
      exact ih (linkFile_batches (fun _ _ hs => addLinks_changes hchange _ hs) hs)

/-- What every change of a node keeps is kept when links are taken back. -/
theorem unlinkIn_changes (g : LinkGraph) (file : FileId) (hs : P s) : P (g.unlinkIn file s) := by
  have hfold : ∀ (targets : List FileId) {s : Snapshot}, P s →
      P (targets.foldl (fun s target => s.modifyTree target (·.dropReferencesFrom file)) s) := by
    intro targets
    induction targets with
    | nil => exact id
    | cons target targets ih => exact fun hs => ih (hchange target (.dropReferencesFrom file) hs)
  exact hfold (g.targets file) (hchange file .unlinkExternal hs)

/-- What changes of single trees keep is kept when the links of files are taken back. -/
theorem detachAll_changes (g : LinkGraph) (files : List FileId) (hs : P s) :
    P (g.detachAll files s).2 := by
  induction files generalizing g s with
  | nil => exact hs
  | cons file files ih => exact ih (g.forget file) (unlinkIn_changes hchange g file hs)

end Changes

section Induction

variable {P : Snapshot → Prop} {Q : Handle → Prop}
variable (hnodup : ∀ s t, P s → s.tree? file = some t → t.pending.Nodup)
variable (hfound : ∀ s phase, P s → ∀ l ∈ s.linksIn maxDepth phase file, Q l.2)
variable (hstep : ∀ s t u d, P s → s.tree? file = some t → u ∈ t.pending → Q d →
  P (s.addLink file (u, d)))

include hstep in
/-- What each link of pending uses keeps is kept by the links of a row, one after the other. -/
theorem addLinks_induction {links : List (NodeId × Handle)} {t : SymbolTree} (hs : P s)
    (ht : s.tree? file = some t) (hlinks : (links.map (·.1)).Nodup)
    (hpending : ∀ u ∈ links.map (·.1), u ∈ t.pending) (hQ : ∀ l ∈ links, Q l.2) :
    P (s.addLinks file links) := by
  induction links generalizing s t with
  | nil => exact hs
  | cons l links ih =>
      obtain ⟨hl, hlinks⟩ := List.nodup_cons.1 hlinks
      obtain ⟨t', ht', hpending', -⟩ := exists_tree?_addLink ht l
      refine ih (hstep s t l.1 l.2 hs ht (hpending l.1 List.mem_cons_self)
        (hQ l List.mem_cons_self)) ht' hlinks (fun u hu => ?_)
        fun k hk => hQ k (List.mem_cons_of_mem _ hk)
      rw [hpending', List.mem_erase_of_ne]
      · exact hpending u (List.mem_cons_of_mem _ hu)
      · intro heq
        rw [heq] at hu
        exact hl hu

include hnodup hfound hstep

/-- What each link of pending uses keeps is kept by the links of a phase. -/
theorem addLinks_linksIn_induction (phase : Phase) (hs : P s) :
    P (s.addLinks file (s.linksIn maxDepth phase file)) := by
  cases ht : s.tree? file with
  | none =>
      rw [linksIn, ht]
      exact hs
  | some t =>
      have hsub : ((s.linksIn maxDepth phase file).map (·.1)).Sublist t.pending :=
        map_fst_linksIn_sublist ht phase
      exact addLinks_induction hstep hs ht ((hnodup s t hs ht).sublist hsub)
        (fun u hu => hsub.subset hu) (hfound s phase hs)

/-- What every single link keeps is kept when a file is linked. -/
theorem linkFile_induction (hs : P s) : P (linkFile maxDepth file s).1 :=
  linkFile_batches (fun _ phase hs => addLinks_linksIn_induction hnodup hfound hstep phase hs) hs

end Induction

/-! ## What is found exists -/

/-- A sound snapshot agrees with itself on files that neither imports nor links lead out of. -/
theorem Sound.agree_self (h : s.Sound) {K : FileId → Prop}
    (hclosed : ∀ f, K f → ∀ directive target, s.importTarget? f directive = some target → K target)
    (hlinks : ∀ u d, K u.file → s.forest.declaration? u = some d → K d.file) : Agree K s s where
  tree f hK := by
    have htree : s.forest.tree f = s.tree? f := rfl
    rw [htree]
    cases ht : s.tree? f with
    | none => exact .none
    | some t =>
        refine .some ⟨h.home f t ht, rfl, fun id x y hx hy => ?_⟩
        rw [hx] at hy
        cases hy
        cases hd : x.declaration with
        | none => exact .none
        | some d =>
            have hlinked : s.forest.declaration? (t.handle id) = some d := by
              rw [Forest.declaration?, symbol?_forest, h.symbol?_handle ht, hx, Option.bind_some, hd]
            have hexists := h.paired.isSome_declaration hlinked
            refine .some ⟨hlinks (t.handle id) d ?_ hlinked, rfl, rfl, hexists, hexists⟩
            rw [SymbolTree.handle, h.home f t ht]
            exact hK
  target _ _ _ := rfl
  closed := hclosed

/-- What a phase finds exists, in one of the files that imports and links lead to. -/
theorem Sound.found (h : s.Sound) {K : FileId → Prop}
    (hclosed : ∀ f, K f → ∀ directive target, s.importTarget? f directive = some target → K target)
    (hlinks : ∀ u d, K u.file → s.forest.declaration? u = some d → K d.file) (hK : K file)
    (phase : Phase) : ∀ l ∈ s.linksIn maxDepth phase file,
      K l.2.file ∧ (s.symbol? l.2).isSome = true := by
  intro l hl
  cases ht : s.tree? file with
  | none =>
      rw [linksIn, ht] at hl
      cases hl
  | some t =>
      have hrel := (h.agree_self hclosed hlinks).linksIn_rel rfl maxDepth hK ht ht phase rfl
      have hcounterpart := (List.forall₂_same.1 hrel l hl).2
      exact ⟨hcounterpart.within, hcounterpart.left⟩

/-! ## What linking changes -/

/-- A snapshot has the links of another one, and more links of the files `linked`. -/
structure Extends (linked : FileId → Prop) (s s' : Snapshot) : Prop where
  installed : s'.installed = s.installed
  imports : s'.files = s.files ∧ s'.remappings = s.remappings ∧ s'.edges = s.edges
  outline : ∀ other, (s'.tree? other).map SymbolTree.outline = (s.tree? other).map SymbolTree.outline
  found : ∀ a, (s'.symbol? a).isSome = (s.symbol? a).isSome
  others : ∀ u, ¬ linked u.file → s'.forest.declaration? u = s.forest.declaration? u
  kept : ∀ u d, s.forest.declaration? u = some d → s'.forest.declaration? u = some d
  listed : ∀ d u, s'.forest.Lists d u → s.forest.Lists d u ∨ s'.forest.declaration? u = some d
  stillListed : ∀ d u, s.forest.Lists d u → s'.forest.Lists d u

variable {linked linked' : FileId → Prop}

/-- A snapshot extends itself. -/
theorem Extends.refl (linked : FileId → Prop) (s : Snapshot) : Extends linked s s :=
  ⟨rfl, ⟨rfl, rfl, rfl⟩, fun _ => rfl, fun _ => rfl, fun _ _ => rfl, fun _ _ hd => hd,
    fun _ _ hd => .inl hd, fun _ _ hd => hd⟩

theorem Extends.mono (h : Extends linked s s') (hsub : ∀ f, linked f → linked' f) :
    Extends linked' s s' :=
  { h with others := fun u hu => h.others u fun hlinked => hu (hsub _ hlinked) }

/-- Extensions may follow each other. -/
theorem Extends.trans {s'' : Snapshot} (h : Extends linked s s') (h' : Extends linked s' s'') :
    Extends linked s s'' where
  installed := h'.installed.trans h.installed
  imports := ⟨h'.imports.1.trans h.imports.1, h'.imports.2.1.trans h.imports.2.1,
    h'.imports.2.2.trans h.imports.2.2⟩
  outline other := (h'.outline other).trans (h.outline other)
  found a := (h'.found a).trans (h.found a)
  others u hu := (h'.others u hu).trans (h.others u hu)
  kept u d hd := h'.kept u d (h.kept u d hd)
  listed d u hu := by
    rcases h'.listed d u hu with hu | hu
    · exact (h.listed d u hu).imp_right (h'.kept u d)
    · exact .inr hu
  stillListed d u hu := h'.stillListed d u (h.stillListed d u hu)

/-- An extension has the same files installed. -/
theorem Extends.isInstalled (h : Extends linked s s') : s'.isInstalled = s.isInstalled := by
  funext other
  have hiff : s'.isInstalled other = true ↔ s.isInstalled other = true := by
    rw [Snapshot.isInstalled, Snapshot.isInstalled, FileMap.contains, FileMap.contains,
      ← FileMap.mem_keys_iff, ← FileMap.mem_keys_iff]
    exact (congrArg (other ∈ ·) h.installed).to_iff
  rw [Bool.eq_iff_iff, hiff]

/-- The path of a directive is read off the outline. -/
theorem importPath?_congr {t t' : SymbolTree} (h : t.outline = t'.outline) (directive : NodeId) :
    importPath? t directive = importPath? t' directive := by
  rw [importPath?, importPath?, SymbolTree.detail?_congr h]

/-- What imports mean is decided by the paths, the remappings, the outlines and which files are
installed. -/
theorem importTarget?_congr (hfiles : s'.files = s.files) (hremappings : s'.remappings = s.remappings)
    (hinstalled : s'.isInstalled = s.isInstalled) {other : FileId}
    (houtline : (s'.tree? other).map SymbolTree.outline = (s.tree? other).map SymbolTree.outline)
    (directive : NodeId) : s'.importTarget? other directive = s.importTarget? other directive := by
  rw [importTarget?, importTarget?, hfiles, hremappings, hinstalled]
  cases ht : s.tree? other with
  | none =>
      rw [ht, Option.map_none, Option.map_eq_none_iff] at houtline
      rw [houtline]
  | some t =>
      rw [ht, Option.map_some] at houtline
      obtain ⟨t', ht', heq⟩ := Option.map_eq_some_iff.1 houtline
      rw [ht', Option.bind_eq_bind, Option.bind_eq_bind, Option.bind_some, Option.bind_some,
        importPath?_congr heq]

/-- Links do not change what imports mean. -/
theorem Extends.importTarget?_eq (h : Extends linked s s') (other : FileId) (directive : NodeId) :
    s'.importTarget? other directive = s.importTarget? other directive :=
  importTarget?_congr h.imports.1 h.imports.2.1 h.isInstalled (h.outline other) directive

theorem keys_modify {α : Type} (m : FileMap α) (f : FileId) (k : α → α) :
    (m.modify f k).keys = m.keys := by
  rw [FileMap.keys, FileMap.keys, FileMap.modify, List.map_map]
  refine List.map_congr_left fun e _ => ?_
  simp only [Function.comp_apply]
  split <;> rfl

/-- A link more of a file. -/
theorem Extends.addLink (h : Extends linked s s') (hs' : s'.Sound) {t : SymbolTree}
    (ht : s'.tree? file = some t) (hfile : linked file) {u : NodeId} {d : Handle}
    (hu : u ∈ t.pending) (hd : (s'.symbol? d).isSome = true) :
    Extends linked s (s'.addLink file (u, d)) := by
  obtain ⟨husage, hnone⟩ := hs'.declaration?_of_pending ht hu
  have hlink := hs'.forest_addLink ht (u := u) hd
  have hdeclaration := Forest.declaration?_link hlink husage
  have hlists := Forest.lists_link_iff hlink hd
  have husagefile : (t.handle u).file = file := hs'.home file t ht
  have hkept : ∀ v e, s'.forest.declaration? v = some e →
      (s'.addLink file (u, d)).forest.declaration? v = some e := by
    intro v e hv
    rw [hdeclaration, if_neg fun heq => by rw [heq, hnone] at hv; cases hv]
    exact hv
  refine ⟨?_, ?_, fun other => ?_, fun a => ?_, fun v hv => ?_, fun v e hv => ?_, fun e v hv => ?_,
    fun e v hv => ?_⟩
  · rw [← h.installed, addLink_eq ht hd]
    exact (keys_modify _ _ _).trans (keys_modify _ _ _)
  · rw [addLink_eq ht hd]
    exact h.imports
  · rw [← h.outline other, tree?_addLink ht hd, Option.map_map]
    refine Option.map_congr fun v _ => ?_
    simp only [Function.comp_apply]
    split <;> split <;> simp
  · rw [← h.found a, hs'.symbol?_addLink ht hd, Option.isSome_map]
  · rw [← h.others v hv, hdeclaration, if_neg fun heq => hv (by rw [heq, husagefile]; exact hfile)]
  · exact hkept v e (h.kept v e hv)
  · rcases (hlists e v).1 hv with hv | ⟨rfl, rfl⟩
    · exact (h.listed e v hv).imp_right (hkept v e)
    · exact .inr (by rw [hdeclaration, if_pos rfl])
  · exact (hlists e v).2 (.inl (h.stillListed e v hv))

section Reach

variable {R : FileId → FileId → Prop}

variable (file maxDepth) in
/-- What linking a file does to a sound snapshot. Where imports and links do not lead out of what
a file reaches, the new links of the file do not either. -/
theorem Sound.linkFile (h : s.Sound) (hrefl : ∀ f, R f f) (htrans : ∀ a b c, R a b → R b c → R a c)
    (himports : ∀ f directive target, s.importTarget? f directive = some target → R f target)
    (hlinks : ∀ u d, s.forest.declaration? u = some d → R u.file d.file) :
    (s.linkFile maxDepth file).1.Sound ∧ Extends (· = file) s (s.linkFile maxDepth file).1 ∧
      ∀ u d, (s.linkFile maxDepth file).1.forest.declaration? u = some d → R u.file d.file := by
  refine linkFile_induction (P := fun s' => s'.Sound ∧ Extends (· = file) s s' ∧
      ∀ u d, s'.forest.declaration? u = some d → R u.file d.file)
    (Q := fun d => R file d.file ∧ (s.symbol? d).isSome = true) ?_ ?_ ?_
    ⟨h, .refl _ s, hlinks⟩
  · exact fun s' t hs' ht => (hs'.1.tidy file t ht).nodup_pending
  · intro s' phase ⟨hs', hextends, hreach⟩ l hl
    rw [← hextends.found l.2]
    refine hs'.found (K := R file) (fun f hf directive target htarget => ?_)
      (fun u d hu hd => htrans _ _ _ hu (hreach u d hd)) (hrefl file) phase l hl
    rw [hextends.importTarget?_eq] at htarget
    exact htrans _ _ _ hf (himports f directive target htarget)
  · intro s' t u d ⟨hs', hextends, hreach⟩ ht hu ⟨hd, hexists⟩
    rw [← hextends.found] at hexists
    refine ⟨hs'.addLink ht hu hexists, hextends.addLink hs' ht rfl hu hexists, fun v e hv => ?_⟩
    obtain ⟨husage, -⟩ := hs'.declaration?_of_pending ht hu
    rw [Forest.declaration?_link (hs'.forest_addLink ht hexists) husage] at hv
    split at hv
    · rename_i heq
      cases hv
      rw [heq, SymbolTree.handle, hs'.home file t ht]
      exact hd
    · exact hreach v e hv

/-- What linking files one after the other does to a sound snapshot. -/
theorem Sound.linkAll (h : s.Sound) (hrefl : ∀ f, R f f) (htrans : ∀ a b c, R a b → R b c → R a c)
    (himports : ∀ f directive target, s.importTarget? f directive = some target → R f target)
    (hlinks : ∀ u d, s.forest.declaration? u = some d → R u.file d.file) (files : List FileId) :
    (Workspace.linkAll maxDepth files s).Sound ∧
      Extends (· ∈ files) s (Workspace.linkAll maxDepth files s) ∧
      ∀ u d, (Workspace.linkAll maxDepth files s).forest.declaration? u = some d →
        R u.file d.file := by
  induction files generalizing s with
  | nil => exact ⟨h, .refl _ s, hlinks⟩
  | cons file files ih =>
      obtain ⟨hs', hextends, hreach⟩ := h.linkFile file maxDepth hrefl htrans himports hlinks
      obtain ⟨hs'', hextends', hreach'⟩ := ih hs' (fun f directive target htarget =>
        himports f directive target (by rw [← hextends.importTarget?_eq, htarget])) hreach
      refine ⟨hs'', (hextends.mono fun f hf => ?_).trans (hextends'.mono fun f hf => ?_), hreach'⟩
      · rw [hf]
        exact List.mem_cons_self
      · exact List.mem_cons_of_mem _ hf

end Reach

end Snapshot

end SolidityAtlas

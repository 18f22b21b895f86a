import Mathlib.Data.List.Induction
import SolidityAtlas.Proofs.Workspace.Mirror
import SolidityAtlas.Proofs.Workspace.Replace

/-!
# Links taken back and made again

Take back the links of some files and link these files again, one after the other.
Each use that is linked afterwards was pending or linked before; but whether it is
linked, and to what, can depend on the order of the files, because a look-up in one
file can lead over links of another. The files behind it in the order have no links
yet when a file is linked.

When the links are the same afterwards can be seen file by file
(`Snapshot.Sound.sameLinks_linkAll_iff`): each file must find the links that it has
while the files behind it in the order have none.

## Main Definitions

* `SymbolTree.SameLinks`, `Snapshot.SameLinks`: the same links, and the same uses pending
* `SymbolTree.ReadAlike`: trees that are the same apart from links from outside

## Main Results

* `Snapshot.Sound.sameLinks_linkAll_iff`
-/

namespace SolidityAtlas

namespace SymbolTree

variable {t u t' t'' : SymbolTree}

/-! ## Trees -/

/-- The uses of two trees are linked to nodes at the same places, and the same uses are pending. -/
structure SameLinks (t u : SymbolTree) : Prop where
  link : ∀ id, (t.linkOf? id).map Handle.place = (u.linkOf? id).map Handle.place
  pending : ∀ id, id ∈ t.pending ↔ id ∈ u.pending

/-- What a use is linked to in its file. -/
def innerLink? (t : SymbolTree) (id : NodeId) : Option Handle :=
  if id ∈ t.external then none else t.linkOf? id

/-- Two trees are the same, by places, if links from outside are left out. -/
structure ReadAlike (t u : SymbolTree) : Prop where
  outline : t.outline = u.outline
  link : ∀ id, (t.innerLink? id).map Handle.place = (u.innerLink? id).map Handle.place
  pending : ∀ id, (id ∈ t.pending ∨ id ∈ t.external) ↔ (id ∈ u.pending ∨ id ∈ u.external)

namespace ReadAlike

theorem refl (t : SymbolTree) : ReadAlike t t :=
  ⟨rfl, fun _ => rfl, fun _ => Iff.rfl⟩

theorem symm (h : ReadAlike t u) : ReadAlike u t :=
  ⟨h.outline.symm, fun id => (h.link id).symm, fun id => (h.pending id).symm⟩

theorem trans (h : ReadAlike t u) (h' : ReadAlike u t') : ReadAlike t t' :=
  ⟨h.outline.trans h'.outline, fun id => (h.link id).trans (h'.link id),
    fun id => (h.pending id).trans (h'.pending id)⟩

end ReadAlike

theorem Kept.readAlike (h : Kept t t') : ReadAlike t t' := by
  refine ⟨h.outline.symm, fun id => ?_, fun id => ?_⟩
  · rw [innerLink?, innerLink?, h.external, h.link]
  · rw [h.pending, h.external]

/-- A link takes a use from the pool and makes it external, so the tree reads alike. -/
theorem Linked.readAlike {usage : NodeId} {d : Handle} (h : Linked usage d t t')
    (husage : usage ∈ t.pending) (hnone : t.linkOf? usage = none) : ReadAlike t t' := by
  refine ⟨h.outline.symm, fun id => ?_, fun id => ?_⟩
  · rw [innerLink?, innerLink?, h.external, h.link]
    by_cases heq : id = usage
    · simp [heq, hnone]
    · simp [heq]
  · rw [h.pending, h.external, mem_appendNew]
    by_cases heq : id = usage
    · simp [heq, husage]
    · simp [heq, List.mem_erase_of_ne heq]

/-- One tree is another one without its links from outside, apart from what its declarations
list. -/
structure Unlinked (t t' : SymbolTree) : Prop where
  outline : t'.outline = t.outline
  link : ∀ id, t'.linkOf? id = t.innerLink? id
  pending : t'.pending = t.unlinkExternal.pending
  external : t'.external = []

theorem Unlinked.kept (h : Unlinked t t') (h' : Kept t' t'') : Unlinked t t'' :=
  ⟨h'.outline.trans h.outline, fun id => (h'.link id).trans (h.link id), h'.pending.trans h.pending,
    h'.external.trans h.external⟩

theorem Kept.unlinked (h : Kept t t') (h' : Unlinked t' t'') : Unlinked t t'' := by
  refine ⟨h'.outline.trans h.outline, fun id => ?_, ?_, h'.external⟩
  · rw [h'.link, innerLink?, innerLink?, h.external, h.link]
  · rw [h'.pending, unlinkExternal, unlinkExternal, h.external, h.pending]

/-- A tree without external links has inner links only. -/
theorem innerLink?_of_external (h : t.external = []) (id : NodeId) :
    t.innerLink? id = t.linkOf? id := by
  rw [innerLink?, h, if_neg List.not_mem_nil]

/-- Links from outside that have been taken back are not taken back again. -/
theorem Unlinked.trans (h : Unlinked t t') (h' : Unlinked t' t'') : Unlinked t t'' := by
  refine ⟨h'.outline.trans h.outline, fun id => ?_, ?_, h'.external⟩
  · rw [h'.link, innerLink?_of_external h.external, h.link]
  · rw [h'.pending, unlinkExternal, h.external, List.foldl_nil, h.pending, unlinkExternal]
    exact ascending_eq_self (pairwise_ascending _)

/-- Taking back external links unlinks a tree. -/
theorem unlinked_unlinkExternal (t : SymbolTree) : Unlinked t t.unlinkExternal := by
  refine ⟨t.outline_unlinkExternal, fun id => ?_, rfl, rfl⟩
  rw [linkOf?, innerLink?, linkOf?, symbol?_unlinkExternal]
  cases t.symbol? id with
  | none => simp
  | some s =>
      rw [Option.map_some, Option.bind_some, Option.bind_some]
      split
      · exact Symbol.declaration_unlink s
      · rfl

theorem kept_dropReferencesFrom (t : SymbolTree) (file : FileId) :
    Kept t (t.dropReferencesFrom file) := by
  refine ⟨t.outline_dropReferencesFrom file, fun id => ?_, rfl, rfl⟩
  rw [linkOf?, linkOf?, symbol?_dropReferencesFrom]
  cases t.symbol? id <;> rfl

/-- What was linked externally is pending once it is unlinked. -/
theorem Unlinked.mem_pending (h : Unlinked t t') {id : NodeId} :
    id ∈ t'.pending ↔ id ∈ t.pending ∨ id ∈ t.external := by
  rw [h.pending, mem_pending_unlinkExternal]

/-- A tree that is unlinked reads alike. -/
theorem Unlinked.readAlike (h : Unlinked t t') : ReadAlike t t' := by
  refine ⟨h.outline.symm, fun id => ?_, fun id => ?_⟩
  · rw [innerLink?_of_external h.external, h.link]
  · rw [h.mem_pending, h.external]
    simp

/-- Trees that are the same apart from links from outside mirror each other when these have been
taken back, with the same uses pending in the same order. -/
theorem ReadAlike.mirrors_of_unlinked (h : ReadAlike t u) (ht : t.pending.Nodup)
    (hu : u.pending.Nodup) {u' : SymbolTree} (ht' : Unlinked t t') (hu' : Unlinked u u') :
    Mirrors t' u' ∧ t'.pending = u'.pending := by
  refine ⟨⟨ht'.outline.trans (h.outline.trans hu'.outline.symm), fun id => ?_⟩, ?_⟩
  · rw [ht'.link, hu'.link, h.link]
  · rw [ht'.pending, hu'.pending, pending_unlinkExternal_congr ht hu h.pending]

/-- One tree is another one with more uses linked from outside. -/
structure Continues (t t' : SymbolTree) : Prop where
  readAlike : ReadAlike t t'
  pending : ∀ id, id ∈ t'.pending ↔ id ∈ t.pending ∧ t'.linkOf? id = none

theorem Continues.kept (h : Continues t t') (h' : Kept t' t'') : Continues t t'' := by
  refine ⟨h.readAlike.trans h'.readAlike, fun id => ?_⟩
  rw [h'.pending, h'.link, h.pending]

theorem Kept.continues (h : Kept t t') (h' : Continues t' t'') : Continues t t'' := by
  refine ⟨h.readAlike.trans h'.readAlike, fun id => ?_⟩
  rw [h'.pending, h.pending]

/-- What is pending is not linked. -/
theorem Tidy.linkOf?_of_mem_pending (h : t.Tidy) {id : NodeId} (hid : id ∈ t.pending) :
    t.linkOf? id = none := by
  obtain ⟨s, hs, hnone⟩ := h.pending id hid
  rw [linkOf?_of_symbol? hs, hnone]

/-- A pending use more is linked. -/
theorem Continues.linked (h : Continues t t') (htidy : t'.Tidy) {usage : NodeId} {d : Handle}
    (husage : usage ∈ t'.pending) (h' : Linked usage d t' t'') : Continues t t'' := by
  refine ⟨h.readAlike.trans (h'.readAlike husage ((h.pending usage).1 husage).2), fun id => ?_⟩
  rw [h'.pending, h'.link, htidy.nodup_pending.mem_erase_iff, h.pending]
  by_cases heq : id = usage
  · simp [heq]
  · simp [heq]

theorem Continues.refl (h : t.Tidy) : Continues t t :=
  ⟨.refl t, fun _ => ⟨fun hid => ⟨hid, h.linkOf?_of_mem_pending hid⟩, And.left⟩⟩

/-- If links from outside are taken back and others are made, it is enough to compare what the
uses are linked to: the rest is pending. -/
theorem Unlinked.sameLinks (h : Unlinked t t') (htidy : t.Tidy) (h' : Continues t' t'')
    (hlink : ∀ id, (t.linkOf? id).map Handle.place = (t''.linkOf? id).map Handle.place) :
    SameLinks t t'' := by
  refine ⟨hlink, fun id => ?_⟩
  have hnone : t''.linkOf? id = none ↔ t.linkOf? id = none := by
    rw [← Option.map_eq_none_iff (f := Handle.place), ← hlink, Option.map_eq_none_iff]
  rw [h'.pending, h.mem_pending, hnone]
  constructor
  · exact fun hid => ⟨.inl hid, htidy.linkOf?_of_mem_pending hid⟩
  · rintro ⟨hid | hid, hnone⟩
    · exact hid
    · obtain ⟨s, d, hs, hd⟩ := htidy.external id hid
      rw [linkOf?_of_symbol? hs, hd] at hnone
      cases hnone

end SymbolTree

/-! ## What taking back links does to the trees -/

/-- Detaching files unlinks their trees and keeps the links of the others. -/
theorem LinkGraph.tree?_detachAll_rel (g : LinkGraph) (files : List FileId) (s : Snapshot)
    (other : FileId) :
    Option.Rel (fun t t' => if other ∈ files then SymbolTree.Unlinked t t' else t.Kept t')
      (s.tree? other) ((g.detachAll files s).2.tree? other) := by
  induction files generalizing g s with
  | nil =>
      refine .self fun t _ => ?_
      rw [if_neg List.not_mem_nil]
      exact SymbolTree.Kept.refl t
  | cons file files ih =>
      have hdropped : ∀ v : SymbolTree,
          v.Kept (if other ∈ g.targets file then v.dropReferencesFrom file else v) := by
        intro v
        split
        · exact SymbolTree.kept_dropReferencesFrom v file
        · exact SymbolTree.Kept.refl v
      have hstep : Option.Rel
          (fun t t' => if other = file then SymbolTree.Unlinked t t' else t.Kept t')
          (s.tree? other) ((g.unlinkIn file s).tree? other) := by
        rw [Snapshot.tree?_unlinkIn]
        cases s.tree? other with
        | none => exact .none
        | some t =>
            refine .some ?_
            by_cases hfile : other = file
            · simp only [if_pos hfile]
              exact t.unlinked_unlinkExternal.kept (hdropped t.unlinkExternal)
            · simp only [if_neg hfile]
              exact hdropped t
      refine hstep.comp (ih (g.forget file) (g.unlinkIn file s)) fun t t' t'' ht ht' => ?_
      by_cases hfile : other = file
      · rw [if_pos hfile] at ht
        rw [if_pos (hfile ▸ List.mem_cons_self)]
        split at ht'
        · exact ht.trans ht'
        · exact ht.kept ht'
      · rw [if_neg hfile] at ht
        by_cases hmem : other ∈ files
        · rw [if_pos hmem] at ht'
          rw [if_pos (List.mem_cons_of_mem _ hmem)]
          exact ht.unlinked ht'
        · rw [if_neg hmem] at ht'
          rw [if_neg fun hcons => (List.mem_cons.1 hcons).elim hfile hmem]
          exact ht.trans ht'

namespace Snapshot

variable {s s' : Snapshot} {maxDepth : Nat}

/-! ## What linking does to the trees -/

variable (maxDepth) in
/-- Linking a file continues its tree and leaves the others as they are. -/
theorem Sound.tree?_linkFile_rel (h : s.Sound) (file other : FileId) :
    Option.Rel (fun t t' => if other = file then SymbolTree.Continues t t' else t.Kept t')
      (s.tree? other) ((s.linkFile maxDepth file).1.tree? other) := by
  let Follows (t t' : SymbolTree) : Prop :=
    if other = file then SymbolTree.Continues t t' else t.Kept t'
  refine (linkFile_induction (P := fun s' => s'.Sound ∧
      (∀ a, (s'.symbol? a).isSome = (s.symbol? a).isSome) ∧
      Option.Rel Follows (s.tree? other) (s'.tree? other))
    (Q := fun d => (s.symbol? d).isSome = true) ?_ ?_ ?_ ⟨h, fun _ => rfl, ?_⟩).2.2
  · exact fun s' t hs' ht => (hs'.1.tidy file t ht).nodup_pending
  · intro s' phase ⟨hs', hfound, _⟩ l hl
    rw [← hfound]
    exact (hs'.found (K := fun _ => True) (fun _ _ _ _ _ => trivial) (fun _ _ _ _ => trivial) trivial
      phase l hl).2
  · intro s' t usage d ⟨hs', hfound, htrees⟩ ht husage hd
    rw [← hfound] at hd
    refine ⟨hs'.addLink ht husage hd, fun a => ?_, ?_⟩
    · rw [hs'.symbol?_addLink ht hd, Option.isSome_map, hfound]
    · by_cases hother : other = file
      · obtain ⟨t', ht', hlinked⟩ := hs'.linked_addLink ht husage hd
        have hstep : Option.Rel (fun v v' => v = t ∧ v' = t') (s'.tree? other)
            ((s'.addLink file (usage, d)).tree? other) := by
          rw [hother, ht, ht']
          exact .some ⟨rfl, rfl⟩
        refine htrees.comp hstep ?_
        rintro v _ _ hv ⟨rfl, rfl⟩
        simp only [Follows, if_pos hother] at hv ⊢
        exact hv.linked (hs'.tidy file _ ht) husage hlinked
      · refine htrees.comp (Sound.kept_addLink ht usage hd hother) fun v v' v'' hv hv' => ?_
        simp only [Follows, if_neg hother] at hv ⊢
        exact hv.trans hv'
  · refine .self fun t ht => ?_
    simp only [Follows]
    split
    · exact .refl (h.tidy other t ht)
    · exact .refl t

variable (maxDepth) in
/-- Linking different files continues their trees and leaves the others as they are. -/
theorem Sound.tree?_linkAll_rel (h : s.Sound) {files : List FileId} (hnodup : files.Nodup)
    (other : FileId) :
    Option.Rel (fun t t' => if other ∈ files then SymbolTree.Continues t t' else t.Kept t')
      (s.tree? other) ((Workspace.linkAll maxDepth files s).tree? other) := by
  induction files generalizing s with
  | nil =>
      refine .self fun t _ => ?_
      rw [if_neg List.not_mem_nil]
      exact SymbolTree.Kept.refl t
  | cons file files ih =>
      obtain ⟨hfile, hnodup⟩ := List.nodup_cons.1 hnodup
      obtain ⟨hs', -, -⟩ := h.linkFile file maxDepth (R := fun _ _ => True) (fun _ => trivial)
        (fun _ _ _ _ _ => trivial) (fun _ _ _ _ => trivial) (fun _ _ _ => trivial)
      refine (h.tree?_linkFile_rel maxDepth file other).comp (ih hs' hnodup)
        fun t t' t'' ht ht' => ?_
      by_cases heq : other = file
      · rw [if_pos heq] at ht
        rw [if_neg (heq ▸ hfile)] at ht'
        rw [if_pos (heq ▸ List.mem_cons_self)]
        exact ht.kept ht'
      · rw [if_neg heq] at ht
        by_cases hmem : other ∈ files
        · rw [if_pos hmem] at ht'
          rw [if_pos (List.mem_cons_of_mem _ hmem)]
          exact ht.continues ht'
        · rw [if_neg hmem] at ht'
          rw [if_neg fun hcons => (List.mem_cons.1 hcons).elim heq hmem]
          exact ht.trans ht'

/-! ## Making links again -/

/-- The uses of two snapshots are linked to nodes at the same places, and the same uses are
pending. -/
def SameLinks (s s' : Snapshot) : Prop :=
  ∀ file, Option.Rel SymbolTree.SameLinks (s.tree? file) (s'.tree? file)

end Snapshot

/-- The snapshot with the links of some files taken back. -/
def LinkGraph.unlinkAll (g : LinkGraph) (files : List FileId) (s : Snapshot) : Snapshot :=
  (g.detachAll files s).2

namespace Snapshot.Sound

variable {s : Snapshot} {g : LinkGraph} {M : FileId → FileId → Prop}
variable (h : s.Sound) (hnotes : g.Notes s.LinksInto M)
variable (hsub : ∀ source target, M source target → s.LinksInto source target)

include h hnotes hsub

/-- A workspace whose files are unlinked is sound. -/
theorem unlinkAll (files : List FileId) : (g.unlinkAll files s).Sound :=
  (h.detachAll hnotes hsub files).1.sound

variable (maxDepth : Nat)

/-- Files that are unlinked may be linked again, and the workspace is sound. -/
theorem linkAll_unlinkAll (linked files : List FileId) :
    (Workspace.linkAll maxDepth linked (g.unlinkAll files s)).Sound ∧
      Extends (· ∈ linked) (g.unlinkAll files s)
        (Workspace.linkAll maxDepth linked (g.unlinkAll files s)) := by
  obtain ⟨hsound, hextends, -⟩ := (h.unlinkAll hnotes hsub files).linkAll (R := fun _ _ => True)
    (fun _ => trivial) (fun _ _ _ _ _ => trivial) (fun _ _ _ _ => trivial)
    (fun _ _ _ => trivial) linked
  exact ⟨hsound, hextends⟩

/-- If files that are linked again find the links that they had, nothing is different for the
files that come after them. -/
theorem mirrors_unlinkAll {done rest : List FileId} (hnodup : (done ++ rest).Nodup)
    (hdone : ∀ f ∈ done, Option.Rel SymbolTree.Mirrors (s.tree? f)
      ((Workspace.linkAll maxDepth done (g.unlinkAll (done ++ rest) s)).tree? f)) :
    Mirrors (· ∈ rest) (Workspace.linkAll maxDepth done (g.unlinkAll (done ++ rest) s))
      (g.unlinkAll rest s) := by
  obtain ⟨hsound, hextends⟩ := h.linkAll_unlinkAll hnotes hsub maxDepth done (done ++ rest)
  have himports := (h.detachAll hnotes hsub (done ++ rest)).1.imports
  have himports' := (h.detachAll hnotes hsub rest).1.imports
  refine ⟨hsound, h.unlinkAll hnotes hsub rest, ?_, ?_, fun f => ?_⟩
  · exact himports'.1.trans (hextends.imports.1.trans himports.1).symm
  · exact himports'.2.1.trans (hextends.imports.2.1.trans himports.2.1).symm
  · have hrest := g.tree?_detachAll_rel rest s f
    have hall := g.tree?_detachAll_rel (done ++ rest) s f
    have hlinked := (h.unlinkAll hnotes hsub (done ++ rest)).tree?_linkAll_rel maxDepth
      (List.nodup_append.1 hnodup).1 f
    by_cases hfdone : f ∈ done
    · have hfrest : f ∉ rest := fun hmem => (List.nodup_append.1 hnodup).2.2 f hfdone f hmem rfl
      simp only [if_neg hfrest] at hrest
      exact (hdone f hfdone).flip.comp hrest fun _ _ _ ht hkept =>
        ⟨ht.symm.trans hkept.mirrors, fun hmem => absurd hmem hfrest⟩
    · simp only [if_neg hfdone] at hlinked
      by_cases hfrest : f ∈ rest
      · simp only [if_pos (List.mem_append_right done hfrest)] at hall
        simp only [if_pos hfrest] at hrest
        have hunlinked : Option.Rel (fun t t' => SymbolTree.Unlinked t t' ∧ t.Tidy) (s.tree? f)
            ((Workspace.linkAll maxDepth done (g.unlinkAll (done ++ rest) s)).tree? f) :=
          (hall.comp hlinked fun _ _ _ ht hkept => ht.kept hkept).imp_some fun t _ ht _ hunlinked =>
            ⟨hunlinked, h.tidy f t ht⟩
        refine hunlinked.flip.comp hrest fun _ t _ ht ht' => ?_
        have hnodup := ht.2.nodup_pending
        obtain ⟨hmirrors, hpending⟩ :=
          (SymbolTree.ReadAlike.refl t).mirrors_of_unlinked hnodup hnodup ht.1 ht'
        exact ⟨hmirrors, fun _ => hpending⟩
      · have hnot : f ∉ done ++ rest := fun hmem => (List.mem_append.1 hmem).elim hfdone hfrest
        simp only [if_neg hnot] at hall
        simp only [if_neg hfrest] at hrest
        have hkept := hall.comp hlinked fun _ _ _ ht ht' => ht.trans ht'
        exact hkept.flip.comp hrest fun _ _ _ ht ht' =>
          ⟨ht.mirrors.symm.trans ht'.mirrors, fun hmem => absurd hmem hfrest⟩

omit h hnotes hsub in
/-- Unlinking files and linking them again leaves trees that read alike. -/
theorem readAlike_linkAll {linked files : List FileId} (hnodup : linked.Nodup)
    (hunlinked : (g.unlinkAll files s).Sound) (f : FileId) :
    Option.Rel SymbolTree.ReadAlike (s.tree? f)
      ((Workspace.linkAll maxDepth linked (g.unlinkAll files s)).tree? f) := by
  refine (g.tree?_detachAll_rel files s f).comp (hunlinked.tree?_linkAll_rel maxDepth hnodup f)
    fun t t' t'' ht ht' => ?_
  have hleft : t.ReadAlike t' := by
    split at ht
    · exact ht.readAlike
    · exact ht.readAlike
  have hright : t'.ReadAlike t'' := by
    split at ht'
    · exact ht'.readAlike
    · exact ht'.readAlike
  exact hleft.trans hright

omit hnotes hsub in
/-- A file whose uses are linked as before has the same uses pending. -/
theorem sameLinks_of_continues {files : List FileId} {s' : Snapshot} {f : FileId}
    (hmem : f ∈ files)
    (hlinked : Option.Rel SymbolTree.Continues ((g.unlinkAll files s).tree? f) (s'.tree? f))
    (hlink : Option.Rel
      (fun t t' => ∀ id, (t.linkOf? id).map Handle.place = (t'.linkOf? id).map Handle.place)
      (s.tree? f) (s'.tree? f)) : Option.Rel SymbolTree.SameLinks (s.tree? f) (s'.tree? f) := by
  have hunlinked := g.tree?_detachAll_rel files s f
  simp only [if_pos hmem] at hunlinked
  have hboth := hunlinked.comp hlinked (T := fun t t'' => ∃ t', SymbolTree.Unlinked t t' ∧
    SymbolTree.Continues t' t'') fun _ t' _ ht ht' => ⟨t', ht, ht'⟩
  refine (hboth.and hlink).imp_some ?_
  rintro t t'' ht - ⟨⟨t', hback, hagain⟩, hplaces⟩
  exact hback.sameLinks (h.tidy f t ht) hagain hplaces

omit h hnotes hsub in
/-- What a file has been linked to is not changed when other files are linked after it. -/
theorem mirrors_linkAll_iff {done rest : List FileId} (hnodup : (done ++ rest).Nodup)
    {files : List FileId} (hsound : (Workspace.linkAll maxDepth done (g.unlinkAll files s)).Sound) {f : FileId}
    (hf : f ∉ rest) :
    Option.Rel SymbolTree.Mirrors (s.tree? f)
        ((Workspace.linkAll maxDepth done (g.unlinkAll files s)).tree? f) ↔
      Option.Rel SymbolTree.Mirrors (s.tree? f)
        ((Workspace.linkAll maxDepth (done ++ rest) (g.unlinkAll files s)).tree? f) := by
  have hkept := hsound.tree?_linkAll_rel maxDepth (List.nodup_append.1 hnodup).2.1 f
  simp only [if_neg hf] at hkept
  have happend : Workspace.linkAll maxDepth (done ++ rest) (g.unlinkAll files s) =
      Workspace.linkAll maxDepth rest (Workspace.linkAll maxDepth done (g.unlinkAll files s)) :=
    List.foldl_append
  rw [happend]
  constructor
  · exact fun hmirrors => hmirrors.comp hkept fun _ _ _ ht hk => ht.trans hk.mirrors
  · exact fun hmirrors => hmirrors.comp hkept.flip fun _ _ _ ht hk => ht.trans hk.mirrors.symm

omit hnotes hsub h in
theorem mirrors_of_sameLinks {linked files : List FileId} (hnodup : linked.Nodup)
    (hunlinked : (g.unlinkAll files s).Sound) {f : FileId}
    (hsame : Option.Rel SymbolTree.SameLinks (s.tree? f)
      ((Workspace.linkAll maxDepth linked (g.unlinkAll files s)).tree? f)) :
    Option.Rel SymbolTree.Mirrors (s.tree? f)
      ((Workspace.linkAll maxDepth linked (g.unlinkAll files s)).tree? f) :=
  (hsame.and (readAlike_linkAll maxDepth hnodup hunlinked f)).imp fun _ _ ht =>
    ⟨ht.2.outline, ht.1.link⟩

/-- If the links are the same when all files have been linked again, each file has found its links
by itself. -/
theorem sameLinks_linkFile_of_linkAll {done rest : List FileId} {f : FileId}
    (hnodup : (done ++ f :: rest).Nodup)
    (hsame : s.SameLinks
      (Workspace.linkAll maxDepth (done ++ f :: rest) (g.unlinkAll (done ++ f :: rest) s))) :
    Option.Rel SymbolTree.SameLinks (s.tree? f)
      (((g.unlinkAll (f :: rest) s).linkFile maxDepth f).1.tree? f) := by
  obtain ⟨-, htail, hdisjoint⟩ := List.nodup_append.1 hnodup
  have hunlinked := h.unlinkAll hnotes hsub (done ++ f :: rest)
  have hsounds : ∀ linked, _ := fun linked =>
    (h.linkAll_unlinkAll hnotes hsub maxDepth linked (done ++ f :: rest)).1
  have hall : ∀ f', Option.Rel SymbolTree.Mirrors (s.tree? f') _ := fun f' =>
    mirrors_of_sameLinks maxDepth hnodup hunlinked (hsame f')
  have hmirrors := h.mirrors_unlinkAll hnotes hsub maxDepth hnodup fun f' hf' =>
    (mirrors_linkAll_iff maxDepth hnodup (hsounds done)
      fun hmem => hdisjoint f' hf' f' hmem rfl).2 (hall f')
  -- The file is linked in the run and in the snapshot in which the files before it have their links.
  have hlinked := hmirrors.linkFile maxDepth List.mem_cons_self
  have hrun : Option.Rel SymbolTree.Mirrors (s.tree? f)
      (((Workspace.linkAll maxDepth done (g.unlinkAll (done ++ f :: rest) s)).linkFile maxDepth
        f).1.tree? f) := by
    have hsplit : done ++ f :: rest = (done ++ [f]) ++ rest := by simp
    have hstep : Workspace.linkAll maxDepth (done ++ [f]) (g.unlinkAll (done ++ f :: rest) s) =
        ((Workspace.linkAll maxDepth done (g.unlinkAll (done ++ f :: rest) s)).linkFile maxDepth
          f).1 := List.foldl_append
    rw [← hstep]
    refine (mirrors_linkAll_iff maxDepth (hsplit ▸ hnodup) (hsounds _)
      (List.nodup_cons.1 htail).1).2 ?_
    rw [← hsplit]
    exact hall f
  have hcontinues := (h.unlinkAll hnotes hsub (f :: rest)).tree?_linkFile_rel maxDepth f f
  simp only [if_pos] at hcontinues
  refine h.sameLinks_of_continues List.mem_cons_self hcontinues ?_
  exact hrun.comp (hlinked.tree f) fun _ _ _ ht ht' id => (ht.link id).trans (ht'.1.link id)

/-- If each file finds its links by itself, all files that have been linked again have the links
they had. -/
theorem mirrors_linkAll_of_linkFile {order : List FileId} (hnodup : order.Nodup)
    (hfiles : ∀ done f rest, order = done ++ f :: rest → Option.Rel SymbolTree.SameLinks (s.tree? f)
      (((g.unlinkAll (f :: rest) s).linkFile maxDepth f).1.tree? f))
    {done rest : List FileId} (horder : order = done ++ rest) :
    ∀ f ∈ done, Option.Rel SymbolTree.Mirrors (s.tree? f)
      ((Workspace.linkAll maxDepth done (g.unlinkAll order s)).tree? f) := by
  induction done using List.reverseRecOn generalizing rest with
  | nil => exact fun f hf => absurd hf List.not_mem_nil
  | append_singleton done f ih =>
      have hsplit : order = done ++ f :: rest := by rw [horder, List.append_assoc]; rfl
      have hunlinked := h.unlinkAll hnotes hsub order
      have hdone := ih hsplit
      have hmirrors := h.mirrors_unlinkAll hnotes hsub maxDepth (hsplit ▸ hnodup) (hsplit ▸ hdone)
      have hlinked := hmirrors.linkFile maxDepth List.mem_cons_self
      rw [← hsplit] at hlinked
      have hstep : Workspace.linkAll maxDepth (done ++ [f]) (g.unlinkAll order s) =
          ((Workspace.linkAll maxDepth done (g.unlinkAll order s)).linkFile maxDepth f).1 :=
        List.foldl_append
      have hnodup' : (done ++ [f]).Nodup := by
        rw [horder] at hnodup
        exact (List.nodup_append.1 hnodup).1
      intro f' hf'
      rcases List.mem_append.1 hf' with hf' | hf'
      · refine (mirrors_linkAll_iff maxDepth hnodup'
          (h.linkAll_unlinkAll hnotes hsub maxDepth done order).1 fun hmem => ?_).1 (hdone f' hf')
        exact (List.nodup_append.1 hnodup').2.2 f' hf' f' hmem rfl
      · rw [List.mem_singleton.1 hf'] at *
        have hsame := (hfiles done f rest hsplit).comp (hlinked.tree f).flip
          (T := fun t t' => ∀ id, (t.linkOf? id).map Handle.place = (t'.linkOf? id).map Handle.place)
          fun _ _ _ ht ht' id => (ht.link id).trans (ht'.1.link id).symm
        have halike := readAlike_linkAll (s := s) maxDepth hnodup' hunlinked f
        rw [hstep] at halike ⊢
        exact (hsame.and halike).imp fun _ _ ht => ⟨ht.2.outline, ht.1⟩

/-- If links are taken back and the files are linked again in some order, the links are the same
afterwards if and only if each file finds the links it has while the files behind it in the order
have none. -/
theorem sameLinks_linkAll_iff {order : List FileId} (hnodup : order.Nodup) :
    s.SameLinks (Workspace.linkAll maxDepth order (g.unlinkAll order s)) ↔
      ∀ done f rest, order = done ++ f :: rest → Option.Rel SymbolTree.SameLinks (s.tree? f)
        (((g.unlinkAll (f :: rest) s).linkFile maxDepth f).1.tree? f) := by
  constructor
  · rintro hsame done f rest rfl
    exact h.sameLinks_linkFile_of_linkAll hnotes hsub maxDepth hnodup hsame
  · intro hfiles f
    have hcontinues := (h.unlinkAll hnotes hsub order).tree?_linkAll_rel maxDepth hnodup f
    by_cases hf : f ∈ order
    · simp only [if_pos hf] at hcontinues
      have hmirrors := h.mirrors_linkAll_of_linkFile hnotes hsub maxDepth hnodup hfiles
        (List.append_nil order).symm f hf
      exact h.sameLinks_of_continues hf hcontinues (hmirrors.imp fun _ _ ht => ht.link)
    · simp only [if_neg hf] at hcontinues
      have hkept := g.tree?_detachAll_rel order s f
      simp only [if_neg hf] at hkept
      refine hkept.comp hcontinues fun _ _ _ ht ht' => ?_
      have hboth := ht.trans ht'
      exact ⟨hboth.mirrors.link, fun id => by rw [hboth.pending]⟩

end Snapshot.Sound

end SolidityAtlas

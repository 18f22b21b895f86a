import SolidityAtlas.Proofs.Workspace.Linking

/-!
# Snapshots that mirror each other

Two snapshots mirror each other if their trees have the same outlines and the uses in
them are linked to nodes at the same places. Generations may differ, and so may what
declarations list. Such snapshots agree, so what a phase finds in one of them it finds
in the other, and when a file is linked in both they mirror each other again
(`Mirrors.linkFile`).

A phase goes through the pending uses of a file in their order. So the file that is
linked must have the same pending uses in the same order on both sides; of the other
files this need not be known.

## Main Definitions

* `SymbolTree.linkOf?`: what a use is linked to
* `SymbolTree.Mirrors`, `Snapshot.Mirrors`

## Main Results

* `Snapshot.Mirrors.agree`
* `Snapshot.Mirrors.linkFile`, `Snapshot.Mirrors.linkAll`
-/

namespace SolidityAtlas

/-- Where a node is to be found: its file, and its number there. -/
def Handle.place (a : Handle) : FileId × NodeId :=
  (a.file, a.node)

namespace SymbolTree

/-- What a use is linked to. -/
def linkOf? (t : SymbolTree) (id : NodeId) : Option Handle :=
  (t.symbol? id).bind Symbol.declaration

/-- Two trees have one outline, and their uses are linked to nodes at the same places. -/
structure Mirrors (t u : SymbolTree) : Prop where
  outline : t.outline = u.outline
  link : ∀ id, (t.linkOf? id).map Handle.place = (u.linkOf? id).map Handle.place

namespace Mirrors

variable {t u v : SymbolTree}

/-- A tree that mirrors another one is mirrored by it. -/
theorem symm (h : Mirrors t u) : Mirrors u t :=
  ⟨h.outline.symm, fun id => (h.link id).symm⟩

theorem trans (h : Mirrors t u) (h' : Mirrors u v) : Mirrors t v :=
  ⟨h.outline.trans h'.outline, fun id => (h.link id).trans (h'.link id)⟩

end Mirrors

theorem linkOf?_of_symbol? {t : SymbolTree} {id : NodeId} {s : Symbol} (hs : t.symbol? id = some s) :
    t.linkOf? id = s.declaration := by
  rw [linkOf?, hs, Option.bind_some]

/-- A link into another file is the link of its use, and no other one. -/
theorem linkOf?_linkExternal {t : SymbolTree} {u : NodeId} (hu : u < t.size) (d : Handle)
    (id : NodeId) : (t.linkExternal u d).linkOf? id = if id = u then some d else t.linkOf? id := by
  rw [linkOf?, linkOf?, symbol?_linkExternal]
  by_cases heq : id = u
  · obtain ⟨s, hs⟩ := exists_symbol?_of_lt hu
    rw [heq, hs, Option.map_some, Option.bind_some, if_pos rfl, if_pos rfl]
    rfl
  · simp only [if_neg heq, Option.map_id']

/-- A back link changes no link. -/
theorem linkOf?_addReference (t : SymbolTree) (d : NodeId) (u : Handle) (id : NodeId) :
    (t.addReference d u).linkOf? id = t.linkOf? id := by
  rw [linkOf?, linkOf?, symbol?_addReference]
  cases t.symbol? id with
  | none => rfl
  | some s =>
      rw [Option.map_some, Option.bind_some, Option.bind_some]
      split <;> rfl

end SymbolTree

/-! ## Values by file -/

namespace FileMap

variable {α : Type}

/-- In an ascending row an entry is found under its key. -/
theorem find?_of_mem {es : List (FileId × α)} (h : es.Pairwise fun a b => a.1 < b.1)
    {e : FileId × α} (he : e ∈ es) : find? e.1 es = some e.2 := by
  induction es with
  | nil => cases he
  | cons d es ih =>
      obtain ⟨hd, hes⟩ := List.pairwise_cons.1 h
      rw [find?]
      rcases List.mem_cons.1 he with rfl | he
      · rw [if_pos rfl]
      · rw [if_neg (Nat.ne_of_gt (hd e he)), ih hes he]

/-- The values of a table are the values of its files. -/
theorem values_eq (m : FileMap α) : m.values = m.keys.filterMap m.get? := by
  rw [values, keys, List.filterMap_map, ← List.filterMap_eq_map]
  exact List.filterMap_congr fun e he => (find?_of_mem m.sorted he).symm

/-- Maps with the same files have the same keys. -/
theorem keys_eq {β : Type} {m : FileMap α} {m' : FileMap β}
    (h : ∀ file, (m.get? file).isSome = (m'.get? file).isSome) : m.keys = m'.keys := by
  have hperm : m.keys.Perm m'.keys :=
    (List.perm_ext_iff_of_nodup m.nodup_keys m'.nodup_keys).2 fun file => by
      rw [mem_keys_iff, mem_keys_iff, h]
  have hsorted : ∀ {γ : Type} (m : FileMap γ), m.keys.Pairwise (· < ·) := fun m =>
    List.pairwise_map.2 m.sorted
  exact hperm.eq_of_pairwise (fun a b _ _ hab hba => absurd hab (Nat.lt_asymm hba)) (hsorted m)
    (hsorted m')

end FileMap

namespace Snapshot

/-- How many symbols imports list is decided by the outlines. -/
theorem listedCount_congr {s s' : Snapshot} (h : ∀ file, Option.Rel
    (fun t u : SymbolTree => t.outline = u.outline) (s.tree? file) (s'.tree? file)) :
    s.listedCount = s'.listedCount := by
  let count (t : SymbolTree) : Nat := t.nodes.countP (·.kind == .importSymbol)
  have hcount : ∀ {t u : SymbolTree}, t.outline = u.outline → count t = count u := by
    have hbare : ∀ t : SymbolTree, count t = count t.outline := fun t => by
      simp only [count, SymbolTree.outline, Array.countP_map]
      rfl
    intro t u houtline
    rw [hbare t, hbare u, houtline]
  have hvalues : List.Forall₂ (fun t u : SymbolTree => t.outline = u.outline) s.trees.values
      s'.trees.values := by
    rw [FileMap.values_eq, FileMap.values_eq, FileMap.keys_eq fun f => (h f).isSome_eq]
    exact List.Forall₂.filterMap_rel h _
  have htotal : ∀ {ts us : List SymbolTree},
      List.Forall₂ (fun t u : SymbolTree => t.outline = u.outline) ts us →
        total count ts = total count us := by
    intro ts us hts
    induction hts with
    | nil => rfl
    | cons houtline _ ih => exact congrArg₂ (· + ·) (hcount houtline) ih
  exact htotal hvalues

/-- Two sound snapshots whose trees mirror each other, with the same pending uses in the files
`P`. -/
structure Mirrors (P : FileId → Prop) (s s' : Snapshot) : Prop where
  left : s.Sound
  right : s'.Sound
  files : s'.files = s.files
  remappings : s'.remappings = s.remappings
  tree : ∀ file, Option.Rel (fun t u => t.Mirrors u ∧ (P file → t.pending = u.pending))
    (s.tree? file) (s'.tree? file)

namespace Mirrors

variable {P : FileId → Prop} {s s' : Snapshot} (h : Mirrors P s s') {file : FileId}

include h

/-- Mirrored trees have one outline. -/
theorem outline (f : FileId) :
    (s'.tree? f).map SymbolTree.outline = (s.tree? f).map SymbolTree.outline := by
  have htrees := h.tree f
  cases ht : s.tree? f with
  | none =>
      rw [ht] at htrees
      rw [htrees.eq_none]
  | some t =>
      obtain ⟨u, hu, hmirrors, -⟩ := htrees.exists_right ht
      rw [hu, Option.map_some, Option.map_some, hmirrors.outline]

theorem isInstalled : s'.isInstalled = s.isInstalled := by
  funext f
  rw [Snapshot.isInstalled, Snapshot.isInstalled, FileMap.contains, FileMap.contains]
  exact (h.tree f).isSome_eq.symm

/-- Snapshots that mirror each other agree on all files. -/
theorem agree : Agree (fun _ => True) s s' where
  tree f _ := by
    refine (h.tree f).imp_some fun t u ht hu htu => ⟨h.left.home f t ht, htu.1.outline, ?_⟩
    intro id x y hx hy
    have hplace := htu.1.link id
    rw [SymbolTree.linkOf?_of_symbol? hx, SymbolTree.linkOf?_of_symbol? hy] at hplace
    cases hd : x.declaration with
    | none =>
        rw [hd, Option.map_none, eq_comm, Option.map_eq_none_iff] at hplace
        rw [hplace]
        exact .none
    | some d =>
        rw [hd, Option.map_some, eq_comm] at hplace
        obtain ⟨e, he, hde⟩ := Option.map_eq_some_iff.1 hplace
        rw [he]
        have hleft : s.forest.declaration? (t.handle id) = some d := by
          rw [Forest.declaration?, symbol?_forest, h.left.symbol?_handle ht, hx, Option.bind_some, hd]
        have hright : s'.forest.declaration? (u.handle id) = some e := by
          rw [Forest.declaration?, symbol?_forest, h.right.symbol?_handle hu, hy, Option.bind_some,
            he]
        exact .some ⟨trivial, (congrArg Prod.fst hde).symm, (congrArg Prod.snd hde).symm,
          h.left.paired.isSome_declaration hleft, h.right.paired.isSome_declaration hright⟩
  target f _ directive :=
    (importTarget?_congr h.files h.remappings h.isInstalled (h.outline f) directive).symm
  closed _ _ _ _ _ := trivial

/-- The same symbols are listed on both sides. -/
theorem listedCount_eq : s.listedCount = s'.listedCount :=
  listedCount_congr fun f => (h.tree f).imp fun _ _ htu => htu.1.outline

end Mirrors

end Snapshot

/-! ## What a link does to the trees -/

namespace SymbolTree

variable {t u t' u' : SymbolTree}

/-- One tree is another one, apart from what its declarations list. -/
structure Kept (t t' : SymbolTree) : Prop where
  outline : t'.outline = t.outline
  link : ∀ id, t'.linkOf? id = t.linkOf? id
  pending : t'.pending = t.pending
  external : t'.external = t.external

theorem Kept.refl (t : SymbolTree) : Kept t t :=
  ⟨rfl, fun _ => rfl, rfl, rfl⟩

theorem Kept.trans {t'' : SymbolTree} (h : Kept t t') (h' : Kept t' t'') : Kept t t'' :=
  ⟨h'.outline.trans h.outline, fun id => (h'.link id).trans (h.link id), h'.pending.trans h.pending,
    h'.external.trans h.external⟩

theorem Kept.mirrors (h : Kept t t') : Mirrors t t' :=
  ⟨h.outline.symm, fun id => by rw [h.link]⟩

theorem kept_addReference (t : SymbolTree) (d : NodeId) (a : Handle) : Kept t (t.addReference d a) :=
  ⟨t.outline_addReference d a, t.linkOf?_addReference d a, rfl, rfl⟩

/-- One tree is another one with one more use linked, apart from what its declarations list. -/
structure Linked (usage : NodeId) (d : Handle) (t t' : SymbolTree) : Prop where
  outline : t'.outline = t.outline
  link : ∀ id, t'.linkOf? id = if id = usage then some d else t.linkOf? id
  pending : t'.pending = t.pending.erase usage
  external : t'.external = appendNew t.external usage

theorem Linked.kept {usage : NodeId} {d : Handle} {t'' : SymbolTree} (h : Linked usage d t t')
    (h' : Kept t' t'') : Linked usage d t t'' :=
  ⟨h'.outline.trans h.outline, fun id => (h'.link id).trans (h.link id), h'.pending.trans h.pending,
    h'.external.trans h.external⟩

/-- A link into another file links one use. -/
theorem linked_linkExternal {usage : NodeId} (husage : usage < t.size) (d : Handle) :
    Linked usage d t (t.linkExternal usage d) :=
  ⟨t.outline_linkExternal usage d, linkOf?_linkExternal husage d, rfl, rfl⟩

/-- Trees that mirror each other do so after a use of both is linked to the same place. -/
theorem Mirrors.linked (h : Mirrors t u) {usage : NodeId} {d e : Handle} (hde : d.place = e.place)
    (ht : Linked usage d t t') (hu : Linked usage e u u') : Mirrors t' u' := by
  refine ⟨ht.outline.trans (h.outline.trans hu.outline.symm), fun id => ?_⟩
  rw [ht.link, hu.link]
  split
  · exact congrArg some hde
  · exact h.link id

end SymbolTree

namespace Snapshot

variable {s s' : Snapshot} {file : FileId} {maxDepth : Nat}

namespace Sound

variable (h : s.Sound) {t : SymbolTree} (ht : s.tree? file = some t) {usage : NodeId}
variable (husage : usage ∈ t.pending) {d : Handle} (hd : (s.symbol? d).isSome = true)

include h ht husage hd

/-- A link links its use in the tree of its file. -/
theorem linked_addLink :
    ∃ t', (s.addLink file (usage, d)).tree? file = some t' ∧ t.Linked usage d t' := by
  obtain ⟨x, hx, -⟩ := (h.tidy file t ht).pending usage husage
  have hlinked := SymbolTree.linked_linkExternal (SymbolTree.lt_size_of_symbol? hx) d
  refine ⟨_, by rw [tree?_addLink ht hd, ht]; rfl, ?_⟩
  simp only [↓reduceIte]
  split
  · exact hlinked.kept (SymbolTree.kept_addReference _ _ _)
  · exact hlinked

omit h husage in
variable (usage) in
/-- A link keeps the links of the other trees. -/
theorem kept_addLink {other : FileId} (hne : other ≠ file) :
    Option.Rel SymbolTree.Kept (s.tree? other) ((s.addLink file (usage, d)).tree? other) := by
  rw [tree?_addLink ht hd]
  cases s.tree? other with
  | none => exact .none
  | some v =>
      refine .some ?_
      simp only [if_neg hne]
      split
      · exact SymbolTree.kept_addReference _ _ _
      · exact SymbolTree.Kept.refl v

end Sound

/-! ## Linking in two snapshots -/

namespace Mirrors

variable {P : FileId → Prop} (h : Mirrors P s s') (hP : P file)

include h hP

/-- A pending use is linked alike on both sides. -/
theorem addLink {t u : SymbolTree} (ht : s.tree? file = some t) (hu : s'.tree? file = some u)
    {usage : NodeId} (husage : usage ∈ t.pending) {d e : Handle}
    (hde : Forest.Counterpart (fun _ => True) s.forest s'.forest d e) :
    Mirrors P (s.addLink file (usage, d)) (s'.addLink file (usage, e)) := by
  have htrees := h.tree file
  rw [ht, hu] at htrees
  obtain ⟨htu, hpending⟩ := Option.rel_some_some.1 htrees
  have husage' : usage ∈ u.pending := by
    rw [← hpending hP]
    exact husage
  refine ⟨h.left.addLink ht husage hde.left, h.right.addLink hu husage' hde.right, ?_, ?_,
    fun other => ?_⟩
  · rw [addLink_eq ht hde.left, addLink_eq hu hde.right]
    exact h.files
  · rw [addLink_eq ht hde.left, addLink_eq hu hde.right]
    exact h.remappings
  · by_cases hother : other = file
    · obtain ⟨t', ht', hlinked⟩ := h.left.linked_addLink ht husage hde.left
      obtain ⟨u', hu', hlinked'⟩ := h.right.linked_addLink hu husage' hde.right
      rw [hother, ht', hu']
      refine .some ⟨htu.linked (Prod.ext hde.file hde.node) hlinked hlinked', fun _ => ?_⟩
      rw [hlinked.pending, hlinked'.pending, hpending hP]
    · have hkept := Sound.kept_addLink ht usage hde.left hother
      have hkept' := Sound.kept_addLink hu usage hde.right hother
      have hleft : Option.Rel (fun v' w => v'.Mirrors w ∧ (P other → v'.pending = w.pending))
          ((s.addLink file (usage, d)).tree? other) (s'.tree? other) :=
        hkept.flip.comp (h.tree other) fun _ _ _ hv hvw =>
          ⟨hv.mirrors.symm.trans hvw.1, fun hf => hv.pending.trans (hvw.2 hf)⟩
      exact hleft.comp hkept' fun _ _ _ hvw hw =>
        ⟨hvw.1.trans hw.mirrors, fun hf => (hvw.2 hf).trans hw.pending.symm⟩

/-- What is found in one of the snapshots is found in the other, so it is linked in both. -/
theorem addLinks {links links' : List (NodeId × Handle)}
    (hlinks : List.Forall₂ (fun l l' => l.1 = l'.1 ∧
      Forest.Counterpart (fun _ => True) s.forest s'.forest l.2 l'.2) links links')
    (hnodup : (links.map (·.1)).Nodup)
    (hpending : ∀ t, s.tree? file = some t → ∀ usage ∈ links.map (·.1), usage ∈ t.pending) :
    Mirrors P (s.addLinks file links) (s'.addLinks file links') := by
  induction links generalizing s s' links' with
  | nil =>
      cases hlinks
      exact h
  | cons l links ih =>
      cases hlinks with
      | @cons _ l' _ links' hl hlinks =>
      obtain ⟨hfirst, hnodup⟩ := List.nodup_cons.1 hnodup
      have hinstalled := (h.tree file).isSome_eq
      cases ht : s.tree? file with
      | none =>
          rw [ht, eq_comm, Option.isSome_none, Option.isSome_eq_false_iff, Option.isNone_iff_eq_none] at hinstalled
          have hnone : ∀ {v : Snapshot} (ls : List (NodeId × Handle)), v.tree? file = none →
              v.addLinks file ls = v := by
            intro v ls hv
            induction ls with
            | nil => rfl
            | cons k ls ih =>
                have hk : v.addLink file k = v := by rw [Snapshot.addLink, hv]
                exact (congrArg (Snapshot.addLinks · file ls) hk).trans ih
          rw [hnone _ ht, hnone _ hinstalled]
          exact h
      | some t =>
          obtain ⟨u, hu, -⟩ := (h.tree file).exists_right ht
          have husage := hpending t ht l.1 List.mem_cons_self
          have hstep := h.addLink hP ht hu husage hl.2
          have hright : s'.addLink file l' = s'.addLink file (l.1, l'.2) := by rw [hl.1]
          obtain ⟨t', ht', hlinked⟩ := h.left.linked_addLink ht husage hl.2.left
          rw [← hright] at hstep
          have hrest : List.Forall₂ (fun k k' => k.1 = k'.1 ∧ Forest.Counterpart (fun _ => True)
              (s.addLink file l).forest (s'.addLink file l').forest k.2 k'.2) links links' := by
            refine hlinks.imp ?_
            rintro k k' ⟨hsame, hk⟩
            refine ⟨hsame, hk.within, hk.file, hk.node, ?_, ?_⟩
            · rw [h.left.forest_addLink ht hl.2.left, Option.isSome_map]
              exact hk.left
            · rw [hright, h.right.forest_addLink hu hl.2.right, Option.isSome_map]
              exact hk.right
          refine ih hstep hrest hnodup ?_
          intro t'' ht'' v hv
          have hlinkedtree : (s.addLink file l).tree? file = some t' := ht'
          rw [hlinkedtree] at ht''
          cases ht''
          rw [hlinked.pending, List.mem_erase_of_ne]
          · exact hpending t ht v (List.mem_cons_of_mem _ hv)
          · intro heq
            rw [heq] at hv
            exact hfirst hv

variable (maxDepth)

/-- The same uses are linked in a phase, and to counterparts. -/
theorem linksIn_rel (phase : Phase) :
    List.Forall₂ (fun l l' => l.1 = l'.1 ∧
      Forest.Counterpart (fun _ => True) s.forest s'.forest l.2 l'.2)
      (s.linksIn maxDepth phase file) (s'.linksIn maxDepth phase file) := by
  have htrees := h.tree file
  cases ht : s.tree? file with
  | none =>
      rw [ht] at htrees
      simp only [linksIn, ht, htrees.eq_none]
      exact .nil
  | some t =>
      obtain ⟨u, hu, -, hpending⟩ := htrees.exists_right ht
      exact h.agree.linksIn_rel h.listedCount_eq maxDepth trivial ht hu phase (hpending hP)

/-- A phase that links once links alike on both sides. -/
theorem addLinks_linksIn (phase : Phase) :
    Mirrors P (s.addLinks file (s.linksIn maxDepth phase file))
      (s'.addLinks file (s'.linksIn maxDepth phase file)) := by
  refine h.addLinks hP (h.linksIn_rel maxDepth hP phase) ?_ fun t ht usage husage => ?_
  · cases ht : s.tree? file with
    | none =>
        rw [linksIn, ht]
        exact List.nodup_nil
    | some t => exact (h.left.tidy file t ht).nodup_pending.sublist (map_fst_linksIn_sublist ht phase)
  · exact (map_fst_linksIn_sublist ht phase).subset husage

/-- A phase links alike on both sides until nothing is left, and as often. -/
theorem exhaust (phase : Phase) :
    Mirrors P (exhaust maxDepth phase file s).1 (exhaust maxDepth phase file s').1 ∧
      (Snapshot.exhaust maxDepth phase file s).2 = (Snapshot.exhaust maxDepth phase file s').2 := by
  fun_induction Snapshot.exhaust maxDepth phase file s generalizing s' with
  | case1 s links =>
      rename_i hnil
      have hlinks := h.linksIn_rel maxDepth hP phase
      have hnil' : s'.linksIn maxDepth phase file = [] := by
        rw [show s.linksIn maxDepth phase file = [] from hnil] at hlinks
        exact List.forall₂_nil_left_iff.1 hlinks
      rw [Snapshot.exhaust, dif_pos hnil']
      exact ⟨h, rfl⟩
  | case2 s links hne linked n heq =>
      rename_i ih
      have hlinks := h.linksIn_rel maxDepth hP phase
      have hne' : s'.linksIn maxDepth phase file ≠ [] := by
        intro hnil
        rw [hnil] at hlinks
        exact hne (List.forall₂_nil_right_iff.1 hlinks)
      obtain ⟨hmirrors, hcount⟩ := ih (h.addLinks_linksIn maxDepth hP phase)
      rw [heq] at hmirrors hcount
      rw [Snapshot.exhaust, dif_neg hne']
      exact ⟨hmirrors, congrArg₂ (· + ·) hlinks.length_eq hcount⟩

/-- A round links alike on both sides, and as often. -/
theorem linkRound :
    Mirrors P (linkRound maxDepth file s).1 (linkRound maxDepth file s').1 ∧
      (Snapshot.linkRound maxDepth file s).2 = (Snapshot.linkRound maxDepth file s').2 := by
  obtain ⟨himports, hcount₁⟩ := h.exhaust maxDepth hP .imports
  have hnames := himports.linksIn_rel maxDepth hP .names
  obtain ⟨hmembers, hcount₂⟩ :=
    (himports.addLinks_linksIn maxDepth hP .names).exhaust maxDepth hP
      .members
  refine ⟨hmembers, ?_⟩
  simp only [Snapshot.linkRound]
  rw [hcount₁, hnames.length_eq, hcount₂]

/-- When a file is linked in two snapshots that mirror each other, they do so afterwards. -/
theorem linkFile :
    Mirrors P (linkFile maxDepth file s).1 (linkFile maxDepth file s').1 := by
  fun_induction Snapshot.linkFile maxDepth file s generalizing s' with
  | case1 s r =>
      rename_i hzero
      obtain ⟨hround, hcount⟩ := h.linkRound maxDepth hP
      rw [Snapshot.linkFile, dif_pos (hcount.symm.trans hzero)]
      exact hround
  | case2 s r hne linked n heq =>
      rename_i ih
      obtain ⟨hround, hcount⟩ := h.linkRound maxDepth hP
      rw [Snapshot.linkFile, dif_neg fun hzero => hne (hcount.trans hzero)]
      have hlinked := ih hround
      rw [heq] at hlinked
      exact hlinked

omit hP in
/-- When files are linked in two snapshots that mirror each other, they do so afterwards. -/
theorem linkAll {files : List FileId} (hfiles : ∀ f ∈ files, P f) :
    Mirrors P (Workspace.linkAll maxDepth files s) (Workspace.linkAll maxDepth files s') := by
  induction files generalizing s s' with
  | nil => exact h
  | cons file files ih =>
      exact ih (h.linkFile maxDepth (hfiles file List.mem_cons_self)) fun f hf =>
        hfiles f (List.mem_cons_of_mem _ hf)

end Mirrors

end Snapshot

end SolidityAtlas

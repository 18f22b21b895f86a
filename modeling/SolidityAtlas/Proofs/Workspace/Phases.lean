import SolidityAtlas.Proofs.Symbol.Gains
import SolidityAtlas.Proofs.Workspace.Mirror

/-!
# The phases of linking

What imports offer, and what the symbols that they list stand for, depends on the outlines, on
what the imports mean, and on what the listed symbols are linked to, but on no other link
(`SameImports`). So after the first phase has been repeated until it finds nothing more, it
finds nothing in the phases and rounds that follow either: the uses that are looked up in the
first phase keep the links that they have then (`Sound.afterImports_linkFile`).

## Main Definitions

* `SymbolTree.SameShape`: two trees with one outline and the same handles
* `Snapshot.SameImports`: imports offer the same in two snapshots
* `Snapshot.LinksMore`: a snapshot has certain links more than another one
* `Snapshot.AfterImports`: the first phase is over

## Main Results

* `Snapshot.SameImports.importTargetOf?_eq`
* `Snapshot.Sound.addLinks_linksIn`: what the links that a phase finds change
* `Snapshot.AfterImports.addLinks_linksIn`, `Snapshot.Sound.afterImports_linkFile`
-/

namespace SolidityAtlas

namespace SymbolTree

/-- Two trees have one outline, and their nodes the same handles. -/
structure SameShape (t t' : SymbolTree) : Prop where
  outline : t'.outline = t.outline
  handle : ∀ id, id < t.size → t'.handle id = t.handle id

namespace SameShape

variable {t t' : SymbolTree} (h : SameShape t t')

include h

/-- A tree with more links owns the same handles. -/
theorem owns_eq (a : Handle) : t'.owns a = t.owns a := by
  rw [Bool.eq_iff_iff, owns_iff, owns_iff, size_congr h.outline]
  refine exists_congr fun id => and_congr_right fun hid => ?_
  rw [h.handle id hid]

/-- A handle leads to the same node, links aside. -/
theorem lookup?_rel (a : Handle) :
    Option.Rel (fun s v => s.bare = v.bare) (t'.lookup? a) (t.lookup? a) := by
  rw [lookup?, lookup?, h.owns_eq]
  split
  · exact symbol?_congr h.outline a.node
  · exact .none

/-- The symbols of a node differ in links only. -/
theorem bare_eq {id : NodeId} {x y : Symbol} (hx : t.symbol? id = some x) (hy : t'.symbol? id = some y) :
    y.bare = x.bare := by
  obtain ⟨x', hx', hbare⟩ := symbol?_of_outline h.outline hy
  obtain rfl : x = x' := Option.some.inj (hx.symm.trans hx')
  exact hbare

end SameShape

/-- The phase of a use is read off the outline. -/
theorem phaseOf_congr {t t' : SymbolTree} (h : t'.outline = t.outline) {usage : NodeId} {x y : Symbol}
    (hbare : y.bare = x.bare) : t'.phaseOf usage y = t.phaseOf usage x := by
  rw [phaseOf, phaseOf, Symbol.kind_congr hbare, Symbol.isByName_congr hbare, isBaseName_congr h]

/-- A name that names no base is looked up in the second phase. -/
theorem phaseOf_of_isByName {t : SymbolTree} {u : NodeId} {x : Symbol} (hname : x.isByName = true)
    (hbase : t.isBaseName u = false) : t.phaseOf u x = .names := by
  have hkind : x.kind ≠ .importSymbol := fun hk => by
    rw [Symbol.isByName, hk] at hname
    cases hname
  have hnot : ¬ (x.kind = .userDefinedTypeName ∧ t.isBaseName u = true) := fun hand => by
    rw [hbase] at hand
    cases hand.2
  rw [phaseOf, if_neg hkind, if_neg hnot, hname]
  rfl

end SymbolTree

namespace Snapshot

variable {s s' : Snapshot} {file : FileId} {maxDepth : Nat} {linked : FileId → Prop}

/-! ## What links leave as it is -/

/-- Links leave the shapes of the trees as they are. -/
theorem Extends.shape (h : Extends linked s s') (hs : s.Sound) (hs' : s'.Sound) (other : FileId) :
    Option.Rel SymbolTree.SameShape (s.tree? other) (s'.tree? other) := by
  have houtline := h.outline other
  cases ht : s.tree? other with
  | none =>
      rw [ht, Option.map_none, Option.map_eq_none_iff] at houtline
      rw [houtline]
      exact .none
  | some t =>
      rw [ht, Option.map_some] at houtline
      obtain ⟨t', ht', houtline⟩ := Option.map_eq_some_iff.1 houtline
      rw [ht']
      refine .some ⟨houtline, fun id hid => ?_⟩
      -- The handle of a node finds it before and afterwards, so it is the handle of both.
      obtain ⟨x, hx⟩ := SymbolTree.exists_symbol?_of_lt hid
      have hfound : (s'.symbol? (t.handle id)).isSome = true := by
        rw [h.found, hs.symbol?_handle ht, hx]
        rfl
      exact ((hs'.eq_handle_iff hfound ht').2 ⟨hs.home other t ht, rfl⟩).symm

/-- Where a file is linked further, its tree keeps its shape. -/
theorem Extends.sameShape (h : Extends linked s s') (hs : s.Sound) (hs' : s'.Sound) {t t' : SymbolTree}
    (ht : s.tree? file = some t) (ht' : s'.tree? file = some t') : SymbolTree.SameShape t t' := by
  obtain ⟨v, hv, hshape⟩ := (h.shape hs hs' file).exists_right ht
  obtain rfl : t' = v := Option.some.inj (ht'.symm.trans hv)
  exact hshape

/-- Links are gained. -/
theorem Extends.gains (h : Extends linked s s') (hs : s.Sound) (hs' : s'.Sound) :
    s.forest.Gains s'.forest := by
  refine ⟨fun a => ?_, h.kept⟩
  have hshape := h.shape hs hs' a.file
  show ((s'.tree? a.file).filter (·.owns a)).map _ = ((s.tree? a.file).filter (·.owns a)).map _
  cases ht : s.tree? a.file with
  | none =>
      rw [ht] at hshape
      rw [hshape.eq_none]
  | some t =>
      obtain ⟨t', ht', htt'⟩ := (ht ▸ hshape).exists_right rfl
      rw [ht', Option.filter_some, Option.filter_some, htt'.owns_eq]
      split
      · rw [Option.map_some, Option.map_some, htt'.outline]
      · rfl

/-! ## What imports offer -/

/-- Two snapshots whose trees have the same shapes, in which imports mean the same files and the symbols
that they list are linked to the same declarations. -/
structure SameImports (s s' : Snapshot) : Prop where
  target : ∀ file directive, s'.importTarget? file directive = s.importTarget? file directive
  installed : s'.installed = s.installed
  tree : ∀ file, Option.Rel (fun t t' => SymbolTree.SameShape t t' ∧
    ∀ id, t.kind? id = some .importSymbol → t'.linkOf? id = t.linkOf? id) (s.tree? file) (s'.tree? file)

namespace SameImports

variable (h : SameImports s s')

include h

theorem symbol?_rel (a : Handle) :
    Option.Rel (fun x y => x.bare = y.bare) (s'.symbol? a) (s.symbol? a) := by
  have htree := h.tree a.file
  rw [symbol?, symbol?]
  cases ht : s.tree? a.file with
  | none =>
      rw [ht] at htree
      rw [htree.eq_none]
      exact .none
  | some t =>
      obtain ⟨t', ht', hshape, -⟩ := (ht ▸ htree).exists_right rfl
      rw [ht', Option.bind_some, Option.bind_some]
      exact hshape.lookup?_rel a

theorem stopsOf_eq {t t' : SymbolTree} (houtline : t'.outline = t.outline) :
    s'.stopsOf t' = s.stopsOf t := by
  have hstop : ∀ directive, s'.stopAt? t' directive = s.stopAt? t directive := fun directive => by
    rw [stopAt?, stopAt?, SymbolTree.listedSymbols_congr houtline,
      SymbolTree.fileAlias?_congr houtline, SymbolTree.file_congr houtline, h.target]
  rw [stopsOf, stopsOf, SymbolTree.imports_congr houtline]
  exact List.filterMap_congr fun directive _ => hstop directive

theorem walk_eq (fresh : List FileId) (stops : List Stop) : s'.walk fresh stops = s.walk fresh stops := by
  induction fresh, stops using walk.induct s with
  | case1 fresh => rw [walk, walk]
  | case2 fresh file directive stops ih => rw [walk, walk, ih]
  | case3 fresh file stops hmem t ht ih =>
      obtain ⟨t', ht', hshape, -⟩ := (h.tree file).exists_right ht
      rw [walk_installed hmem ht, walk_installed hmem ht', h.stopsOf_eq hshape.outline, ih]
  | case4 fresh file stops hmem ht ih =>
      have ht' : s'.tree? file = none := by
        have htree := h.tree file
        rw [ht] at htree
        exact htree.eq_none
      rw [walk_absent hmem ht, walk_absent hmem ht', ih]
  | case5 fresh file stops hmem ih =>
      rw [walk, walk, dif_neg hmem, dif_neg hmem, ih]

section Offers

variable {follow : FileId → NodeId → Option Handle} {accept accept' : Symbol → Bool}
  (haccept : ∀ x y : Symbol, x.bare = y.bare → accept' x = accept y)

include haccept

theorem offerAt?_file_eq (name : String) (file : FileId) :
    s'.offerAt? follow name accept' (.file file) = s.offerAt? follow name accept (.file file) := by
  refine ((h.tree file).bind_eq fun t t' hsame => ?_).symm
  obtain ⟨hshape, -⟩ := hsame
  have hnamed : ∀ id, ((t'.symbol? id).any fun d => d.name == some name && accept' d) =
      (t.symbol? id).any fun d => d.name == some name && accept d := fun id =>
    (SymbolTree.symbol?_congr hshape.outline id).any_eq fun x y hxy => by
      rw [Symbol.name_congr hxy, haccept x y hxy]
  simp only [SymbolTree.exported_congr hshape.outline, hnamed]
  cases hid : t.exported.find? fun id =>
      (t.symbol? id).any fun d => d.name == some name && accept d with
  | none => rfl
  | some id =>
      have hany := List.find?_some hid
      obtain ⟨x, hx, -⟩ := (Option.any_eq_true _ _).1 hany
      exact congrArg some (hshape.handle id (SymbolTree.lt_size_of_symbol? hx)).symm

theorem offerAt?_directive_eq (name : String) (file : FileId) (directive : NodeId) :
    s'.offerAt? follow name accept' (.directive file directive) =
      s.offerAt? follow name accept (.directive file directive) := by
  refine ((h.tree file).bind_eq fun t t' hsame => ?_).symm
  obtain ⟨hshape, hlisted⟩ := hsame
  have hany : (t'.symbol? directive).any accept' = (t.symbol? directive).any accept :=
    (SymbolTree.symbol?_congr hshape.outline directive).any_eq haccept
  simp only [SymbolTree.listedSymbols_congr hshape.outline, SymbolTree.fileAlias?_congr hshape.outline,
    hany, SymbolTree.localName?_congr hshape.outline]
  split
  · split
    · rename_i hcond
      obtain ⟨x, hx, -⟩ := (Option.any_eq_true _ _).1 hcond.2
      exact congrArg some (hshape.handle directive (SymbolTree.lt_size_of_symbol? hx)).symm
    · rfl
  · refine List.findSome?_congr_left fun id hid => ?_
    have hkind : t.kind? id = some .importSymbol :=
      eq_of_beq (List.mem_filter.1 (List.mem_filter.1 hid).1).2
    have hlink : (t'.symbol? id).bind Symbol.declaration = (t.symbol? id).bind Symbol.declaration :=
      hlisted id hkind
    have haccepts : (fun d => (s'.symbol? d).any accept') = fun d => (s.symbol? d).any accept :=
      funext fun d => (h.symbol?_rel d).any_eq haccept
    rw [hlink, haccepts]

/-- A walk is offered the same. -/
theorem offered?_eq (fresh : List FileId) (stops : List Stop) (name : String) :
    s'.offered? follow fresh stops name accept' = s.offered? follow fresh stops name accept := by
  rw [offered?, offered?, h.walk_eq]
  refine List.findSome?_congr_left fun stop _ => ?_
  cases stop with
  | file file => exact h.offerAt?_file_eq haccept name file
  | directive file directive => exact h.offerAt?_directive_eq haccept name file directive

end Offers

/-- Symbols that imports list stand for the same. -/
theorem symbolTargetWithin_eq (hops : Nat) (file : FileId) (id : NodeId) :
    s'.symbolTargetWithin hops file id = s.symbolTargetWithin hops file id := by
  induction hops generalizing file id with
  | zero => rfl
  | succ hops ih =>
      have hfollow : s'.symbolTargetWithin hops = s.symbolTargetWithin hops :=
        funext fun file => funext fun id => ih file id
      unfold symbolTargetWithin
      refine ((h.tree file).bind_eq fun t t' hsame => ?_).symm
      obtain ⟨hshape, -⟩ := hsame
      rw [SymbolTree.name?_congr hshape.outline, SymbolTree.parent?_congr hshape.outline, hfollow,
        h.installed]
      simp only [h.target, h.offered?_eq fun _ _ _ => rfl]

theorem listedCount_eq : s'.listedCount = s.listedCount :=
  (listedCount_congr fun file => (h.tree file).imp fun _ _ hsame => hsame.1.outline.symm).symm

theorem follow?_eq : s'.follow? = s.follow? := by
  funext file id
  rw [follow?, follow?, h.listedCount_eq, h.symbolTargetWithin_eq]

/-- The same is imported. -/
theorem imported?_eq {accept accept' : Symbol → Bool}
    (haccept : ∀ x y : Symbol, x.bare = y.bare → accept' x = accept y) (visited : List FileId)
    (file : FileId) (name : String) :
    s'.imported? visited file name accept' = s.imported? visited file name accept := by
  refine ((h.tree file).bind_eq fun t t' hsame => ?_).symm
  obtain ⟨hshape, -⟩ := hsame
  rw [h.offered?_eq haccept, h.follow?_eq, h.installed, h.stopsOf_eq hshape.outline]

/-- What reaches a file through its imports and can be what a use refers to is the same. -/
theorem importedFor?_eq (file : FileId) {x y : Symbol} (hbare : y.bare = x.bare) :
    s'.importedFor? file y = s.importedFor? file x := by
  rw [importedFor?, importedFor?, Symbol.name_congr hbare]
  refine congrArg _ (funext fun name => ?_)
  exact h.imported?_eq (fun _ _ hd => Symbol.acceptsKind_congr hd hbare) [file] file name

/-- What a use refers to that is looked up in the first phase is the same. -/
theorem importTargetOf?_eq {t t' : SymbolTree} (houtline : t'.outline = t.outline) (usage : NodeId)
    {x y : Symbol} (hbare : y.bare = x.bare) :
    s'.importTargetOf? t' usage y = s.importTargetOf? t usage x := by
  rw [importTargetOf?, importTargetOf?, Symbol.kind_congr hbare, SymbolTree.file_congr houtline,
    h.importedFor?_eq t.file hbare]
  split
  · rw [symbolTarget?, symbolTarget?, h.listedCount_eq, h.symbolTargetWithin_eq]
  · rfl

end SameImports

/-! ## What a phase finds -/

/-- The declaration of a node is the link of the tree. -/
theorem Sound.declaration?_handle (h : s.Sound) {t : SymbolTree} (ht : s.tree? file = some t)
    (id : NodeId) : s.forest.declaration? (t.handle id) = t.linkOf? id := by
  rw [Forest.declaration?, symbol?_forest, h.symbol?_handle ht, SymbolTree.linkOf?]

/-- The links that a phase finds. -/
theorem mem_linksIn_iff {t : SymbolTree} (ht : s.tree? file = some t) {phase : Phase} {u : NodeId}
    {d : Handle} : (u, d) ∈ s.linksIn maxDepth phase file ↔ u ∈ t.pending ∧ ∃ x e,
      t.symbol? u = some x ∧ t.phaseOf u x = phase ∧ s.targetOf? maxDepth phase t u x = some e ∧
        s.forest.target x e = d := by
  simp only [linksIn, ht, List.mem_filterMap]
  constructor
  · rintro ⟨v, hv, hlink⟩
    obtain ⟨x, hx, hlink⟩ := Option.bind_eq_some_iff.1 hlink
    obtain ⟨hx, hphase⟩ := Option.filter_eq_some_iff.1 hx
    obtain ⟨e, he, heq⟩ := Option.map_eq_some_iff.1 hlink
    obtain ⟨rfl, rfl⟩ := Prod.mk.inj heq
    exact ⟨hv, x, e, hx, beq_iff_eq.1 hphase, he, rfl⟩
  · rintro ⟨hu, x, e, hx, rfl, he, rfl⟩
    refine ⟨u, hu, ?_⟩
    rw [linkFor?, hx, Option.filter_some, beq_self_eq_true, if_pos rfl, Option.bind_some, he,
      Option.map_some]

/-- A snapshot has some links of a file more than another one, where `t` is the tree of the file. -/
structure LinksMore (file : FileId) (t : SymbolTree) (links : List (NodeId × Handle))
    (s s' : Snapshot) : Prop where
  sound : s'.Sound
  more : Extends (· = file) s s'
  pending : ∃ t', s'.tree? file = some t' ∧ ∀ u, u ∈ t'.pending ↔ u ∈ t.pending ∧ u ∉ links.map (·.1)
  declaration : ∀ u d, s'.forest.declaration? (t.handle u) = some d ↔
    s.forest.declaration? (t.handle u) = some d ∨ (u, d) ∈ links

/-- Links of pending uses to nodes that exist are found in the tree, and the others stay. -/
theorem Sound.addLinks (h : s.Sound) {t : SymbolTree} (ht : s.tree? file = some t)
    {links : List (NodeId × Handle)} (hlinks : (links.map (·.1)).Nodup)
    (hpending : ∀ l ∈ links, l.1 ∈ t.pending) (hexists : ∀ l ∈ links, (s.symbol? l.2).isSome = true) :
    LinksMore file t links s (s.addLinks file links) := by
  -- The links are for different uses, so what one of them links stays pending for none of the others.
  induction links generalizing s t with
  | nil =>
      refine ⟨h, .refl _ s, ⟨t, ht, fun u => ?_⟩, fun u d => ?_⟩
      · exact ⟨fun hu => ⟨hu, List.not_mem_nil⟩, fun hu => hu.1⟩
      · exact ⟨.inl, fun hd => hd.resolve_right List.not_mem_nil⟩
  | cons l links ih =>
      obtain ⟨hnot, hlinks⟩ := List.nodup_cons.1 hlinks
      have hu := hpending l List.mem_cons_self
      have hd := hexists l List.mem_cons_self
      have hmore := (Extends.refl (· = file) s).addLink h ht rfl hu hd
      obtain ⟨husage, hnone⟩ := h.declaration?_of_pending ht hu
      have hdeclaration := Forest.declaration?_link (h.forest_addLink ht hd) husage
      obtain ⟨t₁, ht₁, hpending₁, hhandle⟩ := exists_tree?_addLink ht l
      have herase : ∀ u, u ∈ t₁.pending ↔ u ≠ l.1 ∧ u ∈ t.pending := fun u => by
        rw [hpending₁, (h.tidy file t ht).nodup_pending.mem_erase_iff]
      obtain ⟨hsound, hmore', ⟨t', ht', hpending'⟩, hdeclaration'⟩ :=
        ih (h.addLink ht hu hd) ht₁ hlinks
          (fun k hk => (herase k.1).2 ⟨fun heq => hnot (List.mem_map.2 ⟨k, hk, heq⟩),
            hpending k (List.mem_cons_of_mem _ hk)⟩)
          fun k hk => (hmore.found k.2).trans (hexists k (List.mem_cons_of_mem _ hk))
      refine ⟨hsound, hmore.trans hmore', ⟨t', ht', fun u => ?_⟩, fun u d => ?_⟩
      · rw [hpending', herase, List.map_cons, List.mem_cons, not_or, and_comm (a := u ≠ l.1), and_assoc]
      · rw [← hhandle, addLinks, List.foldl_cons]
        refine (hdeclaration' u d).trans ?_
        rw [hhandle, hdeclaration, List.mem_cons, ← or_assoc]
        refine or_congr_left ?_
        split
        · rename_i heq
          obtain rfl : u = l.1 := congrArg Handle.node heq
          rw [hnone, Option.some.injEq, Prod.ext_iff]
          exact ⟨fun hd => .inr ⟨rfl, hd.symm⟩, fun hd => (hd.resolve_left nofun).2.symm⟩
        · rename_i hne
          refine ⟨.inl, fun hd => hd.resolve_right fun heq => hne ?_⟩
          rw [← heq]

variable (maxDepth) in
/-- The links that a phase finds are added to those of the file. -/
theorem Sound.addLinks_linksIn (h : s.Sound) {t : SymbolTree} (ht : s.tree? file = some t)
    (phase : Phase) : LinksMore file t (s.linksIn maxDepth phase file) s
      (s.addLinks file (s.linksIn maxDepth phase file)) := by
  have hsub : ((s.linksIn maxDepth phase file).map (·.1)).Sublist t.pending :=
    map_fst_linksIn_sublist ht phase
  refine h.addLinks ht ((h.tidy file t ht).nodup_pending.sublist hsub) (fun l hl => ?_) fun l hl => ?_
  · exact hsub.subset (List.mem_map_of_mem hl)
  · exact (h.found (K := fun _ => True) (fun _ _ _ _ _ => trivial) (fun _ _ _ _ => trivial) trivial
      phase l hl).2

/-! ## The first phase -/

/-- When a phase has ended it finds nothing more. -/
theorem linksIn_exhaust (phase : Phase) (s : Snapshot) :
    (exhaust maxDepth phase file s).1.linksIn maxDepth phase file = [] := by
  fun_induction exhaust maxDepth phase file s with
  | case1 s links hnone => exact hnone
  | case2 s links hne linked n heq ih =>
      rw [heq] at ih
      exact ih

/-- Imports offer the same as before, as long as the symbols that they list are linked to the same
declarations. -/
theorem Extends.sameImports (h : Extends linked s s') (hs : s.Sound) (hs' : s'.Sound)
    (hlisted : ∀ file t id, s.tree? file = some t → t.kind? id = some .importSymbol →
      s'.forest.declaration? (t.handle id) = s.forest.declaration? (t.handle id)) :
    SameImports s s' where
  target := h.importTarget?_eq
  installed := h.installed
  tree file := by
    refine (h.shape hs hs' file).imp_some fun t t' ht ht' hshape => ⟨hshape, fun id hk => ?_⟩
    have hlt : id < t.size := by
      obtain ⟨x, hx, -⟩ := Option.map_eq_some_iff.1 hk
      exact SymbolTree.lt_size_of_symbol? hx
    rw [← hs.declaration?_handle ht, ← hs'.declaration?_handle ht', hshape.handle id hlt]
    exact hlisted file t id ht hk

/-- More uses of a file have been linked, and those that are looked up in the first phase are linked as
they were; `t` is the tree of the file. -/
structure AfterImports (file : FileId) (t : SymbolTree) (s s' : Snapshot) : Prop where
  sound : s'.Sound
  more : Extends (· = file) s s'
  pending : ∃ t', s'.tree? file = some t' ∧ ∀ u ∈ t'.pending, u ∈ t.pending
  imports : ∀ u x, t.symbol? u = some x → t.phaseOf u x = .imports →
    s'.forest.declaration? (t.handle u) = s.forest.declaration? (t.handle u)

/-- Linking after the imports leaves the imports alone. -/
theorem AfterImports.sameImports {t : SymbolTree} (h : AfterImports file t s s') (hs : s.Sound)
    (ht : s.tree? file = some t) : SameImports s s' := by
  refine h.more.sameImports hs h.sound fun other t' id ht' hk => ?_
  by_cases hother : other = file
  · rw [hother, ht] at ht'
    cases ht'
    obtain ⟨x, hx, hkind⟩ := Option.map_eq_some_iff.1 hk
    exact h.imports id x hx (if_pos hkind)
  · exact h.more.others _ fun hfile => hother ((hs.home other t' ht').symm.trans hfile)

/-- A phase behind the first one leaves what the first one has linked, if that has been repeated until it
finds nothing more. -/
theorem AfterImports.addLinks_linksIn {t : SymbolTree} (h : AfterImports file t s s') (hs : s.Sound)
    (ht : s.tree? file = some t) (hdone : s.linksIn maxDepth .imports file = []) (phase : Phase) :
    AfterImports file t s (s'.addLinks file (s'.linksIn maxDepth phase file)) := by
  obtain ⟨t', ht', hpending⟩ := h.pending
  obtain ⟨hsound, hmore, ⟨t'', ht'', hpending'⟩, hdeclaration⟩ := h.sound.addLinks_linksIn maxDepth ht' phase
  have hshape := h.more.sameShape hs h.sound ht ht'
  refine ⟨hsound, h.more.trans hmore, ⟨t'', ht'', fun u hu => hpending u ((hpending' u).1 hu).1⟩,
    fun u x hx hphase => ?_⟩
  rw [← h.imports u x hx hphase, ← hshape.handle u (SymbolTree.lt_size_of_symbol? hx)]
  refine Option.ext fun d => (hdeclaration u d).trans (or_iff_left fun hmem => ?_)
  -- What is found for a use of the first phase now would have been found before.
  obtain ⟨hu, y, e, hy, rfl, he, -⟩ := (mem_linksIn_iff ht').1 hmem
  have hbare := hshape.bare_eq hx hy
  rw [SymbolTree.phaseOf_congr hshape.outline hbare, hphase] at he
  have hthen : s.importTargetOf? t u x = some e :=
    ((h.sameImports hs ht).importTargetOf?_eq hshape.outline u hbare).symm.trans he
  have hfound : (u, s.forest.target x e) ∈ s.linksIn maxDepth .imports file :=
    (mem_linksIn_iff ht).2 ⟨hpending u hu, x, e, hx, hphase, hthen, rfl⟩
  rw [hdone] at hfound
  cases hfound

variable (maxDepth) in
/-- A phase leaves the uses that are not looked up in it pending. -/
theorem Sound.exhaust (h : s.Sound) {t : SymbolTree} (ht : s.tree? file = some t) (phase : Phase) :
    (s.exhaust maxDepth phase file).1.Sound ∧
      Extends (· = file) s (s.exhaust maxDepth phase file).1 ∧
      ∃ t₁, (s.exhaust maxDepth phase file).1.tree? file = some t₁ ∧
        ∀ u x, t.symbol? u = some x → t.phaseOf u x ≠ phase → u ∈ t.pending → u ∈ t₁.pending := by
  refine exhaust_batches (P := fun s' => s'.Sound ∧ Extends (· = file) s s' ∧
    ∃ t₁, s'.tree? file = some t₁ ∧ ∀ u x, t.symbol? u = some x → t.phaseOf u x ≠ phase →
      u ∈ t.pending → u ∈ t₁.pending) (fun s' ⟨hs', hextends, t₁, ht₁, hkept⟩ => ?_)
    ⟨h, .refl _ s, t, ht, fun _ _ _ _ hu => hu⟩
  obtain ⟨hsound, hmore, ⟨t₂, ht₂, hpending⟩, -⟩ := hs'.addLinks_linksIn maxDepth ht₁ phase
  refine ⟨hsound, hextends.trans hmore, t₂, ht₂, fun u x hx hphase hu => ?_⟩
  refine (hpending u).2 ⟨hkept u x hx hphase hu, fun hlinked => hphase ?_⟩
  obtain ⟨⟨_, d⟩, hmem, rfl⟩ := List.mem_map.1 hlinked
  obtain ⟨-, y, -, hy, hthen, -⟩ := (mem_linksIn_iff ht₁).1 hmem
  have hshape := hextends.sameShape h hs' ht ht₁
  rw [← SymbolTree.phaseOf_congr hshape.outline (hshape.bare_eq hx hy), hthen]

/-- The uses of a file that are looked up in the first phase keep the links that they have when it has
been repeated for the first time, and what names are linked to then they are linked to in the end. -/
theorem Sound.afterImports_linkFile {t₁ : SymbolTree} (h : s'.Sound) (ht₁ : s'.tree? file = some t₁)
    (hs' : s' = (s.exhaust maxDepth .imports file).1) :
    AfterImports file t₁ s' (s.linkFile maxDepth file).1 ∧
      Extends (· = file) (s'.addLinks file (s'.linksIn maxDepth .names file))
        (s.linkFile maxDepth file).1 := by
  have hdone : s'.linksIn maxDepth .imports file = [] := by
    rw [hs']
    exact linksIn_exhaust .imports s
  have hafter : AfterImports file t₁ s' s' :=
    ⟨h, .refl _ s', ⟨t₁, ht₁, fun _ hu => hu⟩, fun _ _ _ _ => rfl⟩
  refine linkFile_of_names (P := fun s'' => AfterImports file t₁ s' s'' ∧
    Extends (· = file) (s'.addLinks file (s'.linksIn maxDepth .names file)) s'') ?_ ?_
  · intro s'' phase ⟨hafter', hnames⟩
    obtain ⟨t', ht', -⟩ := hafter'.pending
    exact ⟨hafter'.addLinks_linksIn h ht₁ hdone phase,
      hnames.trans (hafter'.sound.addLinks_linksIn maxDepth ht' phase).more⟩
  · rw [← hs']
    exact ⟨hafter.addLinks_linksIn h ht₁ hdone .names, .refl _ _⟩

end Snapshot

end SolidityAtlas

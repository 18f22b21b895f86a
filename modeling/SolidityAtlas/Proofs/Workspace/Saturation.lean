import SolidityAtlas.Proofs.Workspace.ListedSymbols
import SolidityAtlas.Proofs.Workspace.Phases

/-!
# Linking a file to the end

A phase may make links that let another one find more: the name of a base brings inherited
names with it, and a name the members behind its dot. So the phases are gone through in
rounds, until a round finds nothing. Such a round leaves the snapshot as it is, so all its
phases have found nothing in one and the same snapshot, and that is the one which is given
back (`nothing_found_linkFile`).

Each link takes one use out of the pending ones (`pendingCount_linkFile`). Beside that it
touches the symbol of this use and the references of what the use is linked to, and nothing
else (`onlyLinks_linkFile`). All of this is so in every snapshot, whether its links fit each
other or not.

## Main Definitions

* `Symbol.GainsFrom`, `SymbolTree.GainsFrom`: nothing has changed but that references have come
* `Snapshot.OnlyLinks`: nothing has changed but by links of pending uses of one file

## Main Results

* `Snapshot.saturated_linkFile`
-/

namespace SolidityAtlas

/-! ## References that come -/

/-- A symbol has its references, and behind them more of certain ones, and is as it was otherwise. -/
def Symbol.GainsFrom (source : Handle → Prop) (x x' : Symbol) : Prop :=
  ∃ more, (∀ u ∈ more, source u) ∧ x' = { x with references := x.references ++ more }

namespace Symbol.GainsFrom

variable {source : Handle → Prop} {x x' : Symbol}

theorem refl (source : Handle → Prop) (x : Symbol) : x.GainsFrom source x :=
  ⟨[], fun _ hu => absurd hu List.not_mem_nil, by rw [List.append_nil]⟩

/-- A node gains a back link. -/
theorem addReference (h : x.GainsFrom source x') {u : Handle} (hu : source u) :
    x.GainsFrom source (x'.addReference u) := by
  obtain ⟨more, hmore, rfl⟩ := h
  unfold Symbol.addReference appendNew
  split
  · exact ⟨more, hmore, rfl⟩
  · refine ⟨more ++ [u], fun v hv => ?_, by rw [List.append_assoc]⟩
    rcases List.mem_append.1 hv with hv | hv
    · exact hmore v hv
    · rwa [List.mem_singleton.1 hv]

/-- A node that gains back links keeps its declaration. -/
theorem declaration_eq (h : x.GainsFrom source x') : x'.declaration = x.declaration := by
  obtain ⟨more, -, rfl⟩ := h
  rfl

end Symbol.GainsFrom

/-- A tree is as it was but that its symbols have gained references of certain uses. -/
structure SymbolTree.GainsFrom (source : Handle → Prop) (t t' : SymbolTree) : Prop where
  outline : t'.outline = t.outline
  generation : t'.generation = t.generation
  pending : t'.pending = t.pending
  external : t'.external = t.external
  symbol : ∀ id, Option.Rel (Symbol.GainsFrom source) (t.symbol? id) (t'.symbol? id)

/-- Some pending uses of a tree have been linked. What is not pending is as it was but that it has
gained references of certain uses. -/
structure SymbolTree.LinksPending (source : Handle → Prop) (t t' : SymbolTree) : Prop where
  file : t'.file = t.file
  generation : t'.generation = t.generation
  pending : t'.pending.Sublist t.pending
  outline : t'.outline = t.outline
  symbol : ∀ id, id ∉ t.pending →
    Option.Rel (Symbol.GainsFrom source) (t.symbol? id) (t'.symbol? id)

/-- The uses that are not pending keep their links. -/
theorem SymbolTree.LinksPending.linkOf?_eq {source : Handle → Prop} {t t' : SymbolTree}
    (h : t.LinksPending source t') {id : NodeId} (hid : id ∉ t.pending) :
    t'.linkOf? id = t.linkOf? id :=
  ((h.symbol id hid).bind_eq fun _ _ hx => hx.declaration_eq.symm).symm

namespace Snapshot

variable {s s' : Snapshot} {file other : FileId} {maxDepth : Nat}

/-- A handle of a use that is pending in a file. -/
def PendsIn (s : Snapshot) (file : FileId) (u : Handle) : Prop :=
  ∃ t, s.tree? file = some t ∧ ∃ id ∈ t.pending, u = t.handle id

/-- A snapshot is as it was but that some pending uses of a file have been linked: the trees of
other files have gained references of these uses. -/
structure OnlyLinks (file : FileId) (s s' : Snapshot) : Prop where
  imports : s'.files = s.files ∧ s'.remappings = s.remappings ∧ s'.edges = s.edges
  own : Option.Rel (SymbolTree.LinksPending (s.PendsIn file)) (s.tree? file) (s'.tree? file)
  others : ∀ other, other ≠ file →
    Option.Rel (SymbolTree.GainsFrom (s.PendsIn file)) (s.tree? other) (s'.tree? other)

/-! ## What links change -/

theorem OnlyLinks.refl (file : FileId) (s : Snapshot) : OnlyLinks file s s where
  imports := ⟨rfl, rfl, rfl⟩
  own := .self fun _ _ => ⟨rfl, rfl, List.Sublist.refl _, rfl, fun _ _ => .self fun x _ => .refl _ x⟩
  others _ _ := .self fun _ _ => ⟨rfl, rfl, rfl, rfl, fun _ => .self fun x _ => .refl _ x⟩

/-- The use of a link is linked. -/
theorem OnlyLinks.linkExternal (h : OnlyLinks file s s') {t : SymbolTree} (ht : s.tree? file = some t)
    {u : NodeId} (hu : u ∈ t.pending) (d : Handle) :
    OnlyLinks file s (s'.modifyTree file (·.linkExternal u d)) where
  imports := h.imports
  own := by
    rw [tree?_modifyTree, if_pos rfl]
    refine h.own.map_right fun v v' hv hlinked => ?_
    obtain rfl : t = v := Option.some.inj (ht.symm.trans hv)
    refine ⟨hlinked.file, hlinked.generation, List.erase_sublist.trans hlinked.pending, ?_,
      fun id hid => ?_⟩
    · rw [SymbolTree.outline_linkExternal, hlinked.outline]
    · rw [SymbolTree.symbol?_linkExternal]
      refine (hlinked.symbol id hid).map_right fun x x' _ hx => ?_
      have hne : id ≠ u := fun heq => hid (heq ▸ hu)
      rwa [if_neg hne]
  others other hother := by
    rw [tree?_modifyTree, if_neg hother]
    exact h.others other hother

/-- The declaration of a link gains a reference. -/
theorem OnlyLinks.addReference (h : OnlyLinks file s s') {u : Handle} (hu : s.PendsIn file u)
    (target : FileId) (d : NodeId) :
    OnlyLinks file s (s'.modifyTree target (·.addReference d u)) := by
  have hgains : ∀ {x x' : Symbol} (id : NodeId), x.GainsFrom (s.PendsIn file) x' →
      x.GainsFrom (s.PendsIn file) (if id = d then x'.addReference u else x') := by
    intro x x' id hx
    split
    · exact hx.addReference hu
    · exact hx
  refine ⟨h.imports, ?_, fun other hother => ?_⟩
  · rw [tree?_modifyTree]
    split
    · rename_i heq
      rw [← heq]
      refine h.own.map_right fun v v' _ hlinked => ⟨hlinked.file, hlinked.generation,
        hlinked.pending, by rw [SymbolTree.outline_addReference, hlinked.outline], fun id hid => ?_⟩
      rw [SymbolTree.symbol?_addReference]
      exact (hlinked.symbol id hid).map_right fun x x' _ => hgains id
    · exact h.own
  · rw [tree?_modifyTree]
    split
    · rename_i heq
      rw [← heq]
      refine (h.others other hother).map_right fun v v' _ hgained => ⟨?_, hgained.generation,
        hgained.pending, hgained.external, fun id => ?_⟩
      · rw [SymbolTree.outline_addReference, hgained.outline]
      · rw [SymbolTree.symbol?_addReference]
        exact (hgained.symbol id).map_right fun x x' _ => hgains id
    · exact h.others other hother

/-- A link of a pending use only links. -/
theorem OnlyLinks.addLink (h : OnlyLinks file s s') {t : SymbolTree} (ht : s.tree? file = some t)
    {l : NodeId × Handle} (hl : l.1 ∈ t.pending) : OnlyLinks file s (s'.addLink file l) := by
  obtain ⟨t', ht', hlinked⟩ := h.own.exists_right ht
  have husage : s.PendsIn file (t'.handle l.1) := by
    refine ⟨t, ht, l.1, hl, ?_⟩
    rw [SymbolTree.handle, SymbolTree.handle, hlinked.file, hlinked.generation]
  rw [Snapshot.addLink, ht']
  simp only
  split
  · exact (h.linkExternal ht hl l.2).addReference husage l.2.file l.2.node
  · exact h.linkExternal ht hl l.2

theorem OnlyLinks.addLinks (h : OnlyLinks file s s') {t : SymbolTree} (ht : s.tree? file = some t)
    {links : List (NodeId × Handle)} (hlinks : ∀ l ∈ links, l.1 ∈ t.pending) :
    OnlyLinks file s (s'.addLinks file links) := by
  induction links generalizing s' with
  | nil => exact h
  | cons l links ih =>
      exact ih (h.addLink ht (hlinks l List.mem_cons_self)) fun k hk =>
        hlinks k (List.mem_cons_of_mem _ hk)

/-- What a phase finds are links of pending uses. -/
theorem OnlyLinks.addLinks_linksIn (h : OnlyLinks file s s') (phase : Phase) :
    OnlyLinks file s (s'.addLinks file (s'.linksIn maxDepth phase file)) := by
  cases ht : s.tree? file with
  | none =>
      have ht' : s'.tree? file = none := by
        have hown := h.own
        rw [ht] at hown
        exact hown.eq_none
      rw [linksIn, ht']
      exact h
  | some t =>
      obtain ⟨t', ht', hlinked⟩ := h.own.exists_right ht
      refine h.addLinks ht fun l hl => hlinked.pending.subset ?_
      exact (map_fst_linksIn_sublist ht' phase).subset (List.mem_map_of_mem hl)

/-- Linking a file only links. -/
theorem onlyLinks_linkFile (s : Snapshot) (maxDepth : Nat) (file : FileId) :
    OnlyLinks file s (s.linkFile maxDepth file).1 :=
  linkFile_batches (fun _ phase h => h.addLinks_linksIn phase) (.refl file s)

/-- The shape of the snapshot is as it was. -/
theorem OnlyLinks.sameShape (h : OnlyLinks file s s') : SameShape s s' := by
  refine ⟨h.imports.1, h.imports.2.1, h.imports.2.2, fun other => ?_⟩
  by_cases heq : other = file
  · rw [heq]
    exact h.own.imp fun _ _ hlinked => hlinked.outline.symm
  · exact (h.others other heq).imp fun _ _ hgained => hgained.outline.symm

/-- Trees that are only linked stay under their files. -/
theorem OnlyLinks.home (h : OnlyLinks file s s') (hhome : ∀ f t, s.tree? f = some t → t.file = f) :
    ∀ f t', s'.tree? f = some t' → t'.file = f := by
  intro f t' ht'
  obtain ⟨t, ht, houtline⟩ := (h.sameShape.tree f).flip.exists_right ht'
  exact (SymbolTree.file_congr houtline).symm.trans (hhome f t ht)

/-! ## How many uses are linked -/

/-- Each link of a pending use takes it out of the pending ones. -/
theorem pendingCount_addLinks {t : SymbolTree} (ht : s.tree? file = some t)
    {links : List (NodeId × Handle)} (hlinks : (links.map (·.1)).Sublist t.pending) :
    (s.addLinks file links).pendingCount file + links.length = t.pending.length := by
  induction links generalizing s t with
  | nil => exact s.pendingCount_eq ht
  | cons l links ih =>
      obtain ⟨t', ht', hpending, -⟩ := exists_tree?_addLink ht l
      have hrest : (links.map (·.1)).Sublist t'.pending := by
        rw [hpending]
        simpa using hlinks.erase l.1
      have hmem : l.1 ∈ t.pending := hlinks.subset List.mem_cons_self
      have hlength := ih ht' hrest
      rw [hpending, List.length_erase_of_mem hmem] at hlength
      have hpos := List.length_pos_of_mem hmem
      rw [Snapshot.addLinks, List.foldl_cons, List.length_cons]
      rw [Snapshot.addLinks] at hlength
      omega

/-- What a phase finds at once it takes from the count. -/
theorem pendingCount_addLinks_linksIn (s : Snapshot) (maxDepth : Nat) (phase : Phase) (file : FileId) :
    (s.addLinks file (s.linksIn maxDepth phase file)).pendingCount file +
      (s.linksIn maxDepth phase file).length = s.pendingCount file := by
  cases ht : s.tree? file with
  | none =>
      rw [linksIn, ht]
      rfl
  | some t =>
      rw [pendingCount_addLinks ht (map_fst_linksIn_sublist ht phase), s.pendingCount_eq ht]

/-- What a phase links it takes from the count. -/
theorem pendingCount_exhaust (s : Snapshot) (maxDepth : Nat) (phase : Phase) (file : FileId) :
    (s.exhaust maxDepth phase file).1.pendingCount file + (s.exhaust maxDepth phase file).2 =
      s.pendingCount file := by
  fun_induction exhaust maxDepth phase file s with
  | case1 => rfl
  | case2 s links _ linked n heq ih =>
      rw [heq] at ih
      have hstep : (s.addLinks file links).pendingCount file + links.length = s.pendingCount file :=
        s.pendingCount_addLinks_linksIn maxDepth phase file
      have hrest : linked.pendingCount file + n = (s.addLinks file links).pendingCount file := ih
      show linked.pendingCount file + (links.length + n) = s.pendingCount file
      omega

/-- What a round links it takes from the count. -/
theorem pendingCount_linkRound (s : Snapshot) (maxDepth : Nat) (file : FileId) :
    (s.linkRound maxDepth file).1.pendingCount file + (s.linkRound maxDepth file).2 =
      s.pendingCount file := by
  have himports := s.pendingCount_exhaust maxDepth .imports file
  simp only [linkRound]
  generalize s.exhaust maxDepth .imports file = p at himports ⊢
  have hnames := p.1.pendingCount_addLinks_linksIn maxDepth .names file
  have hmembers := (p.1.addLinks file (p.1.linksIn maxDepth .names file)).pendingCount_exhaust
    maxDepth .members file
  omega

/-- The number of links is the number of uses that are not pending any more. -/
theorem pendingCount_linkFile (s : Snapshot) (maxDepth : Nat) (file : FileId) :
    (s.linkFile maxDepth file).1.pendingCount file + (s.linkFile maxDepth file).2 =
      s.pendingCount file := by
  fun_induction linkFile maxDepth file s with
  | case1 s r h =>
      have hround := s.pendingCount_linkRound maxDepth file
      rw [h] at hround
      exact hround
  | case2 s r _ linked n heq ih =>
      rw [heq] at ih
      have hround : r.1.pendingCount file + r.2 = s.pendingCount file :=
        s.pendingCount_linkRound maxDepth file
      have hrest : linked.pendingCount file + n = r.1.pendingCount file := ih
      show linked.pendingCount file + (r.2 + n) = s.pendingCount file
      omega

/-! ## The last round -/

/-- A phase that has made no links has found none, and has left the snapshot as it was. -/
theorem exhaust_eq_self {phase : Phase} (h : (s.exhaust maxDepth phase file).2 = 0) :
    (s.exhaust maxDepth phase file).1 = s ∧ s.linksIn maxDepth phase file = [] := by
  rw [exhaust] at h ⊢
  split
  · rename_i hnone
    exact ⟨rfl, hnone⟩
  · rename_i hsome
    rw [dif_neg hsome] at h
    exact absurd (List.length_eq_zero_iff.1 (Nat.eq_zero_of_add_eq_zero_right h)) hsome

/-- A round that has made no links has found none in any phase. -/
theorem linkRound_eq_self (h : (s.linkRound maxDepth file).2 = 0) :
    (s.linkRound maxDepth file).1 = s ∧ ∀ phase, s.linksIn maxDepth phase file = [] := by
  simp only [linkRound, Nat.add_eq_zero_iff, List.length_eq_zero_iff] at h ⊢
  obtain ⟨⟨himports, hnames⟩, hmembers⟩ := h
  obtain ⟨hself, himports⟩ := exhaust_eq_self himports
  rw [hself] at hnames hmembers ⊢
  rw [hnames] at hmembers ⊢
  obtain ⟨hself', hmembers⟩ := exhaust_eq_self hmembers
  refine ⟨hself', fun phase => ?_⟩
  cases phase with
  | imports => exact himports
  | names => exact hnames
  | members => exact hmembers

/-- When a file has been linked, no phase finds anything more for it. -/
theorem nothing_found_linkFile (s : Snapshot) (maxDepth : Nat) (file : FileId) (phase : Phase) :
    (s.linkFile maxDepth file).1.linksIn maxDepth phase file = [] := by
  fun_induction linkFile maxDepth file s with
  | case1 s r h =>
      obtain ⟨hself, hnone⟩ := linkRound_eq_self h
      rw [hself]
      exact hnone phase
  | case2 s r _ linked n heq ih =>
      rw [heq] at ih
      exact ih

/-- What is still pending then refers to nothing that could be found. -/
theorem targetOf?_eq_none {t : SymbolTree} (ht : s.tree? file = some t)
    (hnone : ∀ phase, s.linksIn maxDepth phase file = []) {u : NodeId} (hu : u ∈ t.pending) {x : Symbol}
    (hx : t.symbol? u = some x) : s.targetOf? maxDepth (t.phaseOf u x) t u x = none := by
  by_contra hsome
  obtain ⟨d, hd⟩ := Option.ne_none_iff_exists'.1 hsome
  have hfound := (mem_linksIn_iff ht).2 ⟨hu, x, d, hx, rfl, hd, rfl⟩
  rw [hnone] at hfound
  cases hfound

/-- Linking a file comes to an end, where no phase finds a link any more: what is still pending
refers to nothing that could be found in the snapshot that is given back. The number that comes with
it is the number of uses that have left the pending ones. The links that the file had have stayed,
and the other files have gained nothing but references of these uses.

If listed symbols lead away from the files that list them, then what is found does not depend on
the bound up to which they are followed. -/
theorem saturated_linkFile (s : Snapshot) (maxDepth : Nat) (file : FileId) :
    let (s', n) := s.linkFile maxDepth file
    (∀ phase, s'.linksIn maxDepth phase file = []) ∧
      (∀ t' u x, s'.tree? file = some t' → u ∈ t'.pending → t'.symbol? u = some x →
        s'.targetOf? maxDepth (t'.phaseOf u x) t' u x = none) ∧
      s'.pendingCount file + n = s.pendingCount file ∧
      OnlyLinks file s s' ∧
      (∀ t t', s.tree? file = some t → s'.tree? file = some t' →
        (∀ id, id ∉ t.pending → t'.linkOf? id = t.linkOf? id) ∧
        ((∀ u ∈ t.pending, t.linkOf? u = none) →
          ∀ id d, t.linkOf? id = some d → t'.linkOf? id = some d)) ∧
      ((∀ f t, s.tree? f = some t → t.file = f) → s.SymbolsLeadAway →
        ∀ hops, s'.listedCount ≤ hops → ∀ fresh stops name accept,
          s'.offered? (s'.symbolTargetWithin hops) fresh stops name accept =
            s'.offered? s'.symbolTarget? fresh stops name accept) := by
  have hnone := s.nothing_found_linkFile maxDepth file
  have honly := s.onlyLinks_linkFile maxDepth file
  refine ⟨hnone, fun t' u x ht' hu hx => targetOf?_eq_none ht' hnone hu hx,
    s.pendingCount_linkFile maxDepth file, honly, fun t t' ht ht' => ?_, fun hhome haway _ =>
      offered?_symbolTargetWithin (honly.home hhome) (honly.sameShape.symbolsLeadAway haway)⟩
  obtain ⟨v, hv, hlinked⟩ := honly.own.exists_right ht
  obtain rfl : v = t' := Option.some.inj (hv.symm.trans ht')
  have hkept : ∀ id, id ∉ t.pending → v.linkOf? id = t.linkOf? id := fun id => hlinked.linkOf?_eq
  refine ⟨hkept, fun hpending id d hd => ?_⟩
  rw [hkept id fun hid => ?_, hd]
  rw [hpending id hid] at hd
  cases hd

end Snapshot

end SolidityAtlas

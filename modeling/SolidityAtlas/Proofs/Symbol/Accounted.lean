import SolidityAtlas.Proofs.Symbol.Layout
import SolidityAtlas.Proofs.Symbol.Settling

/-!
# No use is lost

A use is pending or it is linked, never both and never neither. And a link is recorded
once: a linked use has its declaration as its only type, a declaration has itself, and
all other nodes have none.

While a tree grows, the nodes `rest` whose turn is still to come have no record at all.
Each part of settling a node moves a use in one of three ways: it becomes pending, it is
linked at once, or it is linked when it was pending. So there is one lemma for each of
these, and the last of them says what all `SymbolTree.Links` keep.

## Main Definitions

* `Symbol.Recorded`: what a node records about its link
* `SymbolTree.AccountedBut`: all nodes but those still to come have their records
* `SymbolTree.Accounted`: the records of a whole tree, and what they add up to

## Main Results

* `SymbolTree.AccountedBut.settle`: what settling one node keeps
* `SymbolTree.accountedBut_grow`: all nodes of a text have their records
* `SymbolTree.AccountedBut.accounted`
-/

namespace SolidityAtlas

/-- What a node records about its link: `own` is the handle of the node, and `waits` says whether
it is pending. -/
structure Symbol.Recorded (own : Handle) (waits : Prop) (s : Symbol) : Prop where
  usage : s.isUsage = true →
    waits ∧ s.declaration = none ∧ s.declaredType = [] ∨
    ¬ waits ∧ ∃ d, s.declaration = some d ∧ s.declaredType = [d]
  declaration : s.isDeclaration = true → s.declaration = none ∧ s.declaredType = [own]
  other : s.isUsage = false → s.isDeclaration = false → s.declaration = none ∧ s.declaredType = []

namespace Symbol

variable {own : Handle} {waits : Prop} {s : Symbol}

/-- Only what a node is, its declaration and its types are recorded. -/
theorem Recorded.congr {v : Symbol} (h : s.Recorded own waits)
    (hsame : v.label = s.label ∧ v.detail = s.detail ∧ v.declaration = s.declaration ∧
      v.declaredType = s.declaredType) : v.Recorded own waits := by
  obtain ⟨hlabel, hdetail, hdeclaration, htype⟩ := hsame
  have husage : v.isUsage = s.isUsage := by rw [isUsage, isUsage, hlabel, hdetail]
  have hdeclares : v.isDeclaration = s.isDeclaration := by
    rw [isDeclaration, isDeclaration, kind, kind, hlabel, hdetail]
  refine ⟨?_, ?_, ?_⟩
  · rw [husage, hdeclaration, htype]
    exact h.usage
  · rw [hdeclares, hdeclaration, htype]
    exact h.declaration
  · rw [husage, hdeclares, hdeclaration, htype]
    exact h.other

/-- A pending use is not linked. -/
theorem recorded_pending (husage : s.isUsage = true) (hwaits : waits) (hnone : s.declaration = none)
    (htype : s.declaredType = []) : s.Recorded own waits := by
  refine ⟨fun _ => .inl ⟨hwaits, hnone, htype⟩, fun hd => ?_, fun hu => ?_⟩
  · rw [isUsage_eq_false_of_isDeclaration hd] at husage
    cases husage
  · rw [hu] at husage
    cases husage

/-- A linked use is not pending. -/
theorem recorded_linked {d : Handle} (husage : s.isUsage = true) (hwaits : ¬ waits)
    (hd : s.declaration = some d) (htype : s.declaredType = [d]) : s.Recorded own waits := by
  refine ⟨fun _ => .inr ⟨hwaits, d, hd, htype⟩, fun hd => ?_, fun hu => ?_⟩
  · rw [isUsage_eq_false_of_isDeclaration hd] at husage
    cases husage
  · rw [hu] at husage
    cases husage

end Symbol

namespace SymbolTree

/-- All nodes of a tree but those of `rest`, whose turn is still to come, have their records. -/
structure AccountedBut (rest : NodeId → Prop) (t : SymbolTree) : Prop where
  nodup : t.pending.Nodup
  recorded : ∀ id s, t.symbol? id = some s → ¬ rest id → s.Recorded (t.handle id) (id ∈ t.pending)
  unsettled : ∀ id s, t.symbol? id = some s → rest id → s.declaration = none ∧ s.declaredType = []
  pool : ∀ id ∈ t.pending, ¬ rest id ∧ ∃ s, t.symbol? id = some s ∧ s.isUsage = true
  external : ∀ id ∈ t.external, ¬ rest id ∧ ∃ s, t.symbol? id = some s ∧ s.isUsage = true

/-- All nodes of a tree have their records, only uses are pending, and no use is lost. -/
structure Accounted (t : SymbolTree) : Prop where
  recorded : ∀ id s, t.symbol? id = some s → s.Recorded (t.handle id) (id ∈ t.pending)
  pool : ∀ id ∈ t.pending, ∃ s, t.symbol? id = some s ∧ s.isUsage = true
  count : t.usageCount = t.resolvedCount + t.pending.length

variable {t t' : SymbolTree} {rest rest' : NodeId → Prop}

theorem modify_self (t : SymbolTree) (id : NodeId) : t.modify id (fun s => s) = t := by
  rw [modify, array_modify_self]

/-- Nodes with a property are counted by their numbers. -/
theorem countP_nodes (t : SymbolTree) (p : Symbol → Bool) :
    t.nodes.countP p = ((List.range t.size).filter fun id => (t.symbol? id).any p).length := by
  rw [← List.countP_eq_length_filter]
  have hnodes : t.nodes.toList.map some = (List.range t.size).map t.symbol? := by
    refine List.ext_getElem (by simp [size]) fun i h₁ h₂ => ?_
    simp only [List.length_map, Array.length_toList] at h₁
    simp [symbol?, Array.getElem?_eq_getElem h₁]
  have hany : t.nodes.countP p = (t.nodes.toList.map some).countP (Option.any p) := by
    rw [List.countP_map, ← Array.countP_toList]
    rfl
  rw [hany, hnodes, List.countP_map]
  rfl

namespace AccountedBut

/-! ## Changes that move no use -/

/-- A change of the symbols that leaves the records as they are. -/
theorem map (h : t.AccountedBut rest) {f : NodeId → Symbol → Symbol}
    (hsymbol : ∀ id, t'.symbol? id = (t.symbol? id).map (f id)) (hhandle : t'.handle = t.handle)
    (hpending : t'.pending = t.pending) (hexternal : t'.external = t.external)
    (hf : ∀ id s, (f id s).label = s.label ∧ (f id s).detail = s.detail ∧
      (f id s).declaration = s.declaration ∧ (f id s).declaredType = s.declaredType) :
    t'.AccountedBut rest := by
  have husage : ∀ {id}, (∃ s, t.symbol? id = some s ∧ s.isUsage = true) →
      ∃ s, t'.symbol? id = some s ∧ s.isUsage = true := by
    rintro id ⟨s, hs, hu⟩
    obtain ⟨hlabel, hdetail, -⟩ := hf id s
    refine ⟨f id s, by rw [hsymbol, hs, Option.map_some], ?_⟩
    rw [Symbol.isUsage, hlabel, hdetail]
    exact hu
  refine ⟨hpending ▸ h.nodup, fun id v hv hid => ?_, fun id v hv hid => ?_, fun id hid => ?_,
    fun id hid => ?_⟩
  · obtain ⟨s, hs, rfl⟩ := Option.map_eq_some_iff.1 ((hsymbol id).symm.trans hv)
    rw [hhandle, hpending]
    exact (h.recorded id s hs hid).congr (hf id s)
  · obtain ⟨s, hs, rfl⟩ := Option.map_eq_some_iff.1 ((hsymbol id).symm.trans hv)
    obtain ⟨-, -, hdeclaration, htype⟩ := hf id s
    rw [hdeclaration, htype]
    exact h.unsettled id s hs hid
  · rw [hpending] at hid
    exact ⟨(h.pool id hid).1, husage (h.pool id hid).2⟩
  · rw [hexternal] at hid
    exact ⟨(h.external id hid).1, husage (h.external id hid).2⟩

/-- A node gets a child, and every use stays where it is accounted for. -/
theorem attach (h : t.AccountedBut rest) (parent child : NodeId) :
    (t.attach parent child).AccountedBut rest := by
  refine h.map (t.symbol?_modify parent _) rfl rfl rfl fun id s => ?_
  split <;> exact ⟨rfl, rfl, rfl, rfl⟩

theorem addReference (h : t.AccountedBut rest) (declaration : NodeId) (usage : Handle) :
    (t.addReference declaration usage).AccountedBut rest := by
  refine h.map (t.symbol?_addReference declaration usage) rfl rfl rfl fun id s => ?_
  split <;> exact ⟨rfl, rfl, rfl, rfl⟩

/-- Dropping the back links from a file changes nothing about what is pending. -/
theorem dropReferencesFrom (h : t.AccountedBut rest) (file : FileId) :
    (t.dropReferencesFrom file).AccountedBut rest :=
  h.map (t.symbol?_dropReferencesFrom file) rfl rfl rfl fun _ _ => ⟨rfl, rfl, rfl, rfl⟩

/-- A pending use is not linked. -/
theorem of_mem_pending (h : t.AccountedBut rest) {u : NodeId} {s : Symbol} (hu : u ∈ t.pending)
    (hs : t.symbol? u = some s) :
    ¬ rest u ∧ s.isUsage = true ∧ s.declaration = none ∧ s.declaredType = [] := by
  obtain ⟨hrest, s', hs', husage⟩ := h.pool u hu
  obtain rfl : s' = s := Option.some.inj (hs'.symm.trans hs)
  rcases (h.recorded u s' hs hrest).usage husage with ⟨-, hnone⟩ | ⟨hnot, -⟩
  · exact ⟨hrest, husage, hnone⟩
  · exact absurd hu hnot

/-! ## Uses that are moved -/

section Moved

variable (h : t.AccountedBut rest) {u : NodeId} {s : Symbol} (hs : t.symbol? u = some s)
  (hrest : ∀ id, rest' id ↔ rest id ∧ id ≠ u)

include h hs hrest

/-- A use that is linked. -/
theorem link_of (husage : s.isUsage = true) (htype : s.declaredType = []) (d : Handle) {external : List NodeId}
    (hexternal : ∀ id ∈ external, id ∈ t.external ∨ id = u) :
    ({ t.link u d with external := external } : SymbolTree).AccountedBut rest' := by
  have hsymbol : ∀ id, (t.link u d).symbol? id =
      (t.symbol? id).map fun s => if id = u then s.linkTo d else s := t.symbol?_link u d
  have hlinked : ∀ {id}, (∃ s, t.symbol? id = some s ∧ s.isUsage = true) →
      ∃ s, (t.link u d).symbol? id = some s ∧ s.isUsage = true := by
    rintro id ⟨x, hx, hu⟩
    refine ⟨_, by rw [hsymbol, hx, Option.map_some], ?_⟩
    split <;> exact hu
  have hother : ∀ {id}, id ≠ u → (id ∈ t.pending.erase u ↔ id ∈ t.pending) := fun hne =>
    List.mem_erase_of_ne hne
  refine ⟨h.nodup.erase u, fun id v hv hid => ?_, fun id v hv hid => ?_, fun id hid => ?_,
    fun id hid => ?_⟩
  · obtain ⟨x, hx, rfl⟩ := Option.map_eq_some_iff.1 ((hsymbol id).symm.trans hv)
    change Symbol.Recorded (t.handle id) (id ∈ t.pending.erase u) _
    by_cases heq : id = u
    · subst heq
      obtain rfl : s = x := Option.some.inj (hs.symm.trans hx)
      rw [if_pos rfl]
      refine Symbol.recorded_linked husage (fun hmem => ?_) rfl (by rw [Symbol.linkTo, htype]; rfl)
      exact (h.nodup.mem_erase_iff.1 hmem).1 rfl
    · rw [if_neg heq, hother heq]
      exact h.recorded id x hx fun hr => hid ((hrest id).2 ⟨hr, heq⟩)
  · obtain ⟨x, hx, rfl⟩ := Option.map_eq_some_iff.1 ((hsymbol id).symm.trans hv)
    obtain ⟨hr, hne⟩ := (hrest id).1 hid
    rw [if_neg hne]
    exact h.unsettled id x hx hr
  · have hmem := h.pool id (List.mem_of_mem_erase hid)
    exact ⟨fun hr => hmem.1 ((hrest id).1 hr).1, hlinked hmem.2⟩
  · rcases hexternal id hid with hid | rfl
    · have hmem := h.external id hid
      exact ⟨fun hr => hmem.1 ((hrest id).1 hr).1, hlinked hmem.2⟩
    · exact ⟨fun hr => ((hrest id).1 hr).2 rfl, hlinked ⟨s, hs, husage⟩⟩

/-- A use whose turn it is is linked instead of becoming pending. -/
theorem connect (husage : s.isUsage = true) (htype : s.declaredType = []) (d : Handle) :
    (t.connect u d).AccountedBut rest' := by
  rw [connect_eq hs]
  exact (h.link_of hs hrest husage htype _ fun _ hid => .inl hid).addReference _ _

/-- A use that becomes pending. -/
theorem enqueue (husage : s.isUsage = true) (hnone : s.declaration = none)
    (htype : s.declaredType = []) : (t.enqueue u).AccountedBut rest' := by
  refine ⟨nodup_appendNew u h.nodup, fun id x hx hid => ?_, fun id x hx hid => ?_, fun id hid => ?_,
    fun id hid => ?_⟩
  · change x.Recorded (t.handle id) (id ∈ appendNew t.pending u)
    by_cases heq : id = u
    · subst heq
      obtain rfl : s = x := Option.some.inj (hs.symm.trans hx)
      exact Symbol.recorded_pending husage (mem_appendNew.2 (.inr rfl)) hnone htype
    · have hmem : id ∈ appendNew t.pending u ↔ id ∈ t.pending := by simp [heq]
      rw [hmem]
      exact h.recorded id x hx fun hr => hid ((hrest id).2 ⟨hr, heq⟩)
  · exact h.unsettled id x hx ((hrest id).1 hid).1
  · rcases mem_appendNew.1 hid with hid | rfl
    · exact ⟨fun hr => (h.pool id hid).1 ((hrest id).1 hr).1, (h.pool id hid).2⟩
    · exact ⟨fun hr => ((hrest id).1 hr).2 rfl, s, hs, husage⟩
  · exact ⟨fun hr => (h.external id hid).1 ((hrest id).1 hr).1, (h.external id hid).2⟩

/-- A declaration gets its record, and a node that is neither declaration nor use needs none. -/
theorem settleOther (hu : rest u) (husage : s.isUsage = false) {f : Symbol → Symbol}
    (hlabel : (f s).label = s.label) (hdetail : (f s).detail = s.detail)
    (hrecord : (f s).declaration = none ∧
      (f s).declaredType = if s.isDeclaration then [t.handle u] else []) :
    (t.modify u f).AccountedBut rest' := by
  have hsame : ∀ {id x}, t.symbol? id = some x →
      (t.modify u f).symbol? id = some (if id = u then f s else x) := by
    intro id x hx
    rw [symbol?_modify, hx, Option.map_some]
    by_cases heq : id = u
    · subst heq
      obtain rfl : s = x := Option.some.inj (hs.symm.trans hx)
      rfl
    · rw [if_neg heq, if_neg heq]
  have hback : ∀ {id v}, (t.modify u f).symbol? id = some v →
      ∃ x, t.symbol? id = some x ∧ v = if id = u then f s else x := by
    intro id v hv
    obtain ⟨x, hx, -⟩ := Option.map_eq_some_iff.1 ((t.symbol?_modify u f id).symm.trans hv)
    exact ⟨x, hx, Option.some.inj (hv.symm.trans (hsame hx))⟩
  have hne : ∀ {id}, ¬ rest id → id ≠ u := fun hr heq => hr (heq ▸ hu)
  have huse : ∀ {id}, ¬ rest id ∧ (∃ x, t.symbol? id = some x ∧ x.isUsage = true) →
      ¬ rest' id ∧ ∃ x, (t.modify u f).symbol? id = some x ∧ x.isUsage = true := by
    rintro id ⟨hr, x, hx, hxu⟩
    refine ⟨fun hr' => hr ((hrest id).1 hr').1, x, ?_, hxu⟩
    rw [hsame hx, if_neg (hne hr)]
  refine ⟨h.nodup, fun id v hv hid => ?_, fun id v hv hid => ?_, fun id hid => huse (h.pool id hid),
    fun id hid => huse (h.external id hid)⟩
  · obtain ⟨x, hx, rfl⟩ := hback hv
    change Symbol.Recorded (t.handle id) (id ∈ t.pending) _
    by_cases heq : id = u
    · subst heq
      have hkind : (f s).isUsage = s.isUsage ∧ (f s).isDeclaration = s.isDeclaration := by
        simp only [Symbol.isUsage, Symbol.isDeclaration, Symbol.kind, hlabel, hdetail, and_self]
      rw [if_pos rfl]
      refine ⟨fun hu' => ?_, fun hd => ?_, fun _ hd => ?_⟩
      · rw [hkind.1, husage] at hu'
        cases hu'
      · rw [hkind.2] at hd
        rw [if_pos hd] at hrecord
        exact hrecord
      · rw [hkind.2] at hd
        rw [if_neg (Bool.eq_false_iff.1 hd)] at hrecord
        exact hrecord
    · rw [if_neg heq]
      exact h.recorded id x hx fun hr => hid ((hrest id).2 ⟨hr, heq⟩)
  · obtain ⟨x, hx, rfl⟩ := hback hv
    obtain ⟨hr, heq⟩ := (hrest id).1 hid
    rw [if_neg heq]
    exact h.unsettled id x hx hr

end Moved

/-! ## Settling a node -/

/-- Links of pending uses lose none. -/
theorem links {why : SymbolTree → NodeId → Symbol → Handle → Prop} (h : t.AccountedBut rest)
    (hlinks : Links why t t') : t'.AccountedBut rest := by
  induction hlinks with
  | refl => exact h
  | link _ hu hs _ ih =>
      obtain ⟨hrest, husage, -, htype⟩ := ih.of_mem_pending hu hs
      exact ih.connect hs (fun id => ⟨fun hr => ⟨hr, fun heq => hrest (heq ▸ hr)⟩, And.left⟩) husage
        htype _

variable {g : Growth} {maxDepth : Nat} {id : NodeId}

/-- The node whose turn it is gets its record as a declaration, as a use or as neither. -/
theorem record {g₁ g₂ g₃ : Growth} {s s₁ : Symbol} (h : g₁.tree.AccountedBut rest) (hid : rest id)
    (hs : g₁.tree.symbol? id = some s₁) (hbare : s.bare = s₁.bare)
    (hrest : ∀ other, rest' other ↔ rest other ∧ other ≠ id)
    (hdeclare : s.isDeclaration = true ∧ g₂ = (g₁.declare id).claim id ∨
      s.isDeclaration = false ∧ g₂ = g₁)
    (hlookUp : s.isUsage = true ∧ g₃ = g₂.lookUp id s ∨ s.isUsage = false ∧ g₃ = g₂) :
    g₃.tree.AccountedBut rest' ∧ (s.isDeclaration = true → (g₁.declare id).tree.AccountedBut rest') := by
  obtain ⟨hnone, htype⟩ := h.unsettled id s₁ hs hid
  have husage := Symbol.isUsage_congr hbare
  have hdeclares := Symbol.isDeclaration_congr hbare
  have hdeclared : s.isDeclaration = true → (g₁.declare id).tree.AccountedBut rest' := fun hd => by
    have hu := Symbol.isUsage_eq_false_of_isDeclaration hd
    refine h.settleOther hs hrest hid (by rw [← husage, hu]) rfl rfl ⟨hnone, ?_⟩
    rw [← hdeclares, if_pos hd, htype]
    rfl
  refine ⟨?_, hdeclared⟩
  rcases hdeclare with ⟨hd, rfl⟩ | ⟨hd, rfl⟩
  · have hu := Symbol.isUsage_eq_false_of_isDeclaration hd
    obtain rfl : g₃ = (g₁.declare id).claim id :=
      (hlookUp.resolve_left fun hand => by rw [hu] at hand; cases hand.1).2
    exact (hdeclared hd).links (Growth.links_claim (hdeclared hd).nodup id)
  · rcases hlookUp with ⟨hu, rfl⟩ | ⟨hu, rfl⟩
    · rw [husage] at hu
      rcases g₂.lookUp_cases id s with ⟨d, -, -, heq⟩ | ⟨-, heq⟩
      · rw [heq]
        exact h.connect hs hrest hu htype _
      · rw [heq]
        exact h.enqueue hs hrest hu hnone htype
    · rw [← g₃.tree.modify_self id]
      refine h.settleOther hs hrest hid (by rw [← husage, hu]) rfl rfl ⟨hnone, ?_⟩
      rw [← hdeclares, hd, htype]
      rfl

variable (maxDepth) in
/-- Dealing with a node gives it its record. -/
theorem accept (h : g.tree.AccountedBut rest) (hid : rest id) (hlt : id < g.tree.size)
    (hrest : ∀ other, rest' other ↔ rest other ∧ other ≠ id) :
    (g.accept maxDepth id).tree.AccountedBut rest' := by
  obtain ⟨s, hs⟩ := exists_symbol?_of_lt hlt
  obtain ⟨g₁, g₂, g₃, hclose, hdeclare, hlookUp, hwhole⟩ := g.accept_cases maxDepth hs
  have h₁ : g₁.tree.AccountedBut rest ∧ g₁.tree.outline = g.tree.outline := by
    rcases hclose with ⟨-, rfl⟩ | ⟨-, rfl⟩
    · have hlinks := Growth.links_close maxDepth h.nodup id
      exact ⟨h.links hlinks, hlinks.outline_eq⟩
    · exact ⟨h, rfl⟩
  obtain ⟨h₁, houtline⟩ := h₁
  obtain ⟨s₁, hs₁, hbare⟩ := symbol?_of_outline houtline.symm hs
  obtain ⟨h₃, -⟩ := h₁.record hid hs₁ hbare hrest hdeclare hlookUp
  rcases hwhole with ⟨-, heq⟩ | ⟨-, heq⟩
  · rw [heq]
    have hwaiting := h₃.links (Growth.links_closeWaiting maxDepth h₃.nodup)
    exact hwaiting.links (links_connectMembers hwaiting.nodup maxDepth)
  · rw [heq]
    exact h₃

/-- After its turn a use is linked or pending. -/
theorem settle (h : g.tree.AccountedBut rest) (hid : rest id) (hlt : id < g.tree.size)
    (hrest : ∀ other, rest' other ↔ rest other ∧ other ≠ id) :
    (g.settle maxDepth id).tree.AccountedBut rest' := by
  have haccept := h.accept maxDepth hid hlt hrest
  simp only [Growth.settle]
  split
  · exact haccept.attach _ _
  · exact haccept

/-- After the turns of all nodes every use is linked or pending. -/
theorem foldl_settle {order : List NodeId} (h : g.tree.AccountedBut (· ∈ order))
    (hnodup : order.Nodup) (hlt : ∀ id ∈ order, id < g.tree.size) :
    (order.foldl (Growth.settle maxDepth) g).tree.AccountedBut fun _ => False := by
  induction order generalizing g with
  | nil => exact ⟨h.nodup, fun id s hs _ => h.recorded id s hs List.not_mem_nil,
      fun _ _ _ hid => hid.elim, fun id hid => ⟨not_false, (h.pool id hid).2⟩,
      fun id hid => ⟨not_false, (h.external id hid).2⟩⟩
  | cons id order ih =>
      obtain ⟨hid, hnodup⟩ := List.nodup_cons.1 hnodup
      refine ih (h.settle List.mem_cons_self (hlt id List.mem_cons_self) fun other => ?_) hnodup
        fun other hother => ?_
      · constructor
        · exact fun hother => ⟨List.mem_cons_of_mem _ hother, fun heq => hid (heq ▸ hother)⟩
        · exact fun ⟨hother, hne⟩ => (List.mem_cons.1 hother).resolve_left hne
      · rw [Growth.size_settle]
        exact hlt other (List.mem_cons_of_mem _ hother)

/-! ## Links from outside -/

/-- Links from outside are taken back. -/
theorem unlinkExternal (h : t.AccountedBut rest) : t.unlinkExternal.AccountedBut rest := by
  have hsymbol := t.symbol?_unlinkExternal
  have hunlink : ∀ s : Symbol, s.unlink.label = s.label ∧ s.unlink.detail = s.detail := fun s =>
    ⟨Symbol.label_congr s.bare_unlink, Symbol.detail_congr s.bare_unlink⟩
  refine ⟨t.nodup_pending_unlinkExternal h.nodup, fun id v hv hid => ?_, fun id v hv hid => ?_,
    fun id hid => ?_, fun _ hid => absurd hid List.not_mem_nil⟩
  · obtain ⟨s, hs, rfl⟩ := Option.map_eq_some_iff.1 ((hsymbol id).symm.trans hv)
    have hrecord := h.recorded id s hs hid
    by_cases hmem : id ∈ t.external
    · obtain ⟨-, s', hs', husage⟩ := h.external id hmem
      obtain rfl : s' = s := Option.some.inj (hs'.symm.trans hs)
      have husage' : s'.unlink.isUsage = true := by
        rw [Symbol.isUsage, (hunlink s').1, (hunlink s').2]
        exact husage
      rw [if_pos hmem]
      refine Symbol.recorded_pending husage' (t.mem_pending_unlinkExternal.2 (.inr hmem))
        (Symbol.declaration_unlink s') ?_
      rcases hrecord.usage husage with ⟨-, hnone, htype⟩ | ⟨-, d, hd, htype⟩
      · rw [Symbol.unlink_of_declaration_eq_none hnone, htype]
      · simp [Symbol.unlink, hd, htype]
    · have hpending : id ∈ t.unlinkExternal.pending ↔ id ∈ t.pending := by
        rw [mem_pending_unlinkExternal, or_iff_left hmem]
      rw [if_neg hmem, hpending]
      exact hrecord
  · obtain ⟨s, hs, rfl⟩ := Option.map_eq_some_iff.1 ((hsymbol id).symm.trans hv)
    rw [if_neg fun hmem => (h.external id hmem).1 hid]
    exact h.unsettled id s hs hid
  · have hmem : ¬ rest id ∧ ∃ s, t.symbol? id = some s ∧ s.isUsage = true :=
      (t.mem_pending_unlinkExternal.1 hid).elim (h.pool id) (h.external id)
    obtain ⟨hrest, s, hs, husage⟩ := hmem
    refine ⟨hrest, _, by rw [hsymbol, hs, Option.map_some], ?_⟩
    split
    · rw [Symbol.isUsage, (hunlink s).1, (hunlink s).2]
      exact husage
    · exact husage

/-- A pending use that is linked into another file is accounted for as a linked one. -/
theorem linkExternal (h : t.AccountedBut rest) {u : NodeId} (hu : u ∈ t.pending) (d : Handle) :
    (t.linkExternal u d).AccountedBut rest := by
  obtain ⟨hrest, s, hs, husage⟩ := h.pool u hu
  obtain ⟨-, -, -, htype⟩ := h.of_mem_pending hu hs
  exact h.link_of hs (fun id => ⟨fun hr => ⟨hr, fun heq => hrest (heq ▸ hr)⟩, And.left⟩) husage
    htype d fun id hid => mem_appendNew.1 hid

/-! ## What the records add up to -/

/-- Each use of a tree is linked or pending. -/
theorem usageCount_eq (h : t.AccountedBut fun _ => False) :
    t.usageCount = t.resolvedCount + t.pending.length := by
  have hlinked : t.resolvedCount + (t.nodes.countP fun s => s.isUsage && ! s.isResolved) =
      t.usageCount := by
    rw [resolvedCount, usageCount, ← Array.countP_toList, ← Array.countP_toList, ← Array.countP_toList]
    induction t.nodes.toList with
    | nil => rfl
    | cons s nodes ih =>
        simp only [List.countP_cons]
        cases s.isUsage <;> cases s.isResolved <;> simp <;> omega
  have hpending : t.pending.Perm ((List.range t.size).filter fun id =>
      (t.symbol? id).any fun s => s.isUsage && ! s.isResolved) := by
    refine (List.perm_ext_iff_of_nodup h.nodup (List.nodup_range.filter _)).2 fun id => ?_
    rw [List.mem_filter, List.mem_range, Option.any_eq_true]
    constructor
    · intro hid
      obtain ⟨-, s, hs, husage⟩ := h.pool id hid
      obtain ⟨-, -, hnone, -⟩ := h.of_mem_pending hid hs
      exact ⟨lt_size_of_symbol? hs, s, hs, by rw [husage, Symbol.isResolved, hnone]; rfl⟩
    · rintro ⟨-, s, hs, hand⟩
      obtain ⟨husage, hnone⟩ := Bool.and_eq_true_iff.1 hand
      rcases (h.recorded id s hs not_false).usage husage with ⟨hid, -⟩ | ⟨-, d, hd, -⟩
      · exact hid
      · rw [Symbol.isResolved, hd] at hnone
        cases hnone
  rw [← hlinked, hpending.length_eq, ← countP_nodes]

/-- When no turn is left, every use is linked or pending. -/
theorem accounted (h : t.AccountedBut fun _ => False) : t.Accounted :=
  ⟨fun id s hs => h.recorded id s hs not_false, fun id hid => (h.pool id hid).2, h.usageCount_eq⟩

end AccountedBut

/-! ## Whole texts -/

/-- When the tree has been planted, nothing is pending, and it is the turn of every node. -/
theorem accountedBut_planted (file generation : Nat) (m : LineMap) (tree : SyntaxTree) :
    (planted file generation m tree).AccountedBut (· ∈ settlingOrder 0 tree) := by
  refine ⟨List.nodup_nil, fun id s hs hid => ?_, fun id s hs _ => ?_,
    fun _ hid => absurd hid List.not_mem_nil, fun _ hid => absurd hid List.not_mem_nil⟩
  · exact absurd (mem_settlingOrder_planted.2 (lt_size_of_symbol? hs)) hid
  · rw [← bare_of_symbol?_planted hs]
    exact ⟨rfl, rfl⟩

/-- All nodes of a text have their records. -/
theorem accountedBut_grow (maxDepth file generation : Nat) (m : LineMap) (tree : SyntaxTree) :
    (grow maxDepth file generation m tree).AccountedBut fun _ => False :=
  (accountedBut_planted file generation m tree).foldl_settle (nodup_settlingOrder 0 tree)
    fun _ hid => mem_settlingOrder_planted.1 hid

end SymbolTree

end SolidityAtlas

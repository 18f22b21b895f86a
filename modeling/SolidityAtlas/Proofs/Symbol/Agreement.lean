import SolidityAtlas.Proofs.Row.Related
import SolidityAtlas.Proofs.Symbol.Outline

/-!
# Forests that agree

Two forests *agree* on some files if there the trees have the same outlines, the
uses are linked to the same nodes, and nothing leads out of these files. The
generations of the trees may differ, and so may everything in the other files.
Handles for the same node, each good for its own forest, are *counterparts*.

The theorem of this file is that look-ups cannot tell such forests apart: started at
counterparts, they find counterparts (`Agree.resolveAccess?`, `Agree.inherited?`,
`Agree.dottedTarget?`, …). This one fact serves three ends.

* With one forest on both sides it says that what is found exists, and stands in
  the files that the search was let into.
* With two readings of one text it says that the generation plays no part.
* With two states of a workspace it says that files out of reach play no part.

## Main Definitions

* `Forest.Counterpart`: handles for the same node of two forests
* `SymbolTree.Agree`, `Forest.Agree`
-/

namespace SolidityAtlas

/-! ## Nodes of a tree -/

namespace SymbolTree

variable {t : SymbolTree}

/-- A node that is found is one of the tree. -/
theorem lt_size_of_symbol? {id : NodeId} {s : Symbol} (h : t.symbol? id = some s) :
    id < t.size := by
  obtain ⟨hlt, -⟩ := Array.getElem?_eq_some_iff.1 h
  exact hlt

theorem exists_symbol?_of_lt {id : NodeId} (h : id < t.size) : ∃ s, t.symbol? id = some s :=
  ⟨_, Array.getElem?_eq_getElem h⟩

theorem lt_of_mem_members {scope m : NodeId} (h : m ∈ t.members scope) : m < t.size := by
  induction scope using (measure fun id => t.size - id).wf.induction with
  | h scope ih =>
      rw [members_eq, List.mem_flatMap] at h
      obtain ⟨c, hc, hm⟩ := h
      unfold membersBy at hm
      split at hm
      · cases hm
      · split at hm
        · exact ih c (sub_lt_of_mem_children hc) hm
        · split at hm
          · rw [List.mem_singleton.1 hm]
            exact (lt_of_mem_children hc).2
          · cases hm

/-- What stands around a node has a smaller number. -/
theorem lt_of_mem_ancestors {id a : NodeId} (h : a ∈ t.ancestors id) : a < id := by
  fun_induction ancestors t id with
  | case1 id p hp ih =>
      rcases List.mem_cons.1 h with rfl | h
      · exact parent?_lt hp
      · exact Nat.lt_trans (ih h) (parent?_lt hp)
  | case2 => cases h

/-- A spine runs through nodes of the tree. -/
theorem lt_of_mem_spine {id a : NodeId} (hid : id < t.size) (h : a ∈ t.spine id) :
    a < t.size := by
  fun_induction spine t id with
  | case1 id c hc ih =>
      rcases List.mem_cons.1 h with rfl | h
      · exact hid
      · exact ih (lt_of_mem_children (List.mem_of_head? hc)).2 h
  | case2 id hc =>
      rw [List.mem_singleton.1 h]
      exact hid

/-- A tree owns the handles of its nodes. -/
theorem owns_iff {h : Handle} : t.owns h = true ↔ ∃ id, id < t.size ∧ h = t.handle id := by
  constructor
  · intro hown
    simp only [owns, Bool.and_eq_true, beq_iff_eq, decide_eq_true_eq] at hown
    obtain ⟨⟨hfile, hgeneration⟩, hlt⟩ := hown
    refine ⟨h.node, hlt, ?_⟩
    rw [handle, ← hfile, ← hgeneration]
  · rintro ⟨id, hlt, rfl⟩
    simp [owns, handle, hlt]

/-- A handle of a node leads to the node. -/
theorem lookup?_handle {id : NodeId} : t.lookup? (t.handle id) = t.symbol? id := by
  unfold lookup?
  split
  · rfl
  · rename_i hown
    cases hs : t.symbol? id with
    | none => rfl
    | some s => exact absurd (owns_iff.2 ⟨id, lt_size_of_symbol? hs, rfl⟩) hown

/-- A handle finds something exactly if it was made for a node of the tree. -/
theorem isSome_lookup?_iff {h : Handle} :
    (t.lookup? h).isSome = true ↔ ∃ id, id < t.size ∧ h = t.handle id := by
  constructor
  · intro hsome
    unfold lookup? at hsome
    split at hsome
    · exact owns_iff.1 ‹_›
    · cases hsome
  · rintro ⟨id, hlt, rfl⟩
    obtain ⟨s, hs⟩ := exists_symbol?_of_lt hlt
    rw [lookup?_handle, hs]
    rfl

/-- Two trees agree if they have one outline and their uses are linked to nodes that correspond
to one another under `M`. -/
structure Agree (M : Handle → Handle → Prop) (t u : SymbolTree) : Prop where
  outline : t.outline = u.outline
  declaration : ∀ id s v, t.symbol? id = some s → u.symbol? id = some v →
    Option.Rel M s.declaration v.declaration

/-- What corresponding uses are linked to corresponds. -/
theorem Agree.declaration?_rel {M : Handle → Handle → Prop} {u : SymbolTree} (h : t.Agree M u)
    (id : NodeId) :
    Option.Rel M ((t.symbol? id).bind Symbol.declaration)
      ((u.symbol? id).bind Symbol.declaration) := by
  have hid := symbol?_congr h.outline id
  cases hs : t.symbol? id with
  | none =>
      rw [hs] at hid
      generalize u.symbol? id = v at hid
      cases hid
      exact .none
  | some s =>
      obtain ⟨v, hv, -⟩ := hid.exists_right hs
      rw [hv]
      exact h.declaration id s v hs hv

end SymbolTree

/-! ## Counterparts -/

namespace Forest

/-- Handles for the same node of a file in `K`, each good for its own forest. -/
structure Counterpart (K : FileId → Prop) (f g : Forest) (a b : Handle) : Prop where
  within : K a.file
  file : a.file = b.file
  node : a.node = b.node
  left : (f.symbol? a).isSome = true
  right : (g.symbol? b).isSome = true

/-- The trees of two forests agree on the files `K`, and no link leads out of `K`. -/
structure TreesAgree (K : FileId → Prop) (f g : Forest) : Prop where
  tree : ∀ file, K file →
    Option.Rel (fun t u => t.file = file ∧ t.Agree (Counterpart K f g) u) (f.tree file) (g.tree file)

/-- Two forests agree on the files `K` if there the trees agree, and neither links nor imports
lead out of `K`. -/
structure Agree (K : FileId → Prop) (f g : Forest) : Prop extends TreesAgree K f g where
  imported : ∀ a b, Counterpart K f g a b → ∀ name,
    Option.Rel (Counterpart K f g) (f.imported a name) (g.imported b name)

variable {K : FileId → Prop} {f g : Forest} {a b : Handle}

/-- The tree of its file decides what a handle leads to. -/
theorem symbol?_eq_of_tree {file : FileId} {t : SymbolTree} {h : Handle} (ht : f.tree file = some t)
    (hfile : h.file = file) : f.symbol? h = t.lookup? h := by
  rw [symbol?, hfile, ht, Option.bind_some]

/-- A handle leads to a node of the tree of its file. -/
theorem exists_tree_of_isSome_symbol? {h : Handle} (hs : (f.symbol? h).isSome = true) :
    ∃ t, f.tree h.file = some t ∧ t.owns h = true := by
  cases ht : f.tree h.file with
  | none => simp [symbol?, ht] at hs
  | some t =>
      rw [symbol?_eq_of_tree ht rfl] at hs
      exact ⟨t, rfl, SymbolTree.owns_iff.2 (SymbolTree.isSome_lookup?_iff.1 hs)⟩

/-- Two good handles for the same node of the same file are one handle. -/
theorem eq_of_isSome_symbol? {h k : Handle} (hs : (f.symbol? h).isSome = true)
    (ks : (f.symbol? k).isSome = true) (hfile : h.file = k.file) (hnode : h.node = k.node) :
    h = k := by
  obtain ⟨t, ht, hown⟩ := exists_tree_of_isSome_symbol? hs
  obtain ⟨u, hu, kown⟩ := exists_tree_of_isSome_symbol? ks
  rw [hfile, hu] at ht
  cases ht
  obtain ⟨i, -, rfl⟩ := SymbolTree.owns_iff.1 hown
  obtain ⟨j, -, rfl⟩ := SymbolTree.owns_iff.1 kown
  rw [show i = j from hnode]

/-- Every node has one counterpart at most, on both sides. -/
theorem biUnique_counterpart : Relator.BiUnique (Counterpart K f g) := by
  constructor
  · intro a b c hac hbc
    exact eq_of_isSome_symbol? hac.left hbc.left (hac.file.trans hbc.file.symm)
      (hac.node.trans hbc.node.symm)
  · intro a b c hab hac
    exact eq_of_isSome_symbol? hab.right hac.right (hab.file.symm.trans hac.file)
      (hab.node.symm.trans hac.node)

namespace TreesAgree

variable (h : TreesAgree K f g)

include h

/-- Counterparts stand in trees that agree, and so do the handles for the other nodes. -/
theorem home (hab : Counterpart K f g a b) :
    ∃ t u, f.home? a = some t ∧ g.home? b = some u ∧ t.Agree (Counterpart K f g) u ∧
      a.node < t.size ∧ f.symbol? a = t.symbol? a.node ∧ g.symbol? b = u.symbol? a.node ∧
      ∀ id < t.size, Counterpart K f g (a.withNode id) (b.withNode id) := by
  obtain ⟨t, ht, hown⟩ := exists_tree_of_isSome_symbol? hab.left
  obtain ⟨u, hu, kown⟩ := exists_tree_of_isSome_symbol? hab.right
  have htu := h.tree a.file hab.within
  rw [ht, hab.file, hu] at htu
  cases htu with
  | some htu =>
      obtain ⟨i, hi, hai⟩ := SymbolTree.owns_iff.1 hown
      obtain ⟨j, hj, hbj⟩ := SymbolTree.owns_iff.1 kown
      have hsize : t.size = u.size := SymbolTree.size_congr htu.2.outline
      have hia : i = a.node := by rw [hai]; rfl
      have hja : j = a.node := by rw [hab.node, hbj]; rfl
      subst hia
      subst hja
      refine ⟨t, u, ?_, ?_, htu.2, hi, ?_, ?_, ?_⟩
      · rw [home?, ht, Option.filter_some, hown]
        rfl
      · rw [home?, hu, Option.filter_some, kown]
        rfl
      · rw [symbol?_eq_of_tree ht rfl, hai, SymbolTree.lookup?_handle]
        rfl
      · rw [symbol?_eq_of_tree hu rfl, hbj, SymbolTree.lookup?_handle]
      · intro id hid
        have hat : a.withNode id = t.handle id := by rw [hai]; rfl
        have hbu : b.withNode id = u.handle id := by rw [hbj]; rfl
        refine ⟨hab.within, hab.file, rfl, ?_, ?_⟩
        · rw [symbol?_eq_of_tree (h := a.withNode id) ht rfl, hat]
          exact SymbolTree.isSome_lookup?_iff.2 ⟨id, hid, rfl⟩
        · rw [symbol?_eq_of_tree (h := b.withNode id) hu rfl, hbu]
          exact SymbolTree.isSome_lookup?_iff.2 ⟨id, hsize ▸ hid, rfl⟩

/-- The symbols behind counterparts say the same and are linked to counterparts. -/
theorem symbols (hab : Counterpart K f g a b) :
    ∃ s v, f.symbol? a = some s ∧ g.symbol? b = some v ∧ s.bare = v.bare ∧
      Option.Rel (Counterpart K f g) s.declaration v.declaration := by
  obtain ⟨t, u, -, -, htu, hlt, ha, hb, -⟩ := h.home hab
  obtain ⟨s, hs⟩ := SymbolTree.exists_symbol?_of_lt hlt
  obtain ⟨v, hv, hsv⟩ := (SymbolTree.symbol?_congr htu.outline a.node).exists_right hs
  exact ⟨s, v, ha.trans hs, hb.trans hv, hsv, htu.declaration a.node s v hs hv⟩

/-- Counterparts differ in their links at most. -/
theorem symbol?_rel (hab : Counterpart K f g a b) :
    Option.Rel (fun s v => s.bare = v.bare) (f.symbol? a) (g.symbol? b) := by
  obtain ⟨s, v, hs, hv, hsv, -⟩ := h.symbols hab
  rw [hs, hv]
  exact .some hsv

/-- Counterparts are of one kind. -/
theorem kind?_eq (hab : Counterpart K f g a b) : f.kind? a = g.kind? b := by
  obtain ⟨s, v, hs, hv, hsv, -⟩ := h.symbols hab
  rw [kind?, kind?, hs, hv, Option.map_some, Option.map_some, Symbol.kind_congr hsv]

theorem name?_eq (hab : Counterpart K f g a b) : f.name? a = g.name? b := by
  obtain ⟨s, v, hs, hv, hsv, -⟩ := h.symbols hab
  rw [name?, name?, hs, hv, Option.bind_some, Option.bind_some, Symbol.name_congr hsv]

theorem detail?_eq (hab : Counterpart K f g a b) :
    (f.symbol? a).map Symbol.detail = (g.symbol? b).map Symbol.detail := by
  obtain ⟨s, v, hs, hv, hsv, -⟩ := h.symbols hab
  rw [hs, hv, Option.map_some, Option.map_some, Symbol.detail_congr hsv]

/-- What counterparts are linked to are counterparts. -/
theorem declaration?_rel (hab : Counterpart K f g a b) :
    Option.Rel (Counterpart K f g) (f.declaration? a) (g.declaration? b) := by
  obtain ⟨s, v, hs, hv, -, hd⟩ := h.symbols hab
  rw [declaration?, declaration?, hs, hv]
  exact hd

/-! ## Steps through a tree -/

omit h in
/-- Handles for the same numbers are counterparts if those for every number are. -/
theorem forall₂_withNode {n : Nat}
    (hall : ∀ id < n, Counterpart K f g (a.withNode id) (b.withNode id))
    {ids : List NodeId} (hids : ∀ id ∈ ids, id < n) :
    List.Forall₂ (Counterpart K f g) (ids.map a.withNode) (ids.map b.withNode) := by
  induction ids with
  | nil => exact .nil
  | cons id ids ih =>
      refine .cons (hall id (hids id List.mem_cons_self)) (ih fun id' hid' => ?_)
      exact hids id' (List.mem_cons_of_mem _ hid')

/-- The children of counterparts are counterparts, in order. -/
theorem children_rel (hab : Counterpart K f g a b) :
    List.Forall₂ (Counterpart K f g) (f.children a) (g.children b) := by
  obtain ⟨t, u, ha, hb, htu, -, -, -, hall⟩ := h.home hab
  simp only [children, ha, hb]
  rw [← hab.node, ← SymbolTree.children_congr htu.outline]
  exact forall₂_withNode hall fun _ hc => (SymbolTree.lt_of_mem_children hc).2

theorem firstChild?_rel (hab : Counterpart K f g a b) :
    Option.Rel (Counterpart K f g) (f.firstChild? a) (g.firstChild? b) :=
  (h.children_rel hab).head?_rel

/-- The spines of counterparts run through counterparts. -/
theorem spine_rel (hab : Counterpart K f g a b) :
    List.Forall₂ (Counterpart K f g) (f.spine a) (g.spine b) := by
  obtain ⟨t, u, ha, hb, htu, hlt, -, -, hall⟩ := h.home hab
  simp only [spine, ha, hb]
  rw [← hab.node, ← SymbolTree.spine_congr htu.outline]
  exact forall₂_withNode hall fun _ hc => SymbolTree.lt_of_mem_spine hlt hc

/-- The members of counterparts are counterparts, in order. -/
theorem members_rel (hab : Counterpart K f g a b) :
    List.Forall₂ (Counterpart K f g) (f.members a) (g.members b) := by
  obtain ⟨t, u, ha, hb, htu, -, -, -, hall⟩ := h.home hab
  simp only [members, ha, hb]
  rw [← hab.node, ← SymbolTree.members_congr htu.outline]
  exact forall₂_withNode hall fun _ hc => SymbolTree.lt_of_mem_members hc

/-- Counterparts stand inside counterparts. -/
theorem ancestors_rel (hab : Counterpart K f g a b) :
    List.Forall₂ (Counterpart K f g) (f.ancestors a) (g.ancestors b) := by
  obtain ⟨t, u, ha, hb, htu, hlt, -, -, hall⟩ := h.home hab
  simp only [ancestors, ha, hb]
  rw [← hab.node, ← SymbolTree.ancestors_congr htu.outline]
  exact forall₂_withNode hall fun _ hc => Nat.lt_trans (SymbolTree.lt_of_mem_ancestors hc) hlt

theorem enclosing?_rel (k : NodeKind) (hab : Counterpart K f g a b) :
    Option.Rel (Counterpart K f g) (f.enclosing? k a) (g.enclosing? k b) := by
  obtain ⟨t, u, ha, hb, htu, hlt, -, -, hall⟩ := h.home hab
  rw [enclosing?, enclosing?, ha, hb, Option.bind_some, Option.bind_some, ← hab.node,
    ← SymbolTree.enclosing?_congr htu.outline]
  cases he : t.enclosing? k a.node with
  | none => exact .none
  | some c =>
      have hc : c < a.node := SymbolTree.lt_of_mem_ancestors (List.mem_of_find?_eq_some he)
      exact .some (hall c (Nat.lt_trans hc hlt))

/-- A name means counterparts in counterparts. -/
theorem memberNamed?_rel (name : String) (hab : Counterpart K f g a b) :
    Option.Rel (Counterpart K f g) (f.memberNamed? name a) (g.memberNamed? name b) :=
  (h.members_rel hab).find?_rel fun _ _ hcd => by rw [h.name?_eq hcd]

/-- A use means counterparts in counterparts. -/
theorem memberAccepting?_rel {s v : Symbol} (hsv : s.bare = v.bare)
    (hab : Counterpart K f g a b) :
    Option.Rel (Counterpart K f g) (f.memberAccepting? s a) (g.memberAccepting? v b) :=
  (h.members_rel hab).find?_rel fun _ _ hcd =>
    (h.symbol?_rel hcd).any_eq fun _ _ hxy => Symbol.accepts_congr hxy hsv

end TreesAgree

end Forest

end SolidityAtlas

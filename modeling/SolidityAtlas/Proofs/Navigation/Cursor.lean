import Mathlib.Data.List.Pairwise
import SolidityAtlas.Navigation.Definition
import SolidityAtlas.Proofs.Symbol.Places

/-!
# The use under a cursor

The search for the node under a cursor goes down from the file, always into the first
node that the cursor touches. Both ends of a node belong to it, so where one node ends
and another one starts at the same place, the cursor touches both, and the search goes
into the first one. On a character of a name the cursor touches the nodes around the
name and, apart from them, only nodes that end just there. So the named node is found
unless some node ends at the cursor, and that happens in front of the first character of
the name only (`usageAt?_eq_some_iff`).

## Main Definitions

* `SymbolTree.Nested`: the nodes of a tree stand in each other and beside each other
* `SymbolTree.OnName`: a cursor is on a character of the name of a node

## Main Results

* `SymbolTree.nested_grow`: the nodes of a text are nested
* `SymbolTree.Nested.nodeAt?_eq_some_iff`: when the node that has the name is found
* `usageAt?_eq_some_iff`
-/

namespace SolidityAtlas

open Site (descendTree descendTrees)

namespace SymbolTree

variable {t t' : SymbolTree} {text : String}

/-! ## Nested nodes -/

/-- The first node ends before the second one starts. -/
def EndsBefore (t : SymbolTree) (b c : NodeId) : Prop :=
  ∀ v w, t.symbol? b = some v → t.symbol? c = some w → v.range.stop ≤ w.range.start

/-- The nodes of a tree stand in each other and beside each other, and their names stand in them,
beside the nodes in them. -/
structure Nested (t : SymbolTree) : Prop where
  forward : ∀ id s, t.symbol? id = some s → s.range.start ≤ s.range.stop
  mem_children_iff : ∀ id c, c ∈ t.children id ↔ t.parent? c = some id
  rooted : ∀ id s, t.symbol? id = some s → id ≠ root → root ∈ t.ancestors id
  inside : ∀ id c s v, t.parent? c = some id → t.symbol? id = some s → t.symbol? c = some v →
    s.range.start ≤ v.range.start ∧ v.range.stop ≤ s.range.stop
  apart : ∀ id, (t.children id).Pairwise t.EndsBefore
  named : ∀ id s l, t.symbol? id = some s → s.label = some l →
    s.range.start ≤ l.range.start ∧ l.range.stop ≤ s.range.stop
  beside : ∀ id c s v l, t.parent? c = some id → t.symbol? id = some s → t.symbol? c = some v →
    s.label = some l → v.range.stop ≤ l.range.start ∨ l.range.stop ≤ v.range.start

/-- The cursor is on a character of the name of the node. -/
structure OnName (t : SymbolTree) (n : NodeId) (p : Position) (u : Symbol) (l : Label) : Prop where
  symbol : t.symbol? n = some u
  label : u.label = some l
  start : l.range.start ≤ p
  stop : p < l.range.stop

/-! ## The nodes of a text -/

/-- The name of a node is not in the nodes in it. -/
theorem beside_of_laid (hlaid : t.Laid none 0 (parse text).tree)
    (hpreorder : List.Forall₂ (Symbol.StandsFor (.ofText text)) t.nodes.toList
      (descendTree none 0 (parse text).tree)) {id c : NodeId} {s v : Symbol} {l : Label}
    (hp : t.parent? c = some id) (hs : t.symbol? id = some s) (hv : t.symbol? c = some v)
    (hl : s.label = some l) : v.range.stop ≤ l.range.start ∨ l.range.stop ≤ v.range.start := by
  obtain ⟨site, hsite, hstands⟩ := exists_site hpreorder hs
  obtain ⟨site', hsite', hstands'⟩ := exists_site hpreorder hv
  rw [hstands.label] at hl
  obtain ⟨token, htoken, rfl⟩ := Option.map_eq_some_iff.1 hl
  have hmem := mem_tokens_of_nameToken? htoken
  have hstarts := Site.startsAt_of_mem_tokensAt (startsAt_of_site hsite) hmem
  have hbelow := hlaid.mem_descendTrees (fun p hp => by cases hp) hsite' hsite
    (by rw [Nat.zero_add, Nat.zero_add]; exact hp)
  rw [hstands'.range]
  rcases Site.apart_of_mem_tokensAt hmem hbelow with hle | hle
  · exact .inr ((LineMap.position_le_iff hstarts.isOffset_stop (isOffset_start_of_site hsite')).2 hle)
  · exact .inl ((LineMap.position_le_iff (isOffset_stop_of_site hsite') hstarts.isOffset).2 hle)

/-- The nodes of a text are nested. -/
theorem nested_grow (maxDepth file generation : Nat) (text : String) :
    (grow maxDepth file generation (.ofText text) (parse text).tree).Nested := by
  have hmirrors := mirrorsText_grow maxDepth file generation text
  have hstraight := straight_grow maxDepth file generation (.ofText text) (parse text).tree
  have hcount := count_children_grow maxDepth file generation (.ofText text) (parse text).tree
  have hrooted := (rooted_planted file generation (.ofText text) text).congr
    (stage_grow maxDepth file generation (.ofText text) (parse text).tree).stems
  generalize grow maxDepth file generation (.ofText text) (parse text).tree = t at *
  have hchildren : ∀ id c, c ∈ t.children id ↔ t.parent? c = some id := by
    intro id c
    rw [← List.count_pos_iff, hcount]
    split <;> simp_all
  refine ⟨fun id s hs => ?_, hchildren,
    fun id s hs hne => hrooted.around id (lt_size_of_symbol? hs) hne,
    fun id c s v hp hs hv => ?_, fun id => ?_, fun id s l hs hl => ?_,
    fun id c s v l hp hs hv hl => beside_of_laid hmirrors.laid hmirrors.preorder hp hs hv hl⟩
  · obtain ⟨site, hsite, hstands⟩ := exists_site hmirrors.preorder hs
    rw [hstands.range]
    exact (LineMap.position_le_iff (isOffset_start_of_site hsite) (isOffset_stop_of_site hsite)).2
      (Nat.le_add_right _ _)
  · have hmem : c ∈ s.children := by
      rw [← (hstraight id s hs).2]
      exact (hchildren id c).2 hp
    exact decide_eq_true_iff.1 (hmirrors.inside id s c v hs hv hmem)
  · cases hs : t.symbol? id with
    | none => rw [children, hs]; exact .nil
    | some s =>
        rw [(hstraight id s hs).2]
        exact hmirrors.apart id s hs
  · exact decide_eq_true_iff.1 (hmirrors.label id s l hs hl).1

/-- The places of the nodes do not depend on links. -/
theorem Nested.congr (h : t.Nested) (houtline : t'.outline = t.outline) : t'.Nested := by
  have hsymbol : ∀ id s', t'.symbol? id = some s' →
      ∃ s, t.symbol? id = some s ∧ s'.range = s.range ∧ s'.label = s.label := by
    intro id s' hs'
    obtain ⟨s, hs, hbare⟩ := symbol?_of_outline houtline hs'
    have hrange : s'.bare.range = s.bare.range := by rw [hbare]
    exact ⟨s, hs, hrange, Symbol.label_congr hbare⟩
  have hparent := parent?_congr houtline
  have hchildren := children_congr houtline
  refine ⟨fun id s' hs' => ?_, fun id c => ?_, fun id s' hs' hne => ?_, fun id c s' v' hp hs' hv' => ?_,
    fun id => ?_, fun id s' l hs' hl => ?_, fun id c s' v' l hp hs' hv' hl => ?_⟩
  · obtain ⟨s, hs, hrange, -⟩ := hsymbol id s' hs'
    rw [hrange]
    exact h.forward id s hs
  · rw [hparent, hchildren]
    exact h.mem_children_iff id c
  · obtain ⟨s, hs, -⟩ := hsymbol id s' hs'
    rw [ancestors_congr houtline]
    exact h.rooted id s hs hne
  · obtain ⟨s, hs, hrange, -⟩ := hsymbol id s' hs'
    obtain ⟨v, hv, hrange', -⟩ := hsymbol c v' hv'
    rw [hrange, hrange']
    exact h.inside id c s v (hparent ▸ hp) hs hv
  · rw [hchildren]
    refine (h.apart id).imp fun {b c} hapart v' w' hv' hw' => ?_
    obtain ⟨v, hv, hrange, -⟩ := hsymbol b v' hv'
    obtain ⟨w, hw, hrange', -⟩ := hsymbol c w' hw'
    rw [hrange, hrange']
    exact hapart v w hv hw
  · obtain ⟨s, hs, hrange, hlabel⟩ := hsymbol id s' hs'
    rw [hrange]
    exact h.named id s l hs (hlabel ▸ hl)
  · obtain ⟨s, hs, -, hlabel⟩ := hsymbol id s' hs'
    obtain ⟨v, hv, hrange, -⟩ := hsymbol c v' hv'
    rw [hrange]
    exact h.beside id c s v l (hparent ▸ hp) hs hv (hlabel ▸ hl)

/-! ## The way to a node -/

/-- A node is another one or stands around it. -/
def OnWay (t : SymbolTree) (n x : NodeId) : Prop :=
  x = n ∨ x ∈ t.ancestors n

/-- From a node around another one the way goes on to one of its children. -/
theorem exists_onWay {n x : NodeId} (hx : x ∈ t.ancestors n) :
    ∃ y, t.parent? y = some x ∧ t.OnWay n y := by
  induction n using Nat.strongRecOn with
  | _ n ih =>
      obtain ⟨q, hq, rfl | hmem⟩ := mem_ancestors_iff.1 hx
      · exact ⟨n, hq, .inl rfl⟩
      · obtain ⟨y, hy, rfl | hway⟩ := ih q (parent?_lt hq) hmem
        · exact ⟨y, hy, .inr (mem_ancestors_of_parent hq)⟩
        · exact ⟨y, hy, .inr (mem_ancestors_trans hway (mem_ancestors_of_parent hq))⟩

/-- A node touches the positions of its range, both ends included. -/
theorem touches_iff {p : Position} {id : NodeId} {s : Symbol} (hs : t.symbol? id = some s) :
    t.touches p id = true ↔ s.range.start ≤ p ∧ p ≤ s.range.stop := by
  rw [touches, hs, Option.any_some, Span.contains, decide_eq_true_iff]

/-- From a node the search goes down into the first child that the cursor touches. -/
theorem deepestAt_eq (t : SymbolTree) (p : Position) (id : NodeId) :
    t.deepestAt p id = match (t.children id).find? (t.touches p) with
      | some c => t.deepestAt p c
      | none => id := by
  rw [deepestAt]
  split
  · rename_i c hc
    rw [hc]
  · rename_i hc
    rw [hc]

/-- Children are nodes. -/
theorem exists_symbol_of_mem_children {id c : NodeId} (hc : c ∈ t.children id) :
    ∃ v, t.symbol? c = some v :=
  ⟨_, Array.getElem?_eq_getElem (lt_of_mem_children hc).2⟩

namespace Nested

variable (h : t.Nested)

include h

/-- A node starts no earlier than a node around it and ends no later. -/
theorem inside_of_mem_ancestors {x n : NodeId} {s u : Symbol} (hx : x ∈ t.ancestors n)
    (hs : t.symbol? x = some s) (hu : t.symbol? n = some u) :
    s.range.start ≤ u.range.start ∧ u.range.stop ≤ s.range.stop := by
  induction n using Nat.strongRecOn generalizing u with
  | _ n ih =>
      obtain ⟨q, hq, hx⟩ := mem_ancestors_iff.1 hx
      obtain ⟨v, hv⟩ : ∃ v, t.symbol? q = some v := by
        obtain ⟨hlt, hsize⟩ := lt_of_mem_children ((h.mem_children_iff q n).2 hq)
        exact ⟨_, Array.getElem?_eq_getElem (Nat.lt_trans hlt hsize)⟩
      have hin := h.inside q n v u hq hv hu
      rcases hx with rfl | hx
      · obtain rfl := Option.some.inj (hs.symm.trans hv)
        exact hin
      · have hout := ih q (parent?_lt hq) hx hv
        exact ⟨Position.le_trans hout.1 hin.1, Position.le_trans hin.2 hout.2⟩

/-- The search ends in the node where it begins or in a node inside. -/
theorem onWay_deepestAt (p : Position) (x : NodeId) : t.OnWay (t.deepestAt p x) x := by
  induction x using (measure fun id => t.size - id).wf.induction with
  | h x ih =>
      rw [deepestAt_eq]
      cases hfind : (t.children x).find? (t.touches p) with
      | none => exact .inl rfl
      | some c =>
          have hc := List.mem_of_find?_eq_some hfind
          have hx := mem_ancestors_of_parent ((h.mem_children_iff x c).1 hc)
          show t.OnWay (t.deepestAt p c) x
          rcases ih c (sub_lt_of_mem_children hc) with heq | hmem
          · exact .inr (heq ▸ hx)
          · exact .inr (mem_ancestors_trans hx hmem)

/-- One of two nodes directly in a third one ends before the other one starts. -/
theorem endsBefore_or {id b c : NodeId} (hb : b ∈ t.children id) (hc : c ∈ t.children id)
    (hne : b ≠ c) : t.EndsBefore b c ∨ t.EndsBefore c b := by
  have hpairwise : (t.children id).Pairwise fun b c => t.EndsBefore b c ∨ t.EndsBefore c b :=
    (h.apart id).imp Or.inl
  have hsymm : Std.Symm fun b c => t.EndsBefore b c ∨ t.EndsBefore c b := ⟨fun _ _ => Or.symm⟩
  exact hpairwise.forall hb hc hne

section Name

variable {n : NodeId} {p : Position} {u : Symbol} {l : Label} (hn : t.OnName n p u l)

include hn

/-- The name of a node is in all nodes on the way. -/
theorem named_of_onWay {x : NodeId} {s : Symbol} (hx : t.OnWay n x) (hs : t.symbol? x = some s) :
    s.range.start ≤ l.range.start ∧ l.range.stop ≤ s.range.stop := by
  have hnamed := h.named n u l hn.symbol hn.label
  rcases hx with rfl | hx
  · obtain rfl := Option.some.inj (hs.symm.trans hn.symbol)
    exact hnamed
  · have hin := h.inside_of_mem_ancestors hx hs hn.symbol
    exact ⟨Position.le_trans hin.1 hnamed.1, Position.le_trans hnamed.2 hin.2⟩

/-- A cursor on the name of a node is in all nodes on the way, and not at their ends. -/
theorem contains_of_onWay {x : NodeId} {s : Symbol} (hx : t.OnWay n x) (hs : t.symbol? x = some s) :
    s.range.start ≤ p ∧ p < s.range.stop :=
  have hnamed := h.named_of_onWay hn hx hs
  ⟨Position.le_trans hnamed.1 hn.start, Position.lt_of_lt_of_le hn.stop hnamed.2⟩

/-- A child beside the way that the cursor touches ends at the cursor, and the name starts there. -/
theorem ends_of_touches {x y c : NodeId} {v : Symbol} (hy : t.parent? y = some x)
    (hway : t.OnWay n y) (hc : c ∈ t.children x) (hne : c ≠ y) (hv : t.symbol? c = some v)
    (htouches : t.touches p c = true) : v.range.stop = p ∧ l.range.start = p := by
  have hmem := (h.mem_children_iff x y).2 hy
  obtain ⟨w, hw⟩ := exists_symbol_of_mem_children hmem
  have hnamed := h.named_of_onWay hn hway hw
  have hat := (touches_iff hv).1 htouches
  rcases h.endsBefore_or hc hmem hne with hbefore | hbehind
  · have hle := Position.le_trans (hbefore v w hv hw) hnamed.1
    exact ⟨Position.le_antisymm (Position.le_trans hle hn.start) hat.2,
      Position.le_antisymm hn.start (Position.le_trans hat.2 hle)⟩
  · have hlt := Position.lt_of_lt_of_le hn.stop (Position.le_trans hnamed.2 (hbehind w v hw hv))
    exact absurd hlt (Position.not_lt_of_le hat.1)

/-- A child of the named node that the cursor touches ends at the cursor, and the name starts
there. -/
theorem ends_of_touches_inside {c : NodeId} {v : Symbol} (hc : c ∈ t.children n)
    (hv : t.symbol? c = some v) (htouches : t.touches p c = true) :
    v.range.stop = p ∧ l.range.start = p := by
  have hat := (touches_iff hv).1 htouches
  rcases h.beside n c u v l ((h.mem_children_iff n c).1 hc) hn.symbol hv hn.label with hle | hle
  · exact ⟨Position.le_antisymm (Position.le_trans hle hn.start) hat.2,
      Position.le_antisymm hn.start (Position.le_trans hat.2 hle)⟩
  · exact absurd (Position.lt_of_lt_of_le hn.stop hle) (Position.not_lt_of_le hat.1)

/-- The search stays on the way if no node ends where the name starts, or if the cursor is not
there. -/
theorem deepestAt_eq_of_onWay
    (hends : l.range.start = p → ∀ c v, t.symbol? c = some v → v.range.stop ≠ p) (x : NodeId)
    (hx : t.OnWay n x) : t.deepestAt p x = n := by
  induction x using (measure fun id => t.size - id).wf.induction with
  | h x ih =>
      rw [deepestAt_eq]
      rcases hx with rfl | hx
      · have hfind : (t.children x).find? (t.touches p) = none := by
          refine List.find?_eq_none.2 fun c hc htouches => ?_
          obtain ⟨v, hv⟩ := exists_symbol_of_mem_children hc
          obtain ⟨hend, hstart⟩ := h.ends_of_touches_inside hn hc hv htouches
          exact hends hstart c v hv hend
        rw [hfind]
      · obtain ⟨y, hy, hway⟩ := exists_onWay hx
        have hmem := (h.mem_children_iff x y).2 hy
        have hfind : (t.children x).find? (t.touches p) = some y := by
          cases hfind : (t.children x).find? (t.touches p) with
          | none =>
              obtain ⟨w, hw⟩ := exists_symbol_of_mem_children hmem
              have hcontains := h.contains_of_onWay hn hway hw
              exact absurd ((touches_iff hw).2 ⟨hcontains.1, Position.le_of_lt hcontains.2⟩)
                (List.find?_eq_none.1 hfind y hmem)
          | some c =>
              have hc := List.mem_of_find?_eq_some hfind
              obtain ⟨v, hv⟩ := exists_symbol_of_mem_children hc
              refine congrArg some (Classical.by_contradiction fun hne => ?_)
              obtain ⟨hend, hstart⟩ :=
                h.ends_of_touches hn hy hway hc hne hv (List.find?_some hfind)
              exact hends hstart c v hv hend
        rw [hfind]
        exact ih y (sub_lt_of_mem_children hmem) hway

/-- If the search comes to the named node, nothing inside the nodes on the way ends at the cursor. -/
theorem stop_ne_of_deepestAt {c : NodeId} {v : Symbol} (hv : t.symbol? c = some v) (x : NodeId)
    (hdeepest : t.deepestAt p x = n) (hx : x ∈ t.ancestors c) : v.range.stop ≠ p := by
  intro hend
  have hforward := h.forward c v hv
  induction x using (measure fun id => t.size - id).wf.induction with
  | h x ih =>
      obtain ⟨y, hy, hway⟩ := exists_onWay hx
      have hmem := (h.mem_children_iff x y).2 hy
      obtain ⟨w, hw⟩ := exists_symbol_of_mem_children hmem
      -- The child that holds the node with this end is one that the cursor touches, or lies behind it.
      have hin : w.range.start ≤ p ∧ p ≤ w.range.stop := by
        have hin : w.range.start ≤ v.range.start ∧ v.range.stop ≤ w.range.stop := by
          rcases hway with rfl | hway
          · obtain rfl := Option.some.inj (hv.symm.trans hw)
            exact ⟨Position.le_refl _, Position.le_refl _⟩
          · exact h.inside_of_mem_ancestors hway hw hv
        rw [← hend]
        exact ⟨Position.le_trans hin.1 hforward, hin.2⟩
      rw [deepestAt_eq] at hdeepest
      cases hfind : (t.children x).find? (t.touches p) with
      | none => exact List.find?_eq_none.1 hfind y hmem ((touches_iff hw).2 hin)
      | some z =>
          simp only [hfind] at hdeepest
          obtain ⟨htouches, before, after, hsplit, hbefore⟩ := List.find?_eq_some_iff_append.1 hfind
          have hz := List.mem_of_find?_eq_some hfind
          obtain ⟨a, ha⟩ := exists_symbol_of_mem_children hz
          have hcontains := h.contains_of_onWay hn (hdeepest ▸ h.onWay_deepestAt p z) ha
          by_cases hyz : y = z
          · rcases hway with rfl | hway
            · obtain rfl := Option.some.inj (ha.symm.trans (hyz ▸ hv))
              exact Position.lt_irrefl p (hend ▸ hcontains.2)
            · exact ih z (sub_lt_of_mem_children hz) hdeepest (hyz ▸ hway)
          · have hbehind : y ∈ after := by
              rw [hsplit] at hmem
              rcases List.mem_append.1 hmem with hmem | hmem
              · have hnot := hbefore y hmem
                rw [(touches_iff hw).2 hin] at hnot
                cases hnot
              · exact (List.mem_cons.1 hmem).resolve_left hyz
            have hapart := h.apart x
            rw [hsplit] at hapart
            have hlater := List.rel_of_pairwise_cons (List.pairwise_append.1 hapart).2.1 hbehind a w ha hw
            exact Position.not_lt_of_le hin.1 (Position.lt_of_lt_of_le hcontains.2 hlater)

/-- A node is found from a character of its name unless another node ends there, and always from
behind the first character. -/
theorem nodeAt?_eq_some_iff :
    (t.nodeAt? p = some n ↔ ∀ c v, t.symbol? c = some v → v.range.stop ≠ p) ∧
      (l.range.start < p → t.nodeAt? p = some n) := by
  have hroot : t.OnWay n root := by
    by_cases hne : n = root
    · exact .inl hne.symm
    · exact .inr (h.rooted n u hn.symbol hne)
  obtain ⟨r, hr⟩ : ∃ r, t.symbol? root = some r := by
    refine ⟨_, Array.getElem?_eq_getElem ?_⟩
    exact Nat.lt_of_le_of_lt (Nat.zero_le n) (lt_size_of_symbol? hn.symbol)
  have hcontains := h.contains_of_onWay hn hroot hr
  have htouches := (touches_iff hr).2 ⟨hcontains.1, Position.le_of_lt hcontains.2⟩
  rw [nodeAt?, if_pos htouches, Option.some.injEq]
  refine ⟨⟨fun hdeepest c v hv hend => ?_, fun hends => ?_⟩, fun hlt => ?_⟩
  · by_cases hc : c = root
    · subst hc
      obtain rfl := Option.some.inj (hr.symm.trans hv)
      exact Position.lt_irrefl p (hend ▸ hcontains.2)
    · exact h.stop_ne_of_deepestAt hn hv root hdeepest (h.rooted c v hv hc) hend
  · exact h.deepestAt_eq_of_onWay hn (fun _ => hends) root hroot
  · refine h.deepestAt_eq_of_onWay hn (fun hstart => ?_) root hroot
    exact absurd hlt (hstart ▸ Position.lt_irrefl p)

end Name

end Nested

end SymbolTree

/-! ## Uses under a cursor -/

open SymbolTree

variable {t : SymbolTree} {text : String}

/-- A cursor on a character of the name of a use finds this use in the tree of a text, with whatever
links, unless some node ends at the cursor; then it never does. Only the place in front of the first
character of the name can be such an end. -/
theorem usageAt?_eq_some_iff {maxDepth file generation : Nat}
    (ht : t.outline = (grow maxDepth file generation (.ofText text) (parse text).tree).outline)
    {n : NodeId} {p : Position} {u : Symbol} {l : Label} (hn : t.OnName n p u l)
    (hk : u.kind.isHoverable = true) :
    (t.nodeAt? p = some n ↔ ∀ c v, t.symbol? c = some v → v.range.stop ≠ p) ∧
      (l.range.start < p → t.nodeAt? p = some n) ∧
      ∀ (s : Snapshot) (f : FileId), s.tree? f = some t →
        (s.usageAt? f p = some (t.handle n) ↔ t.nodeAt? p = some n) := by
  have hnested := (nested_grow maxDepth file generation text).congr ht
  obtain ⟨hiff, hbehind⟩ := hnested.nodeAt?_eq_some_iff hn
  refine ⟨hiff, hbehind, fun s f hs => ?_⟩
  rw [Snapshot.usageAt?, hs, Option.bind_eq_bind, Option.bind_some]
  constructor
  · intro husage
    obtain ⟨id, hid, husage⟩ := Option.bind_eq_some_iff.1 husage
    split at husage
    · rw [hid, (Handle.mk.inj (Option.some.inj husage)).2.2]
    · cases husage
  · intro hnode
    rw [hnode, Option.bind_eq_bind, Option.bind_some, kind?, hn.symbol, Option.map_some,
      Option.any_some, if_pos hk]
    rfl

/-- Two statements without a blank between them. -/
def adjacentUses : SymbolTree :=
  let text := "contract C \x7b function f() public \x7b a;b; \x7d \x7d"
  grow defaultMaxDepth 0 1 (.ofText text) (parse text).tree

/-- In `a;b;` the cursor in front of `b` finds the statement `a;`, which ends there. -/
theorem exists_onName_adjacentUses : ∃ u l, adjacentUses.OnName 8 ⟨0, 37⟩ u l ∧
    u.kind.isHoverable = true ∧ adjacentUses.nodeAt? ⟨0, 37⟩ = some 5 := by
  have huse : ∃ u ∈ adjacentUses.symbol? 8, ∃ l ∈ u.label, l.range.start ≤ ⟨0, 37⟩ ∧
      (⟨0, 37⟩ : Position) < l.range.stop ∧ u.kind.isHoverable = true ∧
      adjacentUses.nodeAt? ⟨0, 37⟩ = some 5 := by
    decide +kernel
  obtain ⟨u, hu, l, hl, hstart, hstop, hk, hnode⟩ := huse
  exact ⟨u, l, ⟨hu, hl, hstart, hstop⟩, hk, hnode⟩

/-- In `a;b;` the name `b` is missed because `a;` ends where it starts. -/
theorem usageAt?_adjacentUses_iff : ∃ u l, adjacentUses.OnName 8 ⟨0, 37⟩ u l ∧
    (adjacentUses.nodeAt? ⟨0, 37⟩ = some 8 ↔
      ∀ c v, adjacentUses.symbol? c = some v → v.range.stop ≠ ⟨0, 37⟩) := by
  obtain ⟨u, l, hn, hk, -⟩ := exists_onName_adjacentUses
  exact ⟨u, l, hn, (usageAt?_eq_some_iff rfl hn hk).1⟩

/-- A cursor on a character of the name of a use finds this use. -/
def FindsUses (t : SymbolTree) : Prop :=
  ∀ n p u l, t.OnName n p u l → u.kind.isHoverable = true → t.nodeAt? p = some n

/-- The first statement ends where the second use begins, so the search goes into the first one. -/
theorem not_findsUses : ¬ FindsUses adjacentUses := by
  intro h
  obtain ⟨u, l, hn, hk, hnode⟩ := exists_onName_adjacentUses
  have hfound := h 8 _ u l hn hk
  rw [hnode] at hfound
  cases hfound

end SolidityAtlas

import Mathlib.Data.List.Nodup
import SolidityAtlas.Proofs.Symbol.Stage
import SolidityAtlas.Proofs.Syntax.Places

/-!
# The symbols of a text mirror it

The symbols of a text stand for the nodes of its syntax tree, in the order in which these are met
when a node comes before what it holds. They stand in each other as the nodes do, at the places of
the nodes, and their names stand where they say (`SymbolTree.mirrorsText_grow`).

What a node is and where it stands is planted and stays. Its children come one by one while names
are looked up, each when all that it holds has been dealt with; that each of them is listed once, in
the order of the text, is a property of the order of settling.

## Main Definitions

* `Symbol.StandsFor`: a symbol is for a node of a syntax tree
* `SymbolTree.MirrorsText`: the symbols of a tree mirror a text

## Main Results

* `SymbolTree.Laid.mem_descendTrees`, `SymbolTree.Laid.apart`: where nodes stand that are in each
  other, or not
* `SymbolTree.mirrorsText_grow`
-/

namespace SolidityAtlas

open Site (descendTree descendTrees)

namespace Site

mutual

/-- Every node of a tree has a site. -/
@[simp] theorem length_descendTree (around : Option NodeKind) (start : Nat) :
    (t : SyntaxTree) → (descendTree around start t).length = t.nodeCount
  | .leaf _ _ => rfl
  | .node kind inner => by
    rw [descendTree, List.length_cons, length_descendTrees, SyntaxTree.nodeCount]

@[simp] theorem length_descendTrees (around : Option NodeKind) (start : Nat) :
    (ts : List SyntaxTree) → (descendTrees around start ts).length = SyntaxTree.nodeCountOf ts
  | [] => rfl
  | t :: ts => by
    rw [descendTrees, List.length_append, length_descendTree, length_descendTrees,
      SyntaxTree.nodeCountOf]

end

end Site

/-! ## Symbols and nodes -/

/-- A symbol is for a node of a syntax tree: it has its kind, its name and its place. -/
structure Symbol.StandsFor (m : LineMap) (s : Symbol) (site : Site) : Prop where
  range : s.range = m.span site.start site.stop
  label : s.label = (nameToken? site).map fun t => ⟨t.text, m.span t.start t.stop⟩
  detail : s.detail = .ofSite site

theorem Symbol.StandsFor.kind {m : LineMap} {s : Symbol} {site : Site} (h : s.StandsFor m site) :
    s.kind = site.kind := by
  rw [Symbol.kind, h.detail, Detail.kind_ofSite]

/-- A symbol stands for its site as long as its stem stays. -/
theorem Symbol.StandsFor.of_stem {m : LineMap} {s v : Symbol} {site : Site}
    (h : v.StandsFor m site) (hstem : s.stem = v.stem) : s.StandsFor m site where
  range := (Symbol.congr_stem (f := Symbol.range) (fun _ => rfl) hstem).trans h.range
  label := (Symbol.congr_stem (f := Symbol.label) (fun _ => rfl) hstem).trans h.label
  detail := (Symbol.congr_stem (f := Symbol.detail) (fun _ => rfl) hstem).trans h.detail

mutual

/-- The symbols that are planted stand for the nodes of the tree, in the same order. -/
theorem forall₂_plant (m : LineMap) : (around : Surroundings) → (id start : Nat) →
    (t : SyntaxTree) →
    List.Forall₂ (Symbol.StandsFor m) (plant m around id start t) (descendTree around.kind start t)
  | _, _, _, .leaf _ _ => .nil
  | _, _, _, .node _ _ => .cons ⟨rfl, rfl, rfl⟩ (forall₂_plantAll m _ _ _ _)

/-- The nodes of a row are planted at their sites, in order. -/
theorem forall₂_plantAll (m : LineMap) : (around : Surroundings) → (id start : Nat) →
    (ts : List SyntaxTree) →
    List.Forall₂ (Symbol.StandsFor m) (plantAll m around id start ts)
      (descendTrees around.kind start ts)
  | _, _, _, [] => .nil
  | around, id, start, t :: ts =>
    List.rel_append (forall₂_plant m around id start t)
      (forall₂_plantAll m _ _ (start + t.byteLength) ts)

end

namespace SymbolTree

variable {t : SymbolTree}

/-! ## Extents of nodes -/

mutual

/-- What stands directly in a node is a node below it. -/
theorem Laid.mem_descendTrees {id x y : Nat} {outer : Option NodeId} {s s' : Site} : {tree : SyntaxTree} →
    {around : Option NodeKind} → {start : Nat} → t.Laid outer id tree →
    (∀ p, outer = some p → p < id) → (descendTree around start tree)[x]? = some s →
    (descendTree around start tree)[y]? = some s' → t.parent? (id + x) = some (id + y) →
    s ∈ descendTrees (some s'.kind) s'.start s'.children
  | .leaf _ _, _, _, _, _, hs, _, _ => by simp [descendTree] at hs
  | .node kind inner, _, start, h, hlt, hs, hs', hp => by
    cases x with
    | zero =>
        rw [Nat.add_zero, h.2.1] at hp
        exact absurd (hlt (id + y) hp) (Nat.not_lt.2 (Nat.le_add_right id y))
    | succ x =>
        rw [descendTree, List.getElem?_cons_succ] at hs
        cases y with
        | zero =>
            obtain rfl : _ = s' := Option.some.inj hs'
            exact List.mem_of_getElem? hs
        | succ y =>
            rw [descendTree, List.getElem?_cons_succ] at hs'
            refine h.2.2.mem_descendTrees (fun p hp => ?_) hs hs' ?_
            · obtain rfl : id = p := Option.some.inj hp
              exact Nat.lt_succ_self id
            · rw [Nat.add_right_comm, Nat.add_right_comm id 1 y]
              exact hp

/-- What is a parent in a row of nodes has the child among its sites. -/
theorem LaidAll.mem_descendTrees {id x y : Nat} {outer : Option NodeId} {s s' : Site} :
    {trees : List SyntaxTree} → {around : Option NodeKind} → {start : Nat} →
    t.LaidAll outer id trees → (∀ p, outer = some p → p < id) →
    (descendTrees around start trees)[x]? = some s →
    (descendTrees around start trees)[y]? = some s' → t.parent? (id + x) = some (id + y) →
    s ∈ descendTrees (some s'.kind) s'.start s'.children
  | [], _, _, _, _, hs, _, _ => by simp [descendTrees] at hs
  | tree :: trees, _, start, ⟨htree, htrees⟩, hlt, hs, hs', hp => by
    have hx := (List.getElem?_eq_some_iff.1 hs).1
    have hyx : y < x := Nat.lt_of_add_lt_add_left (parent?_lt hp)
    rw [Site.length_descendTrees, SyntaxTree.nodeCountOf] at hx
    rw [descendTrees] at hs hs'
    by_cases hin : x < tree.nodeCount
    · rw [List.getElem?_append_left (by rw [Site.length_descendTree]; exact hin)] at hs
      rw [List.getElem?_append_left (by rw [Site.length_descendTree]; omega)] at hs'
      exact htree.mem_descendTrees hlt hs hs' hp
    · have hy : tree.nodeCount ≤ y := by
        rcases htrees.parent? (x := id + x) (by omega) (by omega) with hq | ⟨q, hq, hle⟩
        · exact absurd (hlt (id + y) (hq.symm.trans hp)) (Nat.not_lt.2 (Nat.le_add_right id y))
        · obtain rfl : id + y = q := Option.some.inj (hp.symm.trans hq)
          have : id + tree.nodeCount ≤ id + y := hle
          omega
      rw [List.getElem?_append_right (by rw [Site.length_descendTree]; omega),
        Site.length_descendTree] at hs hs'
      refine htrees.mem_descendTrees (fun p hp => Nat.lt_of_lt_of_le (hlt p hp) (Nat.le_add_right _ _)) hs hs' ?_
      rw [Nat.add_assoc, Nat.add_assoc, Nat.add_sub_cancel' (by omega), Nat.add_sub_cancel' hy]
      exact hp

end

/-- A node holds the nodes that stand directly in it. -/
theorem Laid.holds {id x y : Nat} {outer : Option NodeId} {s s' : Site} {tree : SyntaxTree}
    {around : Option NodeKind} {start : Nat} (h : t.Laid outer id tree)
    (hlt : ∀ p, outer = some p → p < id) (hs : (descendTree around start tree)[x]? = some s)
    (hs' : (descendTree around start tree)[y]? = some s')
    (hp : t.parent? (id + x) = some (id + y)) : s'.Holds s :=
  Site.within_of_mem_descendTrees (h.mem_descendTrees hlt hs hs' hp)

mutual

/-- Of two nodes that do not stand in each other the one that comes first ends first. -/
theorem Laid.apart {id x y : Nat} {outer : Option NodeId} {s s' : Site} : {tree : SyntaxTree} →
    {around : Option NodeKind} → {start : Nat} → t.Laid outer id tree →
    (descendTree around start tree)[x]? = some s →
    (descendTree around start tree)[y]? = some s' → x < y → id + x ∉ t.ancestors (id + y) →
    s.stop ≤ s'.start
  | .leaf _ _, _, _, _, hs, _, _, _ => by simp [descendTree] at hs
  | .node kind inner, _, start, h, hs, hs', hxy, hnot => by
    have hy := (List.getElem?_eq_some_iff.1 hs').1
    rw [Site.length_descendTree] at hy
    cases y with
    | zero => exact absurd hxy (Nat.not_lt_zero _)
    | succ y =>
        rw [descendTree, List.getElem?_cons_succ] at hs'
        cases x with
        | zero => exact absurd (h.mem_ancestors (by omega) (by omega)) hnot
        | succ x =>
            rw [descendTree, List.getElem?_cons_succ] at hs
            refine h.2.2.apart hs hs' (Nat.lt_of_succ_lt_succ hxy) ?_
            rw [Nat.add_right_comm id 1 x, Nat.add_right_comm id 1 y]
            exact hnot

/-- In a row, what does not stand inside a node starts behind its end. -/
theorem LaidAll.apart {id x y : Nat} {outer : Option NodeId} {s s' : Site} :
    {trees : List SyntaxTree} → {around : Option NodeKind} → {start : Nat} →
    t.LaidAll outer id trees → (descendTrees around start trees)[x]? = some s →
    (descendTrees around start trees)[y]? = some s' → x < y → id + x ∉ t.ancestors (id + y) →
    s.stop ≤ s'.start
  | [], _, _, _, hs, _, _, _ => by simp [descendTrees] at hs
  | tree :: trees, _, start, ⟨htree, htrees⟩, hs, hs', hxy, hnot => by
    rw [descendTrees] at hs hs'
    by_cases hy : y < tree.nodeCount
    · rw [List.getElem?_append_left (by rw [Site.length_descendTree]; omega)] at hs hs'
      exact htree.apart hs hs' hxy hnot
    · rw [List.getElem?_append_right (by rw [Site.length_descendTree]; omega),
        Site.length_descendTree] at hs'
      by_cases hx : x < tree.nodeCount
      · rw [List.getElem?_append_left (by rw [Site.length_descendTree]; exact hx)] at hs
        exact Nat.le_trans (Site.within_of_mem_descendTree (List.mem_of_getElem? hs)).2
          (Site.within_of_mem_descendTrees (List.mem_of_getElem? hs')).1
      · rw [List.getElem?_append_right (by rw [Site.length_descendTree]; omega),
          Site.length_descendTree] at hs
        refine htrees.apart hs hs' (by omega) ?_
        rw [Nat.add_assoc, Nat.add_assoc, Nat.add_sub_cancel' (by omega),
          Nat.add_sub_cancel' (by omega)]
        exact hnot

end

/-! ## Parents and children -/

mutual

/-- A node is planted behind the node around it. -/
theorem parent_lt_of_plant {m : LineMap} {i p : Nat} {s : Symbol} : {tree : SyntaxTree} →
    {around : Surroundings} → {id start : Nat} → (∀ q, around.parent = some q → q < id) →
    (plant m around id start tree)[i]? = some s → s.parent = some p → p < id + i
  | .leaf _ _, _, _, _, _, hs, _ => by simp [plant] at hs
  | .node kind inner, around, id, start, hlt, hs, hp => by
    rw [plant] at hs
    cases i with
    | zero =>
        obtain rfl := Option.some.inj hs
        exact hlt p hp
    | succ i =>
        rw [List.getElem?_cons_succ] at hs
        rw [← Nat.add_assoc, Nat.add_right_comm]
        refine parent_lt_of_plantAll (fun q hq => ?_) hs hp
        obtain rfl : id = q := Option.some.inj hq
        exact Nat.lt_succ_self id

/-- In a row of planted nodes parents come first. -/
theorem parent_lt_of_plantAll {m : LineMap} {i p : Nat} {s : Symbol} : {trees : List SyntaxTree} →
    {around : Surroundings} → {id start : Nat} → (∀ q, around.parent = some q → q < id) →
    (plantAll m around id start trees)[i]? = some s → s.parent = some p → p < id + i
  | [], _, _, _, _, hs, _ => by simp [plantAll] at hs
  | tree :: trees, around, id, start, hlt, hs, hp => by
    rw [plantAll] at hs
    by_cases hi : i < tree.nodeCount
    · rw [List.getElem?_append_left (by rw [length_plant]; exact hi)] at hs
      exact parent_lt_of_plant hlt hs hp
    · rw [List.getElem?_append_right (by rw [length_plant]; omega), length_plant] at hs
      have hq : ∀ q, around.parent = some q → q < id + tree.nodeCount := fun q hq =>
        Nat.lt_of_lt_of_le (hlt q hq) (Nat.le_add_right id tree.nodeCount)
      have hbound : p < id + tree.nodeCount + (i - tree.nodeCount) := by
        refine parent_lt_of_plantAll ?_ hs hp
        exact hq
      omega

end

/-- No step up or down the tree breaks the rule that a node comes before what it holds. -/
def Straight (t : SymbolTree) : Prop :=
  ∀ id s, t.symbol? id = some s → t.parent? id = s.parent ∧ t.children id = s.children

/-- Whether parents come first is seen in the outline. -/
theorem Straight.congr {t' : SymbolTree} (h : t.Straight) (houtline : t'.outline = t.outline) :
    t'.Straight := by
  intro id s hs
  have hid := symbol?_congr houtline id
  rw [hs] at hid
  cases ht : t.symbol? id with
  | none =>
      rw [ht] at hid
      cases hid
  | some v =>
      rw [ht] at hid
      cases hid with
      | some hbare =>
          obtain ⟨hparent, hchildren⟩ := h id v ht
          rw [parent?_congr houtline, children_congr houtline, hparent, hchildren]
          exact ⟨(congrArg Symbol.parent hbare).symm, (congrArg Symbol.children hbare).symm⟩

/-- Attaching a child to its parent keeps parents first. -/
theorem Straight.attach {parent child : NodeId} (h : t.Straight)
    (hparent : t.parent? child = some parent) : (t.attach parent child).Straight := by
  intro id s hs
  rw [SymbolTree.attach, symbol?_modify] at hs
  obtain ⟨v, hv, rfl⟩ := Option.map_eq_some_iff.1 hs
  obtain ⟨hp, hc⟩ := h id v hv
  rw [parent?_stems (stems_attach t parent child), children_attach hparent, hp, hc]
  split <;> exact ⟨rfl, rfl⟩

/-- In a planted tree parents come first. -/
theorem straight_planted (file generation : Nat) (m : LineMap) (tree : SyntaxTree) :
    (planted file generation m tree).Straight := by
  intro id s hs
  obtain ⟨parent, context, site, heq⟩ := exists_ofSite_of_symbol?_planted hs
  refine ⟨?_, ?_⟩
  · rw [parent?, hs, Option.bind_some]
    cases hp : s.parent with
    | none => rfl
    | some p =>
        rw [symbol?, planted, List.getElem?_toArray] at hs
        have hlt := parent_lt_of_plant (fun q hq => by cases hq) hs hp
        rw [Nat.zero_add] at hlt
        exact Option.filter_some_pos (decide_eq_true hlt)
  · rw [children, hs, heq]
    rfl

/-- In a tree that has grown parents come first. -/
theorem straight_grow (maxDepth file generation : Nat) (m : LineMap) (tree : SyntaxTree) :
    (grow maxDepth file generation m tree).Straight := by
  have hfold : ∀ (order : List NodeId) (g : Growth), g.tree.Straight →
      (order.foldl (Growth.settle maxDepth) g).tree.Straight := by
    intro order
    induction order with
    | nil => exact fun _ h => h
    | cons id order ih =>
        intro g h
        refine ih _ ?_
        have haccept := h.congr (Growth.outline_accept maxDepth g id)
        simp only [Growth.settle]
        split
        · rename_i q hq
          exact haccept.attach hq
        · exact haccept
  exact hfold _ _ (straight_planted file generation m tree)

/-- Each node is listed once by the node around it and nowhere else. -/
theorem count_children_grow (maxDepth file generation : Nat) (m : LineMap) (tree : SyntaxTree)
    (id c : NodeId) : ((grow maxDepth file generation m tree).children id).count c =
      if (grow maxDepth file generation m tree).parent? c = some id then 1 else 0 := by
  have hstage := stage_grow maxDepth file generation m tree
  rw [hstage.children, parent?_stems hstage.stems]
  by_cases hp : (planted file generation m tree).parent? c = some id
  · have hmem : c ∈ settlingOrder 0 tree :=
      mem_settlingOrder_planted.2 (lt_size_of_mem_ancestors (mem_ancestors_of_parent hp))
    rw [if_pos hp, List.count_filter (p := fun c => (planted file generation m tree).parent? c ==
      some id) (beq_iff_eq.2 hp), List.count_eq_one_of_mem (nodup_settlingOrder 0 tree) hmem]
  · rw [if_neg hp]
    exact List.count_eq_zero.2 fun hmem => hp (eq_of_beq (List.mem_filter.1 hmem).2)

/-! ## The whole tree -/

/-- The symbols of a tree mirror a text. -/
structure MirrorsText (t : SymbolTree) (text : String) : Prop where
  /-- The symbols stand for the nodes of the syntax tree, each before what it holds. -/
  preorder : List.Forall₂ (Symbol.StandsFor (.ofText text)) t.nodes.toList
    (descendTree none 0 (parse text).tree)
  /-- They stand in each other as the nodes do. -/
  laid : t.Laid none 0 (parse text).tree
  /-- The first one is the root. -/
  root : ∃ s, t.symbol? root = some s ∧ s.kind = .sourceUnit ∧ s.parent = none
  /-- Each of the others has a parent in front of it. -/
  parent : ∀ id s, t.symbol? id = some s → id ≠ SymbolTree.root → ∃ p, s.parent = some p ∧ p < id
  /-- A node is listed once, by its parent, and nowhere else. -/
  listed : ∀ id s c, t.symbol? id = some s →
    s.children.count c = if (t.symbol? c).bind Symbol.parent = some id then 1 else 0
  /-- Children are listed in the order of the text. -/
  ascending : ∀ id s, t.symbol? id = some s → s.children.Pairwise (· < ·)
  /-- A node holds its children. -/
  inside : ∀ id s c v, t.symbol? id = some s → t.symbol? c = some v → c ∈ s.children →
    v.range.isWithin s.range = true
  /-- A child ends before the next one starts. -/
  apart : ∀ id s, t.symbol? id = some s → s.children.Pairwise fun b c => ∀ v w,
    t.symbol? b = some v → t.symbol? c = some w → v.range.stop ≤ w.range.start
  /-- There is a name where there is a place of the name. -/
  named : ∀ id s, t.symbol? id = some s → s.name.isSome = (s.label.map Label.range).isSome
  /-- The place of the name is inside the node, and the name is what stands there. -/
  label : ∀ id s l, t.symbol? id = some s → s.label = some l →
    l.range.isWithin s.range = true ∧ ∀ piece, StandsAt text piece l.range ↔ piece = l.text

/-- Nodes keep their sites as long as their stems stay. -/
theorem forall₂_standsFor_of_stems {m : LineMap} {nodes planted : List Symbol} {sites : List Site}
    (h : List.Forall₂ (Symbol.StandsFor m) planted sites)
    (hstems : nodes.map Symbol.stem = planted.map Symbol.stem) :
    List.Forall₂ (Symbol.StandsFor m) nodes sites := by
  induction h generalizing nodes with
  | nil =>
      rw [List.map_nil, List.map_eq_nil_iff] at hstems
      rw [hstems]
      exact .nil
  | cons hstands _ ih =>
      rw [List.map_cons, List.map_eq_cons_iff] at hstems
      obtain ⟨s, rest, rfl, hs, hrest⟩ := hstems
      exact .cons (hstands.of_stem hs) (ih hrest)

/-- The symbols of a text stand for the nodes of its tree. -/
theorem preorder_grow (maxDepth file generation : Nat) (m : LineMap) (tree : SyntaxTree) :
    List.Forall₂ (Symbol.StandsFor m) (grow maxDepth file generation m tree).nodes.toList
      (descendTree none 0 tree) := by
  refine forall₂_standsFor_of_stems (forall₂_plant m ⟨none, none, none⟩ 0 0 tree) ?_
  have hstems := congrArg Array.toList (stage_grow maxDepth file generation m tree).stems
  simpa [stems, planted] using hstems

mutual

theorem Laid.congr {p : SymbolTree} (hkind : t.kind? = p.kind?) (hparent : t.parent? = p.parent?)
    {outer : Option NodeId} {id : Nat} : {tree : SyntaxTree} → p.Laid outer id tree →
    t.Laid outer id tree
  | .leaf _ _, _ => trivial
  | .node _ _, h => ⟨by rw [hkind, h.1], by rw [hparent, h.2.1], h.2.2.congr hkind hparent⟩

/-- Rows with the same kinds and parents are laid out alike. -/
theorem LaidAll.congr {p : SymbolTree} (hkind : t.kind? = p.kind?)
    (hparent : t.parent? = p.parent?) {outer : Option NodeId} {id : Nat} :
    {trees : List SyntaxTree} → p.LaidAll outer id trees → t.LaidAll outer id trees
  | [], _ => trivial
  | _ :: _, h => ⟨h.1.congr hkind hparent, h.2.congr hkind hparent⟩

end

section Text

variable {text : String}

/-- Each symbol is for the node with its number. -/
theorem exists_site {m : LineMap} {sites : List Site}
    (h : List.Forall₂ (Symbol.StandsFor m) t.nodes.toList sites) {id : NodeId} {s : Symbol}
    (hs : t.symbol? id = some s) : ∃ site, sites[id]? = some site ∧ s.StandsFor m site := by
  have hrel := List.Forall₂.getElem?_rel h id
  rw [symbol?, ← Array.getElem?_toList] at hs
  rw [hs] at hrel
  generalize sites[id]? = found at hrel
  cases hrel with
  | some hstands => exact ⟨_, rfl, hstands⟩

/-- The text of a node stands at the place of the node. -/
theorem startsAt_of_site {id : Nat} {site : Site}
    (h : (descendTree none 0 (parse text).tree)[id]? = some site) :
    StartsAt text (SyntaxTree.textOf site.children) site.start := by
  refine Site.startsAt_of_mem_descendTree ?_ (List.mem_of_getElem? h)
  rw [text_parse]
  exact startsAt_self text

/-- A node starts at an offset of the text. -/
theorem isOffset_start_of_site {id : Nat} {site : Site}
    (h : (descendTree none 0 (parse text).tree)[id]? = some site) : IsOffset text site.start :=
  (startsAt_of_site h).isOffset

/-- A node ends at an offset of the text. -/
theorem isOffset_stop_of_site {id : Nat} {site : Site}
    (h : (descendTree none 0 (parse text).tree)[id]? = some site) : IsOffset text site.stop := by
  have hstop := (startsAt_of_site h).isOffset_stop
  rwa [SyntaxTree.utf8ByteSize_textOf] at hstop

/-- The name of a node stands in the node, and it is what stands there. -/
theorem standsAt_label {id : Nat} {site : Site} {s : Symbol} {l : Label}
    (hsite : (descendTree none 0 (parse text).tree)[id]? = some site)
    (hs : s.StandsFor (.ofText text) site) (hl : s.label = some l) :
    l.range.isWithin s.range = true ∧ StandsAt text l.text l.range := by
  rw [hs.label] at hl
  obtain ⟨token, htoken, rfl⟩ := Option.map_eq_some_iff.1 hl
  have hmem := mem_tokens_of_nameToken? htoken
  have hstarts := Site.startsAt_of_mem_tokensAt (startsAt_of_site hsite) hmem
  refine ⟨?_, token.start, hstarts, rfl⟩
  rw [hs.range]
  exact (LineMap.isWithin_span hstarts.isOffset hstarts.isOffset_stop
    (isOffset_start_of_site hsite) (isOffset_stop_of_site hsite)).2 (Site.within_of_mem_tokensAt hmem)

end Text

/-- **The symbols of a text mirror it.** -/
theorem mirrorsText_grow (maxDepth file generation : Nat) (text : String) :
    (grow maxDepth file generation (.ofText text) (parse text).tree).MirrorsText text := by
  have hstage := stage_grow maxDepth file generation (.ofText text) (parse text).tree
  have hpreorder := preorder_grow maxDepth file generation (.ofText text) (parse text).tree
  have hstraight := straight_grow maxDepth file generation (.ofText text) (parse text).tree
  have hcount := count_children_grow maxDepth file generation (.ofText text) (parse text).tree
  have hascending := pairwise_children_grow maxDepth file generation (.ofText text) (parse text).tree
  have hlaid := (laid_planted file generation (.ofText text) (parse text).tree).congr
    (kind?_stems hstage.stems) (parent?_stems hstage.stems)
  have hrooted := (rooted_planted file generation (.ofText text) text).congr hstage.stems
  generalize grow maxDepth file generation (.ofText text) (parse text).tree = t at *
  have hparent : ∀ c, (t.symbol? c).bind Symbol.parent = t.parent? c := by
    intro c
    cases hs : t.symbol? c with
    | none => rw [parent?, hs]; rfl
    | some s => rw [(hstraight c s hs).1]; rfl
  have hchild : ∀ id s c, t.symbol? id = some s → (c ∈ s.children ↔ t.parent? c = some id) := by
    intro id s c hs
    rw [← (hstraight id s hs).2, ← List.count_pos_iff, hcount]
    split <;> simp_all
  refine ⟨hpreorder, hlaid, ?_, ?_, ?_, ?_, ?_, ?_, ?_, ?_⟩
  · obtain ⟨s, hs, hk⟩ := Option.map_eq_some_iff.1 hrooted.kind
    refine ⟨s, hs, hk, ?_⟩
    rw [← (hstraight root s hs).1]
    exact parent?_root t
  · intro id s hs hne
    obtain ⟨p, hp, -⟩ := mem_ancestors_iff.1 (hrooted.around id (lt_size_of_symbol? hs) hne)
    exact ⟨p, by rw [← (hstraight id s hs).1, hp], parent?_lt hp⟩
  · intro id s c hs
    rw [← (hstraight id s hs).2, hcount, hparent]
  · intro id s hs
    rw [← (hstraight id s hs).2]
    exact hascending id
  · intro id s c v hs hv hc
    obtain ⟨site, hsite, hstands⟩ := exists_site hpreorder hs
    obtain ⟨site', hsite', hstands'⟩ := exists_site hpreorder hv
    have hholds := hlaid.holds (fun p hp => by cases hp) hsite' hsite
      (by rw [Nat.zero_add, Nat.zero_add]; exact (hchild id s c hs).1 hc)
    rw [hstands.range, hstands'.range, LineMap.isWithin_span (isOffset_start_of_site hsite')
      (isOffset_stop_of_site hsite') (isOffset_start_of_site hsite) (isOffset_stop_of_site hsite)]
    exact hholds
  · intro id s hs
    rw [← (hstraight id s hs).2]
    refine (hascending id).imp_of_mem fun {b c} hb hc hlt v w hv hw => ?_
    rw [(hstraight id s hs).2, hchild id s _ hs] at hb hc
    obtain ⟨site, hsite, hstands⟩ := exists_site hpreorder hv
    obtain ⟨site', hsite', hstands'⟩ := exists_site hpreorder hw
    have hnot : b ∉ t.ancestors c := by
      rw [ancestors_of_parent t hc, List.mem_cons, not_or]
      exact ⟨Nat.ne_of_gt (parent?_lt hb),
        fun hmem => Nat.lt_asymm (parent?_lt hb) (lt_of_mem_ancestors hmem)⟩
    have hapart := hlaid.apart hsite hsite' hlt (by rwa [Nat.zero_add, Nat.zero_add])
    rw [hstands.range, hstands'.range]
    exact (LineMap.position_le_iff (isOffset_stop_of_site hsite)
      (isOffset_start_of_site hsite')).2 hapart
  · intro id s _
    rw [Symbol.name, Option.isSome_map, Option.isSome_map]
  · intro id s l hs hl
    obtain ⟨site, hsite, hstands⟩ := exists_site hpreorder hs
    obtain ⟨hwithin, hstandsAt⟩ := standsAt_label hsite hstands hl
    exact ⟨hwithin, fun piece => ⟨fun h => h.unique hstandsAt, fun h => h ▸ hstandsAt⟩⟩

end SymbolTree

end SolidityAtlas

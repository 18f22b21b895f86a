import SolidityAtlas.Proofs.Symbol.Accounted

/-!
# Links from outside are taken back without a trace

A use that waits for its declaration is pending, is not linked from outside and is bound to
nothing (`SymbolTree.Awaits`). To link it and to take the link back leaves its symbol as it
was, and among the pending uses it gets back to its place because these are put in the order
of the text. So if all links from outside are to be taken back in the end, it makes no
difference whether such a use is linked first (`SymbolTree.unlinkExternal_linkExternal`), and
the same goes for many of them, in whatever order they are linked.

A tree that had no links from outside, and whose pending uses were in order, is then what it
was before. Every text that has been read is such a tree once its pending uses have been put
in order (`SymbolTree.AccountedBut.atRest_unlinkExternal`).

## Main Definitions

* `SymbolTree.Awaits`: a use waits for its declaration
* `SymbolTree.linkAllExternal`: the tree with uses linked from outside, one after the other
* `SymbolTree.AtRest`: no link comes from outside, and the pending uses are in order

## Main Results

* `SymbolTree.unlinkExternal_linkAllExternal`: links that are made and taken back
* `SymbolTree.takeBackExternal_linkAllExternal`
-/

namespace SolidityAtlas

/-! ## Symbols -/

/-- The symbol has neither a type nor a declaration. -/
structure Symbol.Unbound (s : Symbol) : Prop where
  declaredType : s.declaredType = []
  declaration : s.declaration = none

/-- A use without a declaration is what it was when it is linked and unlinked. -/
theorem Symbol.Unbound.unlink_linkTo {s : Symbol} (h : s.Unbound) (d : Handle) :
    (s.linkTo d).unlink = s := by
  have hunlink : (s.linkTo d).unlink =
      { s with declaration := none, declaredType := (s.declaredType ++ [d]).filter (· != d) } := rfl
  have hfilter : ([] ++ [d]).filter (· != d) = [] := by simp
  rw [hunlink, h.declaredType, hfilter, ← h.declaredType, ← h.declaration]

namespace SymbolTree

variable {t : SymbolTree} {usage other : NodeId} {d : Handle}

/-! ## One link -/

/-- A use waits for its declaration. -/
structure Awaits (t : SymbolTree) (usage : NodeId) : Prop where
  pending : usage ∈ t.pending
  inside : usage ∉ t.external
  unbound : ∀ s, t.symbol? usage = some s → s.Unbound

/-- A use waits still when another one is linked. -/
theorem Awaits.linkExternal (h : t.Awaits usage) (hne : usage ≠ other) :
    (t.linkExternal other d).Awaits usage := by
  refine ⟨(List.mem_erase_of_ne hne).2 h.pending, fun hmem => ?_, fun s hs => ?_⟩
  · exact (mem_appendNew.1 hmem).elim h.inside hne
  · obtain ⟨s, hs', rfl⟩ := Option.map_eq_some_iff.1 ((t.symbol?_linkExternal other d _).symm.trans hs)
    rw [if_neg hne]
    exact h.unbound s hs'

/-- Before all links from outside are taken back a use that waits can be linked as well. -/
theorem unlinkExternal_linkExternal (hnodup : t.pending.Nodup) (h : t.Awaits usage) :
    (t.linkExternal usage d).unlinkExternal = t.unlinkExternal := by
  have hmem : ∀ id, id ∈ (t.linkExternal usage d).external ↔ id ∈ t.external ∨ id = usage :=
    fun _ => mem_appendNew
  have hnodes : (t.linkExternal usage d).unlinkExternal.nodes = t.unlinkExternal.nodes := by
    refine Array.ext_getElem? fun id => ?_
    show (t.linkExternal usage d).unlinkExternal.symbol? id = t.unlinkExternal.symbol? id
    rw [symbol?_unlinkExternal, symbol?_linkExternal, symbol?_unlinkExternal, Option.map_map]
    refine Option.map_congr fun s hs => ?_
    by_cases heq : id = usage
    · subst heq
      rw [Function.comp_apply, if_pos rfl, if_pos ((hmem id).2 (.inr rfl)), if_neg h.inside,
        (h.unbound s hs).unlink_linkTo]
    · simp only [Function.comp_apply, if_neg heq, hmem, or_iff_left heq]
  have hpending : (t.linkExternal usage d).unlinkExternal.pending = t.unlinkExternal.pending := by
    refine pending_unlinkExternal_congr (hnodup.erase usage) hnodup fun id => ?_
    rw [hmem, pending_linkExternal]
    by_cases heq : id = usage
    · exact iff_of_true (.inr (.inr heq)) (.inl (heq ▸ h.pending))
    · rw [List.mem_erase_of_ne heq, or_iff_left heq]
  exact congrArg₂ (fun nodes pending => { t.unlinkExternal with nodes := nodes, pending := pending })
    hnodes hpending

/-! ## Many links -/

/-- The tree with uses linked from outside, one after the other. -/
def linkAllExternal (t : SymbolTree) (links : List (NodeId × Handle)) : SymbolTree :=
  links.foldl (fun t l => t.linkExternal l.1 l.2) t

/-- Before all links from outside are taken back, uses that wait can be linked in any order. -/
theorem unlinkExternal_linkAllExternal {links : List (NodeId × Handle)} (hnodup : t.pending.Nodup)
    (hdistinct : (links.map Prod.fst).Nodup) (h : ∀ l ∈ links, t.Awaits l.1) :
    (t.linkAllExternal links).unlinkExternal = t.unlinkExternal := by
  induction links generalizing t with
  | nil => rfl
  | cons l links ih =>
      obtain ⟨hfirst, hdistinct⟩ := List.nodup_cons.1 hdistinct
      obtain ⟨hl, hlinks⟩ := List.forall_mem_cons.1 h
      have hothers : ∀ l' ∈ links, (t.linkExternal l.1 l.2).Awaits l'.1 := fun l' hl' =>
        (hlinks l' hl').linkExternal fun heq => hfirst (heq ▸ List.mem_map_of_mem hl')
      calc ((t.linkExternal l.1 l.2).linkAllExternal links).unlinkExternal
          = (t.linkExternal l.1 l.2).unlinkExternal := ih (hnodup.erase l.1) hdistinct hothers
        _ = t.unlinkExternal := unlinkExternal_linkExternal hnodup hl

/-- Each use that is linked from outside is on record. -/
theorem external_linkAllExternal {links : List (NodeId × Handle)}
    (hdistinct : (t.external ++ links.map Prod.fst).Nodup) :
    (t.linkAllExternal links).external = t.external ++ links.map Prod.fst := by
  induction links generalizing t with
  | nil => exact (List.append_nil _).symm
  | cons l links ih =>
      have hnew : l.1 ∉ t.external := fun hmem =>
        (List.nodup_append.1 hdistinct).2.2 l.1 hmem l.1 List.mem_cons_self rfl
      have hfirst : (t.linkExternal l.1 l.2).external = t.external ++ [l.1] :=
        if_neg fun hcontains => hnew (List.contains_iff_mem.1 hcontains)
      have hsplit : t.external ++ (l :: links).map Prod.fst =
          (t.linkExternal l.1 l.2).external ++ links.map Prod.fst := by
        rw [hfirst, List.append_assoc]
        rfl
      rw [hsplit] at hdistinct ⊢
      exact ih hdistinct

/-! ## Trees at rest -/

/-- No link comes from outside, and the pending uses are in the order of the text and bound to
nothing. -/
structure AtRest (t : SymbolTree) : Prop where
  external : t.external = []
  inOrder : t.pending.Pairwise (· < ·)
  unbound : ∀ usage ∈ t.pending, ∀ s, t.symbol? usage = some s → s.Unbound

/-- What has been read from a text is at rest when its links from outside have been taken back. -/
theorem AccountedBut.atRest_unlinkExternal (h : t.AccountedBut fun _ => False) :
    t.unlinkExternal.AtRest :=
  ⟨rfl, t.pairwise_pending_unlinkExternal h.nodup, fun _ husage _ hs =>
    have ⟨_, _, hdeclaration, htype⟩ := h.unlinkExternal.of_mem_pending husage hs
    ⟨htype, hdeclaration⟩⟩

namespace AtRest

variable (h : t.AtRest)

include h

/-- A pending use of an accounted tree awaits its link. -/
theorem awaits (husage : usage ∈ t.pending) : t.Awaits usage :=
  ⟨husage, by rw [h.external]; exact List.not_mem_nil, h.unbound usage husage⟩

/-- Nothing is taken back from a tree without external links. -/
theorem unlinkExternal_eq_self : t.unlinkExternal = t := by
  have hpending : ascending t.pending = t.pending :=
    ascending_eq_self (h.inOrder.imp Nat.le_of_lt)
  rw [unlinkExternal, h.external, List.foldl_nil, List.foldl_nil, hpending, ← h.external]

end AtRest

/-- Whatever pending uses are linked, to whatever declarations and in whatever order: when the links
from outside are taken back, these are as many as were made, and the tree is what it was before. Then
there is nothing more to take back. -/
theorem takeBackExternal_linkAllExternal {links : List (NodeId × Handle)} (h : t.AtRest)
    (hdistinct : (links.map Prod.fst).Nodup) (hpending : ∀ l ∈ links, l.1 ∈ t.pending) :
    (t.linkAllExternal links).takeBackExternal = (links.length, t) ∧
      (t.linkAllExternal links).takeBackExternal.2.takeBackExternal = (0, t) := by
  have hunlink : (t.linkAllExternal links).unlinkExternal = t :=
    (unlinkExternal_linkAllExternal (h.inOrder.imp Nat.ne_of_lt) hdistinct fun l hl =>
      h.awaits (hpending l hl)).trans h.unlinkExternal_eq_self
  have hexternal : (t.linkAllExternal links).external = links.map Prod.fst := by
    rw [external_linkAllExternal (by rw [h.external]; exact hdistinct), h.external, List.nil_append]
  refine ⟨?_, ?_⟩
  · rw [takeBackExternal, hunlink, hexternal, List.length_map]
  · rw [takeBackExternal, takeBackExternal, hunlink, h.external, h.unlinkExternal_eq_self,
      List.length_nil]

/-- Two calls of functions that are not declared in the file. -/
def twoCalls : SymbolTree :=
  (grow defaultMaxDepth 0 1 (.ofText "") (parse
    "contract C \x7b function f() public \x7b g(); h(); \x7d \x7d").tree).unlinkExternal

/-- Two calls are linked into other files, and the links are taken back. -/
theorem takeBackExternal_twoCalls :
    let links : List (NodeId × Handle) := [(11, ⟨7, 3, 2⟩), (7, ⟨8, 4, 0⟩)]
    twoCalls.AtRest ∧ (links.map Prod.fst).Nodup ∧ (∀ l ∈ links, l.1 ∈ twoCalls.pending) ∧
    (twoCalls.linkAllExternal links).takeBackExternal = (2, twoCalls) ∧
      (twoCalls.linkAllExternal links).takeBackExternal.2.takeBackExternal = (0, twoCalls) := by
  intro links
  have hrest : twoCalls.AtRest := (accountedBut_grow _ _ _ _ _).atRest_unlinkExternal
  have hdistinct : (links.map Prod.fst).Nodup := by decide
  have hpending : ∀ l ∈ links, l.1 ∈ twoCalls.pending := by decide +kernel
  exact ⟨hrest, hdistinct, hpending, takeBackExternal_linkAllExternal hrest hdistinct hpending⟩

end SymbolTree

end SolidityAtlas

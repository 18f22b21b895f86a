import SolidityAtlas.Proofs.Symbol.Links

/-!
# What settling a node does

All that dealing with a node does is said once (`Growth.accept_cases`), and for each part
of it which uses it links, for which reason, and which it leaves pending:

* a declaration links the uses that it claims (`Growth.links_claim`),
* a contract links the names of its bases (`links_closeBases`) and, if none is missing or
  at the end of the file, the other uses inside it (`links_closeUses`),
* at the end of the file accesses and dotted types are linked (`links_connectMembers`).

## Main Definitions

* `Growth.Claims`: a declaration takes a pending use
* `Growth.CloseReason`: why a contract links a use inside it

## Main Results

* `Growth.accept_cases`
* `SymbolTree.meantAround?_of_left_closeBases`, `SymbolTree.meantAround?_of_left_closeUses`,
  `Growth.meantAround?_of_left_closeWaiting`: what is left pending
-/

namespace SolidityAtlas

namespace SymbolTree

variable {t t' : SymbolTree} {maxDepth : Nat}

/-! ## Searches and outlines -/

/-- What does not depend on links is read off the outline. -/
theorem any_symbol?_congr (h : t.outline = t'.outline) (id : NodeId) {p q : Symbol → Bool}
    (hpq : ∀ s v : Symbol, s.bare = v.bare → p s = q v) :
    (t.symbol? id).any p = (t'.symbol? id).any q :=
  (symbol?_congr h id).any_eq hpq

/-- What a use means in a scope is read off the outline. -/
theorem meantAt?_congr (h : t.outline = t'.outline) {s v : Symbol} (hsv : s.bare = v.bare)
    (outer : NodeId) : t.meantAt? s outer = t'.meantAt? v outer := by
  have hmember : (fun m => (t.symbol? m).any (·.accepts s)) =
      fun m => (t'.symbol? m).any (·.accepts v) := by
    funext m
    exact any_symbol?_congr h m fun _ _ hdc => Symbol.accepts_congr hdc hsv
  rw [meantAt?, meantAt?, memberAccepting?, memberAccepting?, members_congr h, hmember,
    any_symbol?_congr h outer fun _ _ hdc => Symbol.accepts_congr hdc hsv]

/-- What a use means around itself is read off the outline. -/
theorem meantAround?_congr (h : t.outline = t'.outline) {s v : Symbol} (hsv : s.bare = v.bare)
    (id : NodeId) : t.meantAround? s id = t'.meantAround? v id := by
  have hmeant : t.meantAt? s = t'.meantAt? v := funext (meantAt?_congr h hsv)
  rw [meantAround?, meantAround?, ancestors_congr h, hmeant]

/-- Trees with one outline have the same nodes, links aside. -/
theorem symbol?_of_outline (h : t.outline = t'.outline) {id : NodeId} {s : Symbol}
    (hs : t.symbol? id = some s) : ∃ v, t'.symbol? id = some v ∧ s.bare = v.bare :=
  (symbol?_congr h id).exists_right hs

/-- The uses inside a node that are pending by name. -/
theorem mem_pendingByName {u outer : NodeId} : u ∈ t.pendingByName outer ↔
    u ∈ t.pending ∧ outer ∈ t.ancestors u ∧ ∃ s, t.symbol? u = some s ∧ s.isByName = true := by
  rw [pendingByName, List.mem_filter, Bool.and_eq_true, isInside_iff, Option.any_eq_true]

theorem nodup_pendingByName (hnodup : t.pending.Nodup) (outer : NodeId) (p : NodeId → Bool) :
    ((t.pendingByName outer).filter p).Nodup :=
  hnodup.sublist (List.filter_sublist.trans List.filter_sublist)

theorem mem_pending_of_mem_filter {outer : NodeId} {p : NodeId → Bool} {v : NodeId}
    (hv : v ∈ (t.pendingByName outer).filter p) : v ∈ t.pending :=
  (mem_pendingByName.1 (List.mem_filter.1 hv).1).1

/-- What is meant at one of the nodes around a node is declared there. -/
theorem exists_of_meantAround? {s : Symbol} {id d : NodeId} (h : t.meantAround? s id = some d) :
    ∃ outer ∈ t.ancestors id, t.meantAt? s outer = some d :=
  List.exists_of_findSome?_eq_some h

/-- What is found nowhere around a node is not found in any scope there. -/
theorem meantAt?_eq_none_of_meantAround? {s : Symbol} {id outer : NodeId}
    (h : t.meantAround? s id = none) (houter : outer ∈ t.ancestors id) :
    t.meantAt? s outer = none :=
  List.findSome?_eq_none_iff.1 h outer houter

/-- What a use can refer to at one node is that node or belongs to it, and is a declaration of the
name. -/
theorem of_meantAt? {s : Symbol} {outer d : NodeId} (h : t.meantAt? s outer = some d) :
    (d = outer ∨ d ∈ t.members outer) ∧ ∃ x, t.symbol? d = some x ∧ x.accepts s = true := by
  unfold meantAt? at h
  split at h
  · rename_i hany
    cases h
    exact ⟨.inl rfl, (Option.any_eq_true _ _).1 hany⟩
  · rw [memberAccepting?] at h
    have haccepts := List.find?_some h
    exact ⟨.inr (List.mem_of_find?_eq_some h), (Option.any_eq_true _ _).1 haccepts⟩

/-- If nothing can be meant at a node, neither it nor what belongs to it is a declaration of the
name. -/
theorem not_accepts_of_meantAt? {s x : Symbol} {outer d : NodeId} (h : t.meantAt? s outer = none)
    (hd : d = outer ∨ d ∈ t.members outer) (hx : t.symbol? d = some x) : x.accepts s = false := by
  unfold meantAt? at h
  split at h
  · cases h
  · rename_i hany
    rcases hd with rfl | hd
    · rw [hx] at hany
      exact Bool.eq_false_iff.2 hany
    · have hnot := List.find?_eq_none.1 h d hd
      rw [hx] at hnot
      exact Bool.eq_false_iff.2 hnot

/-! ## Contracts -/

/-- The node of what a use inside a contract can refer to in the bases of the contract. -/
def inheritedNode? (maxDepth : Nat) (c : NodeId) (t : SymbolTree) (u : Symbol) : Option NodeId :=
  (t.alone.inherited? maxDepth (t.handle c) u).map Handle.node

/-- The uses inside a contract that do not name its bases. -/
def usesIn (t : SymbolTree) (c : NodeId) : List NodeId :=
  (t.pendingByName c).filter (! t.isBaseName ·)

/-- A contract that is closed tries the pending names inside it, but not the names of bases. -/
theorem mem_usesIn {u c : NodeId} : u ∈ t.usesIn c ↔ u ∈ t.pending ∧ c ∈ t.ancestors u ∧
    (∃ s, t.symbol? u = some s ∧ s.isByName = true) ∧ t.isBaseName u = false := by
  rw [usesIn, List.mem_filter, mem_pendingByName, and_assoc, and_assoc, Bool.not_eq_true']

theorem nodup_usesIn (hnodup : t.pending.Nodup) (c : NodeId) : (t.usesIn c).Nodup :=
  nodup_pendingByName hnodup c _

/-- What is known of these uses when some links have been made. -/
theorem usesIn_of_outline (h : t'.outline = t.outline) {u c : NodeId} {s : Symbol}
    (hs : t'.symbol? u = some s) (hu : u ∈ t.usesIn c) :
    c ∈ t'.ancestors u ∧ s.isByName = true ∧ t'.isBaseName u = false := by
  obtain ⟨-, hin, ⟨v, hv, hname⟩, hbase⟩ := mem_usesIn.1 hu
  obtain ⟨v', hv', hbare⟩ := symbol?_of_outline h.symm hv
  obtain rfl : v' = s := Option.some.inj (hv'.symm.trans hs)
  refine ⟨?_, ?_, ?_⟩
  · rw [ancestors_congr h]
    exact hin
  · rw [← Symbol.isByName_congr hbare]
    exact hname
  · rw [isBaseName_congr h]
    exact hbase

/-- The names of bases of a contract that can be linked are linked to what is declared around it. -/
theorem links_closeBases (hnodup : t.pending.Nodup) (c : NodeId) :
    Links (fun t u s h => c ∈ t.ancestors u ∧ s.isByName = true ∧ t.isBaseName u = true ∧
      ∃ d, t.meantAround? s c = some d ∧ h = t.handle d) t (Growth.closeBases c t).1 := by
  refine (links_connectFound (fun t u => t.meantAround? u c) (nodup_pendingByName hnodup c _)
    fun v hv => mem_pending_of_mem_filter hv).mono ?_
  intro t' u s h hlinks hu hs ⟨hmem, hfound⟩
  obtain ⟨hmem, hbase⟩ := List.mem_filter.1 hmem
  obtain ⟨-, hin, v, hv, hname⟩ := mem_pendingByName.1 hmem
  obtain ⟨v', hv', hbare⟩ := symbol?_of_outline hlinks.outline_eq.symm hv
  obtain rfl : v' = s := Option.some.inj (hv'.symm.trans hs)
  refine ⟨?_, ?_, ?_, hfound⟩
  · rw [ancestors_congr hlinks.outline_eq]
    exact hin
  · rw [← Symbol.isByName_congr hbare]
    exact hname
  · rw [isBaseName_congr hlinks.outline_eq]
    exact hbase

/-- A name of a base that is still pending names nothing declared around the contract, and the
contract is not complete. -/
theorem meantAround?_of_left_closeBases (hnodup : t.pending.Nodup) {c v : NodeId} {s : Symbol}
    (hv : v ∈ (Growth.closeBases c t).1.pending) (hs : t.symbol? v = some s)
    (hin : c ∈ t.ancestors v) (hname : s.isByName = true) (hbase : t.isBaseName v = true) :
    t.meantAround? s c = none ∧ (Growth.closeBases c t).2 = false := by
  have hpending := (links_closeBases hnodup c).mem_pending_of_mem hv
  have huse : v ∈ (t.pendingByName c).filter t.isBaseName :=
    List.mem_filter.2 ⟨mem_pendingByName.2 ⟨hpending, hin, s, hs, hname⟩, hbase⟩
  have hleft := mem_left_of_mem_pending (fun t u => t.meantAround? u c) hnodup huse hv
  obtain ⟨-, t', hlinks, -, -, hnone⟩ := exists_of_mem_left (fun t u => t.meantAround? u c)
    (nodup_pendingByName hnodup c _) (fun v hv => mem_pending_of_mem_filter hv) hleft
  obtain ⟨s', hs', hbare⟩ := symbol?_of_outline hlinks.outline_eq.symm hs
  refine ⟨?_, ?_⟩
  · rw [meantAround?_congr hlinks.outline_eq.symm hbare]
    exact hnone s' hs'
  · rw [Growth.closeBases]
    exact List.isEmpty_eq_false_iff.2 (List.ne_nil_of_mem hleft)

/-- The uses inside a contract that its bases declare, before those declared around it. -/
theorem links_inherited (hnodup : t.pending.Nodup) (maxDepth : Nat) (c : NodeId) :
    Links (fun t u s h => (c ∈ t.ancestors u ∧ s.isByName = true ∧ t.isBaseName u = false) ∧
      ∃ d, inheritedNode? maxDepth c t s = some d ∧ h = t.handle d) t
      (connectFound (inheritedNode? maxDepth c) t (t.usesIn c)).1 := by
  refine (links_connectFound _ (nodup_usesIn hnodup c) fun v hv => (mem_usesIn.1 hv).1).mono ?_
  intro t' u s h hlinks hu hs ⟨hmem, hfound⟩
  exact ⟨usesIn_of_outline hlinks.outline_eq hs hmem, hfound⟩

/-- Behind the uses that bases declare come those that are declared around the contract. -/
theorem links_around (hnodup : t.pending.Nodup) (maxDepth : Nat) (c : NodeId) :
    Links (fun t u s h => (c ∈ t.ancestors u ∧ s.isByName = true ∧ t.isBaseName u = false) ∧
      ∃ d, t.meantAround? s c = some d ∧ h = t.handle d)
      (connectFound (inheritedNode? maxDepth c) t (t.usesIn c)).1
      (Growth.closeUses maxDepth c t) := by
  have hfirst := links_inherited hnodup maxDepth c
  have huses := nodup_usesIn hnodup c
  refine (links_connectFound (fun t u => t.meantAround? u c)
    (huses.sublist (sublist_connectFound _ _ _)) (mem_pending_of_mem_connectFound
      (inheritedNode? maxDepth c) t huses fun v hv => (mem_usesIn.1 hv).1)).mono ?_
  intro t' u s h hlinks hu hs ⟨hmem, hfound⟩
  exact ⟨usesIn_of_outline (hlinks.outline_eq.trans hfirst.outline_eq) hs
    ((sublist_connectFound _ _ _).subset hmem), hfound⟩

/-- The uses inside a contract are linked to what its bases declare, or to what is declared around
it. -/
theorem links_closeUses (hnodup : t.pending.Nodup) (maxDepth : Nat) (c : NodeId) :
    Links (fun t u s h => (c ∈ t.ancestors u ∧ s.isByName = true ∧ t.isBaseName u = false) ∧
      ∃ d, (inheritedNode? maxDepth c t s = some d ∨ t.meantAround? s c = some d) ∧
        h = t.handle d) t (Growth.closeUses maxDepth c t) := by
  refine ((links_inherited hnodup maxDepth c).mono ?_).trans
    ((links_around hnodup maxDepth c).mono ?_)
  · rintro t' u s h - - - ⟨hin, d, hd, heq⟩
    exact ⟨hin, d, .inl hd, heq⟩
  · rintro t' u s h - - - ⟨hin, d, hd, heq⟩
    exact ⟨hin, d, .inr hd, heq⟩

/-- A use inside a contract that is still pending means nothing declared around the contract. -/
theorem meantAround?_of_left_closeUses (hnodup : t.pending.Nodup) {c v : NodeId} {s : Symbol}
    (hv : v ∈ (Growth.closeUses maxDepth c t).pending) (hs : t.symbol? v = some s)
    (hin : c ∈ t.ancestors v) (hname : s.isByName = true) (hbase : t.isBaseName v = false) :
    t.meantAround? s c = none := by
  have hfirst := links_inherited hnodup maxDepth c
  have huses := nodup_usesIn hnodup c
  have hsecond := links_around hnodup maxDepth c
  have hpending := hsecond.mem_pending_of_mem hv
  have huse : v ∈ t.usesIn c :=
    mem_usesIn.2 ⟨hfirst.mem_pending_of_mem hpending, hin, ⟨s, hs, hname⟩, hbase⟩
  have hleft := mem_left_of_mem_pending (inheritedNode? maxDepth c) hnodup huse hpending
  have hleft' := mem_left_of_mem_pending (fun t u => t.meantAround? u c)
    (hfirst.nodup_pending hnodup) hleft hv
  obtain ⟨-, t', hlinks, -, -, hnone⟩ := exists_of_mem_left (fun t u => t.meantAround? u c)
    (huses.sublist (sublist_connectFound _ _ _)) (mem_pending_of_mem_connectFound
      (inheritedNode? maxDepth c) t huses fun v hv => (mem_usesIn.1 hv).1) hleft'
  have houtline := hlinks.outline_eq.trans hfirst.outline_eq
  obtain ⟨s', hs', hbare⟩ := symbol?_of_outline houtline.symm hs
  rw [meantAround?_congr houtline.symm hbare]
  exact hnone s' hs'

/-! ## Accesses and dotted types -/

/-- What is looked up as a member is not looked up by its name alone. -/
theorem isByName_of_memberTarget? {usage : NodeId} {s : Symbol} {h : Handle}
    (hs : t.symbol? usage = some s) (htarget : t.memberTarget? maxDepth usage = some h) :
    s.isByName = false := by
  rw [memberTarget?, hs, Option.bind_some] at htarget
  rw [Symbol.isByName, Symbol.kind]
  split at htarget
  · rename_i hdetail
    simp [hdetail, Detail.kind]
  · split at htarget
    · rename_i hqualified
      simp [hqualified]
    · cases htarget
  · cases htarget

/-- Why an access or a dotted type is linked: it was found when the round began. -/
def MemberReason (maxDepth : Nat) (t : SymbolTree) (usage : NodeId) (s : Symbol) (h : Handle) :
    Prop :=
  s.isByName = false ∧ ∃ round : SymbolTree, round.outline = t.outline ∧ round.handle = t.handle ∧
    round.memberTarget? maxDepth usage = some h

/-- A round links what was found when it began. -/
theorem links_connectAll_targets (hnodup : t.pending.Nodup) (maxDepth : Nat) :
    Links (fun _ u s h => s.isByName = false ∧ t.memberTarget? maxDepth u = some h) t
      (t.connectAll (t.memberTargets maxDepth)) := by
  have hsub : ((t.memberTargets maxDepth).map (·.1)).Sublist t.pending := by
    refine List.map_fst_filterMap_sublist (fun a b hb => ?_) t.pending
    obtain ⟨d, -, rfl⟩ := Option.map_eq_some_iff.1 hb
    rfl
  have hfound : ∀ l ∈ t.memberTargets maxDepth, t.memberTarget? maxDepth l.1 = some l.2 := by
    intro l hl
    obtain ⟨u, -, hu⟩ := List.mem_filterMap.1 hl
    obtain ⟨d, hd, rfl⟩ := Option.map_eq_some_iff.1 hu
    exact hd
  suffices hsuffix : ∀ (links : List (NodeId × Handle)) (t' : SymbolTree),
      (links.map (·.1)).Nodup → (∀ v ∈ links.map (·.1), v ∈ t'.pending) →
      (∀ l ∈ links, t.memberTarget? maxDepth l.1 = some l.2) →
      Links (fun _ u s h => s.isByName = false ∧ t.memberTarget? maxDepth u = some h) t t' →
      Links (fun _ u s h => s.isByName = false ∧ t.memberTarget? maxDepth u = some h) t
        (t'.connectAll links) from
    hsuffix _ t (hnodup.sublist hsub) (fun v hv => hsub.subset hv) hfound .refl
  intro links
  induction links with
  | nil => exact fun _ _ _ _ h => h
  | cons l links ih =>
      intro t' hnodup hpending hfound h
      obtain ⟨husage, hnodup⟩ := List.nodup_cons.1 hnodup
      have htarget := hfound l List.mem_cons_self
      obtain ⟨s, hs, -⟩ := Option.bind_eq_some_iff.1 htarget
      obtain ⟨s', hs', hbare⟩ := symbol?_of_outline h.outline_eq.symm hs
      have hname : s'.isByName = false := by
        rw [← Symbol.isByName_congr hbare]
        exact isByName_of_memberTarget? hs htarget
      refine ih (t'.connect l.1 l.2) hnodup (fun v hv => ?_)
        (fun l hl => hfound l (List.mem_cons_of_mem _ hl))
        (.link h (hpending l.1 List.mem_cons_self) hs' ⟨hname, htarget⟩)
      refine mem_pending_connect (fun heq => husage ?_) (hpending v (List.mem_cons_of_mem _ hv))
      rw [heq] at hv
      exact hv

/-- What is linked in a row are accesses and dotted types, with the targets they were found to
have. -/
theorem links_connectAll (hnodup : t.pending.Nodup) (maxDepth : Nat) :
    Links (MemberReason maxDepth) t (t.connectAll (t.memberTargets maxDepth)) :=
  (links_connectAll_targets hnodup maxDepth).mono fun _ _ _ _ hlinks _ _ ⟨hname, htarget⟩ =>
    ⟨hname, t, hlinks.outline_eq.symm, hlinks.handle_eq.symm, htarget⟩

/-- Accesses and dotted types are linked in rounds, each of them to what it is found to mean. -/
theorem links_connectMembers (hnodup : t.pending.Nodup) (maxDepth : Nat) :
    Links (MemberReason maxDepth) t (t.connectMembers maxDepth) := by
  fun_induction connectMembers maxDepth t with
  | case1 => exact .refl
  | case2 t _ ih =>
      have hround := links_connectAll hnodup maxDepth
      exact hround.trans (ih (hround.nodup_pending hnodup))

end SymbolTree

namespace Growth

variable (maxDepth : Nat) (g : Growth)

/-! ## Declarations -/

/-- A declaration takes a pending use. -/
def Claims (declaration usage : NodeId) : Prop :=
  ∃ scope d s, g.tree.enclosingScope? declaration = some scope ∧
    g.tree.symbol? declaration = some d ∧ usage ∈ g.tree.pending ∧
    scope ∈ g.tree.ancestors usage ∧ g.tree.symbol? usage = some s ∧ s.isByName = true ∧
    d.accepts s = true ∧ g.isHeld usage = false

variable {g} {maxDepth}

/-- A declaration that claims uses does not make a contract wait. -/
theorem waiting_claim (declaration : NodeId) : (g.claim declaration).waiting = g.waiting := by
  unfold claim
  split <;> rfl

/-- The row of uses that a declaration takes. -/
theorem exists_claim_eq (declaration : NodeId) : ∃ uses : List NodeId,
    (g.claim declaration).tree = uses.foldl (·.connectTo · declaration) g.tree ∧
      uses.Sublist g.tree.pending ∧ ∀ u, u ∈ uses ↔ g.Claims declaration u := by
  unfold claim
  split
  · rename_i scope d hscope hd
    refine ⟨_, rfl, List.filter_sublist.trans List.filter_sublist, fun u => ?_⟩
    rw [List.mem_filter, SymbolTree.mem_pendingByName, Bool.and_eq_true, Option.any_eq_true]
    constructor
    · rintro ⟨⟨hu, hin, s, hs, hname⟩, ⟨s', hs', haccepts⟩, hheld⟩
      obtain rfl : s = s' := Option.some.inj (hs.symm.trans hs')
      exact ⟨scope, d, s, hscope, hd, hu, hin, hs, hname, haccepts, by simpa using hheld⟩
    · rintro ⟨scope', d', s, hscope', hd', hu, hin, hs, hname, haccepts, hheld⟩
      obtain rfl : scope = scope' := Option.some.inj (hscope.symm.trans hscope')
      obtain rfl : d = d' := Option.some.inj (hd.symm.trans hd')
      exact ⟨⟨hu, hin, s, hs, hname⟩, ⟨s, hs, haccepts⟩, by rw [hheld]; rfl⟩
  · rename_i hnot
    refine ⟨[], rfl, List.nil_sublist _, fun u => ?_⟩
    refine iff_of_false List.not_mem_nil ?_
    rintro ⟨scope, d, s, hscope, hd, -⟩
    exact hnot scope d hscope hd

/-- A declaration links the uses that it claims. -/
theorem links_claim (hnodup : g.tree.pending.Nodup) (declaration : NodeId) :
    SymbolTree.Links (fun t u _ h => g.Claims declaration u ∧ h = t.handle declaration) g.tree
      (g.claim declaration).tree := by
  obtain ⟨uses, heq, hsub, huses⟩ := exists_claim_eq (g := g) declaration
  rw [heq]
  refine (SymbolTree.links_foldl_connectTo (hnodup.sublist hsub) (fun v hv => hsub.subset hv)
    (fun v hv => ?_) declaration).mono fun t u s h _ _ _ ⟨hu, hh⟩ => ⟨(huses u).1 hu, hh⟩
  obtain ⟨-, -, s, -, -, -, -, hs, -⟩ := (huses v).1 hv
  exact ⟨s, hs⟩

/-- What a declaration claims is no longer pending. -/
theorem not_mem_pending_claim (hnodup : g.tree.pending.Nodup) {declaration u : NodeId}
    (hu : g.Claims declaration u) : u ∉ (g.claim declaration).tree.pending := by
  obtain ⟨uses, heq, -, huses⟩ := exists_claim_eq (g := g) declaration
  rw [heq]
  refine SymbolTree.not_mem_pending_foldl_connectTo hnodup (fun v hv => ?_) declaration
    ((huses u).2 hu)
  obtain ⟨-, -, s, -, -, -, -, hs, -⟩ := (huses v).1 hv
  exact ⟨s, hs⟩

/-! ## Waiting contracts -/

variable (maxDepth) in
/-- A contract that is closed either knows its own bases and tries the uses inside it, or waits. -/
theorem close_cases (c : NodeId) :
    ((closeBases c g.tree).2 = true ∧
      g.close maxDepth c = ⟨closeUses maxDepth c (closeBases c g.tree).1, g.waiting⟩) ∨
    ((closeBases c g.tree).2 = false ∧
      g.close maxDepth c = ⟨(closeBases c g.tree).1, g.waiting ++ [c]⟩) := by
  unfold close
  split
  · rename_i t ht
    rw [ht]
    exact .inl ⟨rfl, rfl⟩
  · rename_i t ht
    rw [ht]
    exact .inr ⟨rfl, rfl⟩

/-- The uses in a contract that is closed, the names of its bases first. -/
def CloseReason (maxDepth : Nat) (c : NodeId) (t : SymbolTree) (u : NodeId) (s : Symbol)
    (h : Handle) : Prop :=
  c ∈ t.ancestors u ∧ s.isByName = true ∧ ∃ d, h = t.handle d ∧
    (t.meantAround? s c = some d ∨
      t.isBaseName u = false ∧ SymbolTree.inheritedNode? maxDepth c t s = some d)

/-- The links that a contract makes which does not wait. -/
theorem links_close_whole {t : SymbolTree} (hnodup : t.pending.Nodup) (maxDepth : Nat) (c : NodeId) :
    SymbolTree.Links (CloseReason maxDepth c) t (closeUses maxDepth c (closeBases c t).1) := by
  have hbases := SymbolTree.links_closeBases hnodup c
  refine (hbases.mono ?_).trans
    ((SymbolTree.links_closeUses (hbases.nodup_pending hnodup) maxDepth c).mono ?_)
  · rintro t' u s h - - - ⟨hin, hname, -, d, hd, heq⟩
    exact ⟨hin, hname, d, heq, .inl hd⟩
  · rintro t' u s h - - - ⟨⟨hin, hname, hbase⟩, d, hd | hd, heq⟩
    · exact ⟨hin, hname, d, heq, .inr ⟨hbase, hd⟩⟩
    · exact ⟨hin, hname, d, heq, .inl hd⟩

variable (maxDepth) in
/-- The links that a contract makes in its turn. -/
theorem links_close (hnodup : g.tree.pending.Nodup) (c : NodeId) :
    SymbolTree.Links (CloseReason maxDepth c) g.tree (g.close maxDepth c).tree := by
  rcases g.close_cases maxDepth c with ⟨-, heq⟩ | ⟨-, heq⟩
  · rw [heq]
    exact links_close_whole hnodup maxDepth c
  · rw [heq]
    refine (SymbolTree.links_closeBases hnodup c).mono ?_
    rintro t' u s h - - - ⟨hin, hname, -, d, hd, heq⟩
    exact ⟨hin, hname, d, heq, .inl hd⟩

/-- At the end of the file the contracts that wait are closed for good. -/
theorem tree_closeWaiting : (g.closeWaiting maxDepth).tree =
    g.waiting.foldl (fun t c => closeUses maxDepth c (closeBases c t).1) g.tree := rfl

variable (maxDepth) in
/-- Contracts that are closed one after the other link uses for the reasons of one of them. -/
theorem links_foldl_close (waiting : List NodeId) {t : SymbolTree} (hnodup : t.pending.Nodup) :
    SymbolTree.Links (fun t u s h => ∃ c ∈ waiting, CloseReason maxDepth c t u s h) t
      (waiting.foldl (fun t c => closeUses maxDepth c (closeBases c t).1) t) := by
  induction waiting generalizing t with
  | nil => exact .refl
  | cons c waiting ih =>
      have hfirst := links_close_whole hnodup maxDepth c
      refine (hfirst.mono ?_).trans ((ih (hfirst.nodup_pending hnodup)).mono ?_)
      · exact fun _ _ _ _ _ _ _ h => ⟨c, List.mem_cons_self, h⟩
      · exact fun _ _ _ _ _ _ _ ⟨c', hc', h⟩ => ⟨c', List.mem_cons_of_mem _ hc', h⟩

variable (maxDepth) in
/-- At the end of the file the contracts that wait link uses for the reasons of one of them. -/
theorem links_closeWaiting (hnodup : g.tree.pending.Nodup) :
    SymbolTree.Links (fun t u s h => ∃ c ∈ g.waiting, CloseReason maxDepth c t u s h) g.tree
      (g.closeWaiting maxDepth).tree :=
  links_foldl_close maxDepth g.waiting hnodup

/-- A use inside a waiting contract that is still pending means nothing declared around the
contract. -/
theorem meantAround?_of_left_closeWaiting (hnodup : g.tree.pending.Nodup) {c v : NodeId} {s : Symbol}
    (hv : v ∈ (g.closeWaiting maxDepth).tree.pending) (hc : c ∈ g.waiting)
    (hs : g.tree.symbol? v = some s) (hin : c ∈ g.tree.ancestors v) (hname : s.isByName = true)
    (hbase : g.tree.isBaseName v = false) : g.tree.meantAround? s c = none := by
  rw [tree_closeWaiting] at hv
  generalize g.waiting = waiting at hv hc
  generalize g.tree = t at hnodup hv hs hin hbase ⊢
  induction waiting generalizing t s with
  | nil => exact absurd hc List.not_mem_nil
  | cons c' waiting ih =>
      have hfirst := links_close_whole hnodup maxDepth c'
      have hrest := links_foldl_close maxDepth waiting (hfirst.nodup_pending hnodup)
      rcases List.mem_cons.1 hc with rfl | hc
      · have hbases := SymbolTree.links_closeBases hnodup c
        obtain ⟨s', hs', hbare⟩ := SymbolTree.symbol?_of_outline hbases.outline_eq.symm hs
        rw [SymbolTree.meantAround?_congr hbases.outline_eq.symm hbare]
        refine SymbolTree.meantAround?_of_left_closeUses (hbases.nodup_pending hnodup)
          (hrest.mem_pending_of_mem hv) hs' ?_ ?_ ?_
        · rw [SymbolTree.ancestors_congr hbases.outline_eq]
          exact hin
        · rw [← Symbol.isByName_congr hbare]
          exact hname
        · rw [SymbolTree.isBaseName_congr hbases.outline_eq]
          exact hbase
      · obtain ⟨s', hs', hbare⟩ := SymbolTree.symbol?_of_outline hfirst.outline_eq.symm hs
        rw [SymbolTree.meantAround?_congr hfirst.outline_eq.symm hbare]
        refine ih (by rw [← Symbol.isByName_congr hbare]; exact hname) hc _
          (hfirst.nodup_pending hnodup) hv hs' ?_ ?_
        · rw [SymbolTree.ancestors_congr hfirst.outline_eq]
          exact hin
        · rw [SymbolTree.isBaseName_congr hfirst.outline_eq]
          exact hbase

/-! ## All that dealing with a node does -/

variable (maxDepth) in
/-- The parts of dealing with a node, one after the other. -/
theorem accept_cases {id : NodeId} {s : Symbol} (hs : g.tree.symbol? id = some s) :
    ∃ g₁ g₂ g₃ : Growth,
      (s.kind = .contractDefinition ∧ g₁ = g.close maxDepth id ∨
        s.kind ≠ .contractDefinition ∧ g₁ = g) ∧
      (s.isDeclaration = true ∧ g₂ = (g₁.declare id).claim id ∨
        s.isDeclaration = false ∧ g₂ = g₁) ∧
      (s.isUsage = true ∧ g₃ = g₂.lookUp id s ∨ s.isUsage = false ∧ g₃ = g₂) ∧
      (s.kind = .sourceUnit ∧ g.accept maxDepth id =
          ⟨(g₃.closeWaiting maxDepth).tree.connectMembers maxDepth, []⟩ ∨
        s.kind ≠ .sourceUnit ∧ g.accept maxDepth id = g₃) := by
  refine ⟨if s.kind = .contractDefinition then g.close maxDepth id else g,
    if s.isDeclaration then ((if s.kind = .contractDefinition then g.close maxDepth id
      else g).declare id).claim id else if s.kind = .contractDefinition then g.close maxDepth id else g,
    if s.isUsage then (if s.isDeclaration then ((if s.kind = .contractDefinition
      then g.close maxDepth id else g).declare id).claim id else if s.kind = .contractDefinition
      then g.close maxDepth id else g).lookUp id s else if s.isDeclaration then
      ((if s.kind = .contractDefinition then g.close maxDepth id else g).declare id).claim id
      else if s.kind = .contractDefinition then g.close maxDepth id else g, ?_, ?_, ?_, ?_⟩
  · split
    · exact .inl ⟨‹_›, rfl⟩
    · exact .inr ⟨‹_›, rfl⟩
  · split
    · exact .inl ⟨‹_›, rfl⟩
    · exact .inr ⟨Bool.eq_false_iff.2 ‹_›, rfl⟩
  · split
    · exact .inl ⟨‹_›, rfl⟩
    · exact .inr ⟨Bool.eq_false_iff.2 ‹_›, rfl⟩
  · simp only [accept, hs]
    split
    · exact .inl ⟨‹_›, rfl⟩
    · exact .inr ⟨‹_›, rfl⟩

/-- A use is linked to what it can mean inside its contract, or becomes pending because nothing can
be meant there. -/
theorem lookUp_cases (usage : NodeId) (s : Symbol) :
    (∃ d, s.isByName = true ∧ g.tree.meantInContract? s usage = some d ∧
      g.lookUp usage s = ⟨g.tree.connectTo usage d, g.waiting⟩) ∨
    ((s.isByName = true → g.tree.meantInContract? s usage = none) ∧
      g.lookUp usage s = ⟨g.tree.enqueue usage, g.waiting⟩) := by
  simp only [lookUp]
  cases hfound : (if s.isByName then g.tree.meantInContract? s usage else none) with
  | none =>
      refine .inr ⟨fun hname => ?_, rfl⟩
      rw [if_pos hname] at hfound
      exact hfound
  | some d =>
      split at hfound
      · rename_i hname
        exact .inl ⟨d, hname, hfound, rfl⟩
      · cases hfound

/-! ## What stays as it is -/

section Record

variable {g₁ g₂ g₃ : Growth} {id : NodeId} {s : Symbol}
  (hdeclare : s.isDeclaration = true ∧ g₂ = (g₁.declare id).claim id ∨
    s.isDeclaration = false ∧ g₂ = g₁)
  (hlookUp : s.isUsage = true ∧ g₃ = g₂.lookUp id s ∨ s.isUsage = false ∧ g₃ = g₂)

include hdeclare hlookUp

theorem outline_record : g₃.tree.outline = g₁.tree.outline := by
  have h₂ : g₂.tree.outline = g₁.tree.outline := by
    rcases hdeclare with ⟨-, rfl⟩ | ⟨-, rfl⟩
    · rw [outline_claim, outline_declare]
    · rfl
  rcases hlookUp with ⟨-, rfl⟩ | ⟨-, rfl⟩
  · rcases g₂.lookUp_cases id s with ⟨d, -, -, heq⟩ | ⟨-, heq⟩ <;> rw [heq]
    · rw [SymbolTree.outline_connectTo, h₂]
    · rw [SymbolTree.outline_enqueue, h₂]
  · exact h₂

/-- Declaring a node and looking it up make no contract wait. -/
theorem waiting_record : g₃.waiting = g₁.waiting := by
  have h₂ : g₂.waiting = g₁.waiting := by
    rcases hdeclare with ⟨-, rfl⟩ | ⟨-, rfl⟩
    · exact waiting_claim (g := g₁.declare id) id
    · rfl
  rcases hlookUp with ⟨-, rfl⟩ | ⟨-, rfl⟩
  · rcases g₂.lookUp_cases id s with ⟨d, -, -, heq⟩ | ⟨-, heq⟩ <;> rw [heq] <;> exact h₂
  · exact h₂

/-- No use but the node itself becomes pending. -/
theorem mem_pending_record (hnodup : g₁.tree.pending.Nodup) {u : NodeId} (hu : u ∈ g₃.tree.pending) :
    u = id ∨ u ∈ g₁.tree.pending := by
  have h₂ : u ∈ g₂.tree.pending → u ∈ g₁.tree.pending := by
    rcases hdeclare with ⟨-, rfl⟩ | ⟨-, rfl⟩
    · exact (links_claim (g := g₁.declare id) hnodup id).mem_pending_of_mem
    · exact fun hu => hu
  rcases hlookUp with ⟨-, rfl⟩ | ⟨-, rfl⟩
  · rcases g₂.lookUp_cases id s with ⟨d, -, -, heq⟩ | ⟨-, heq⟩ <;> rw [heq] at hu
    · exact .inr (h₂ (SymbolTree.mem_pending_of_connect hu))
    · exact (mem_appendNew.1 hu).symm.imp_right h₂
  · exact .inr (h₂ hu)

end Record

/-- Dealing with a node makes links and takes notes, and leaves the outline as it is. -/
theorem outline_accept (maxDepth : Nat) (g : Growth) (id : NodeId) :
    (g.accept maxDepth id).tree.outline = g.tree.outline := by
  cases hs : g.tree.symbol? id with
  | none => rw [accept, hs]
  | some s =>
      obtain ⟨g₁, g₂, g₃, hclose, hdeclare, hlookUp, hwhole⟩ := g.accept_cases maxDepth hs
      have h₁ : g₁.tree.outline = g.tree.outline := by
        rcases hclose with ⟨-, rfl⟩ | ⟨-, rfl⟩
        · exact outline_close maxDepth g id
        · rfl
      have h₃ := (outline_record hdeclare hlookUp).trans h₁
      rcases hwhole with ⟨-, heq⟩ | ⟨-, heq⟩
      · have hconnect : ∀ (t : SymbolTree) usage d, t.outline = g.tree.outline →
            (t.connect usage d).outline = g.tree.outline := fun t usage d h => by
          rw [SymbolTree.outline_connect, h]
        rw [heq]
        exact SymbolTree.connectMembers_kept hconnect maxDepth
          (SymbolTree.closeWaiting_kept hconnect maxDepth h₃)
      · rw [heq, h₃]

/-- At the end of the file nothing is dealt with but what has been left. -/
theorem accept_file {id : NodeId} {s : Symbol} (hs : g.tree.symbol? id = some s)
    (hk : s.kind = .sourceUnit) :
    g.accept maxDepth id = ⟨(g.closeWaiting maxDepth).tree.connectMembers maxDepth, []⟩ := by
  have hdeclares : s.isDeclaration = false := by
    rw [Symbol.isDeclaration, hk]
    exact Bool.and_false _
  have husage : s.isUsage = false := Bool.eq_false_iff.2 fun husage => by
    obtain ⟨-, hrefers⟩ := Bool.and_eq_true_iff.1 husage
    rw [Symbol.kind] at hk
    split at hrefers <;> simp_all [Detail.kind]
  simp only [accept, hs, hk, hdeclares, husage]
  rfl

/-- What waits when a contract has been closed waits when its turn is over. -/
theorem mem_waiting_accept_of_close {id c : NodeId} {s : Symbol} (hs : g.tree.symbol? id = some s)
    (hk : s.kind = .contractDefinition) (hc : c ∈ (g.close maxDepth id).waiting) :
    c ∈ (g.accept maxDepth id).waiting := by
  obtain ⟨g₁, g₂, g₃, hclose, hdeclare, hlookUp, hwhole⟩ := g.accept_cases maxDepth hs
  have hfile : s.kind ≠ .sourceUnit := fun heq => by
    rw [hk] at heq
    cases heq
  obtain ⟨-, rfl⟩ := hclose.resolve_right fun h => h.1 hk
  rw [(hwhole.resolve_left fun h => hfile h.1).2, waiting_record hdeclare hlookUp]
  exact hc

/-- Contracts begin to wait in their own turns and wait up to the end of the file. -/
theorem waiting_accept {id : NodeId} {s : Symbol} (hs : g.tree.symbol? id = some s) :
    (s.kind ≠ .sourceUnit → ∀ c ∈ g.waiting, c ∈ (g.accept maxDepth id).waiting) ∧
      ∀ c ∈ (g.accept maxDepth id).waiting, c = id ∨ c ∈ g.waiting := by
  obtain ⟨g₁, g₂, g₃, hclose, hdeclare, hlookUp, hwhole⟩ := g.accept_cases maxDepth hs
  have h₁ : (∀ c ∈ g.waiting, c ∈ g₁.waiting) ∧ ∀ c ∈ g₁.waiting, c = id ∨ c ∈ g.waiting := by
    rcases hclose with ⟨-, rfl⟩ | ⟨-, rfl⟩
    · rcases g.close_cases maxDepth id with ⟨-, heq⟩ | ⟨-, heq⟩ <;> rw [heq]
      · exact ⟨fun _ hc => hc, fun _ hc => .inr hc⟩
      · refine ⟨fun c hc => List.mem_append_left _ hc, fun c hc => ?_⟩
        rw [List.mem_append, List.mem_singleton] at hc
        exact hc.symm
    · exact ⟨fun _ hc => hc, fun _ hc => .inr hc⟩
  rw [← waiting_record hdeclare hlookUp] at h₁
  rcases hwhole with ⟨hk, heq⟩ | ⟨-, heq⟩ <;> rw [heq]
  · exact ⟨fun hnot => absurd hk hnot, fun c hc => absurd hc List.not_mem_nil⟩
  · exact ⟨fun _ => h₁.1, h₁.2⟩

/-- Attaching a node moves no use. -/
theorem settle_eq (maxDepth : Nat) (g : Growth) (id : NodeId) :
    (g.settle maxDepth id).tree.pending = (g.accept maxDepth id).tree.pending ∧
      (g.settle maxDepth id).waiting = (g.accept maxDepth id).waiting := by
  simp only [settle]
  split <;> exact ⟨rfl, rfl⟩

/-- A turn adds no node. -/
theorem size_settle (maxDepth : Nat) (g : Growth) (id : NodeId) :
    (g.settle maxDepth id).tree.size = g.tree.size := by
  have hsize := SymbolTree.size_congr (outline_accept maxDepth g id)
  simp only [settle]
  split
  · rw [← hsize]
    exact SymbolTree.size_modify _ _ _
  · exact hsize

end Growth

end SolidityAtlas

import SolidityAtlas.Proofs.Symbol.Closing
import SolidityAtlas.Proofs.Symbol.Hierarchy
import SolidityAtlas.Proofs.Symbol.MemberTarget

/-!
# Inherited declarations come before those of the file

A use inside a contract that can mean nothing there is linked to what the bases of the
contract declare, if they declare anything it can mean, and not to what is declared around
the contract. This holds for every order of the contracts in which enough of the hierarchy is
known when the contract is closed: the contract waits for one of its own bases, and is
closed at the end of the file; or the bases that stand before the contract are enough to find
the declaration.

## Main Definitions

* `SymbolTree.WaitsForBase`: one of the bases of a contract is missing when its turn comes

## Main Results

* `SymbolTree.Underway.hierarchyKnown_last`, `SymbolTree.Underway.hierarchyKnown_turn`: what is known of
  a hierarchy at the end of the file, and in the turn of the contract
* `SymbolTree.declaration_eq_of_inherited`
-/

namespace SolidityAtlas

namespace SymbolTree

variable {t t₀ τ p : SymbolTree} {done rest row : List NodeId} {rest' : NodeId → Prop} {g : Growth}
  {maxDepth : Nat} {id u d c : NodeId} {s x : Symbol}

/-! ## What a use has found -/

/-- The target of a use is what it means, or for a contract a constructor inside that has been
settled. -/
theorem Moment.settled_target (h : Moment maxDepth p done g id τ u s d) :
    (τ.alone.target s (τ.handle d)).node ∈ done ∨ (τ.alone.target s (τ.handle d)).node = id ∨
      (τ.alone.target s (τ.handle d)).node ∈ p.ancestors u := by
  rw [target_alone]
  split
  · cases hk : τ.constructorAt? d with
    | none => exact h.settled_or
    | some k => exact .inl (h.stage.mem_children_iff.1 (List.mem_of_find?_eq_some hk)).1
  · exact h.settled_or

/-- A use that is linked to a contract means this contract. -/
theorem handle_eq_of_target (hk : τ.alone.kind? (τ.alone.target s (τ.handle d)) = some .contractDefinition) :
    τ.alone.target s (τ.handle d) = τ.handle d := by
  rw [target_alone] at hk ⊢
  split at hk
  · rename_i hcalls
    rw [if_pos hcalls]
    cases hfound : τ.constructorAt? d with
    | none => rfl
    | some k =>
        rw [hfound, Option.getD_some, kind?_alone] at hk
        have hconstructor : τ.isConstructor k = true := List.find?_some hfound
        rw [isConstructor] at hconstructor
        obtain ⟨y, hy, hkind⟩ := Option.map_eq_some_iff.1 hk
        rw [hy, Option.map_some] at hconstructor
        split at hconstructor
        · rename_i hdetail
          rw [Symbol.kind, Option.some.inj hdetail] at hkind
          cases hkind
        · cases hconstructor
  · rename_i hcalls
    rw [if_neg hcalls]

/-- A base that is written with dots is no contract. -/
theorem Underway.kind?_ne_contract (hway : Underway p done (row ++ rest) g) (hx : p.symbol? u = some x)
    (hname : x.isByName = false) (hnone : g.tree.found? u = none) {h : Handle}
    (hfound : (row.foldl (Growth.settle maxDepth) g).tree.found? u = some h) :
    (row.foldl (Growth.settle maxDepth) g).tree.alone.kind? h ≠ some .contractDefinition := by
  have hend := (hway.foldl_settle maxDepth).complete.stage
  obtain ⟨pre, id, post, rfl, hbefore, hafter, -⟩ := hway.exists_turn hnone hfound
  rw [List.append_assoc] at hway
  have hturn := hway.foldl_settle maxDepth
  obtain ⟨y, hy⟩ := exists_symbol?_of_lt hturn.lt_size
  obtain ⟨x', hx', hstem⟩ := exists_symbol?_stems hturn.complete.stage.stems.symm hx
  rcases hturn.accounted.linkedOn_accept List.mem_cons_self
    (fun hmem => hturn.turn_head.not_mem (hturn.complete.waiting id hmem).1) hy hx' hbefore hafter with
    ⟨τ, s, d, houtline, -, -, hs, hname', -⟩ |
      ⟨-, τ, round, s, e, hτ, hround, hhandle, hhandle', -, htarget, rfl⟩
  · obtain ⟨s', hs', hbare⟩ := symbol?_of_outline houtline hs
    obtain rfl : x' = s' := Option.some.inj (hx'.symm.trans hs')
    rw [Symbol.isByName_congr hbare, Symbol.stem_isByName hstem, hname] at hname'
    cases hname'
  · have hstage := hturn.complete.stage.congr hround hhandle'
    have hne := hstage.kind?_memberTarget? hway.rooted htarget
    have hkind : τ.alone.kind? e = round.alone.kind? e :=
      kind?_alone_congr (hhandle.trans hhandle'.symm) (stems_congr (hτ.trans hround.symm)) e
    have hplain : τ.alone.target s e = e := if_neg fun hcalls => hne (hkind ▸ hcalls.2)
    rw [hplain, kind?_alone_congr (hend.handle.trans hstage.handle.symm)
      (hend.stems.trans hstage.stems.symm)]
    exact hne

/-! ## Names of bases -/

/-- What a name of a base is linked to in the end it is linked to already, when the contract that it
stands in and the base have been settled. -/
theorem Underway.found?_of_settled (hway : Underway p done (row ++ rest) g)
    (hx : p.symbol? u = some x) (hbase : p.isBaseName u = true) {b : NodeId}
    (hb : p.kind? b = some .contractDefinition) (hbu : b ∈ p.ancestors u) (hsettled : b ∈ done) {a : Handle}
    (hfound : (row.foldl (Growth.settle maxDepth) g).tree.found? u = some a)
    (hkind : (row.foldl (Growth.settle maxDepth) g).tree.alone.kind? a = some .contractDefinition)
    (ha : a.node ∈ done) : g.tree.found? u = some a := by
  have hgrows := hway.grows_foldl_settle maxDepth
  cases hg : g.tree.found? u with
  | some e => rw [← hfound, hgrows.declaration u e hg]
  | none =>
      exfalso
      have hname : x.isByName = true := by
        by_contra hnot
        exact hway.kind?_ne_contract hx (Bool.eq_false_iff.2 hnot) hg hfound hkind
      obtain ⟨pre, id, post, τ, s, d, rfl, hmoment, hgrowsτ, rfl⟩ := hway.exists_moment hx hname hg hfound
      rw [hgrowsτ.kind?_alone] at hkind
      rw [handle_eq_of_target hkind] at ha hkind
      rw [kind?_alone, kind?_stems hmoment.stage.stems] at hkind
      -- The use has been pending all the time although the base could be found.
      obtain ⟨-, y, hy, haccepts⟩ := hmoment.inSight hway.rooted (Grows.refl τ)
      obtain ⟨y', hy', hstemy⟩ := exists_symbol?_stems hmoment.stage.stems hy
      obtain ⟨x', hx', hstemx⟩ := exists_symbol?_stems hmoment.stage.stems hmoment.symbol
      obtain rfl : x = x' := Option.some.inj (hx.symm.trans hx')
      obtain ⟨v, hv, hstemv⟩ := exists_symbol?_stems hway.complete.stage.stems.symm hx
      have husage : v.isUsage = true := by
        obtain ⟨w, hw, hstemw⟩ := exists_symbol?_stems hgrows.stems.symm hv
        rw [← Symbol.stem_isUsage hstemw]
        have hlast := hway.foldl_settle maxDepth
        exact hlast.accounted.isUsage_of_found? hw
          (hlast.not_mem_rest (List.mem_append_left _ (hway.inside hsettled hbu))) hfound
      have hpending := hway.mem_pending (hway.inside hsettled hbu) hv husage hg
      have hroot : root ∈ p.ancestors u := mem_ancestors_trans (hway.rooted.root_mem_ancestors hb) hbu
      obtain ⟨c, hk, hcu, -, hleft⟩ := hway.complete.leaves u hpending x hx hname root hroot
        ⟨d, y', .inr ⟨ha, .inside (hway.rooted.contracts d hkind)⟩, hy',
          by rw [Symbol.stem_accepts hstemy hstemx, haccepts]⟩
      rcases hleft with hnot | ⟨-, hnot⟩
      · rw [hway.rooted.eq_of_mem_ancestors hb hk hbu hcu] at hnot
        exact hnot hsettled
      · rw [hbase] at hnot
        cases hnot

/-- A name of a base of a contract that is complete, and is looked up by name, is linked when the
contract deals with the uses inside it. -/
theorem Underway.found?_of_complete (hway : Underway p done (id :: rest) g)
    (hcomplete : (Growth.closeBases id g.tree).2 = true) (hx : p.symbol? u = some x) (husage : x.isUsage = true) (hname : x.isByName = true)
    (hbase : p.isBaseName u = true) (hcu : id ∈ p.ancestors u) :
    ∃ a, (Growth.closeBases id g.tree).1.found? u = some a := by
  by_contra hnot
  have hlinks := links_closeBases hway.accounted.nodup id
  have hstems := hway.complete.stage.stems
  obtain ⟨v, hv, hstemv⟩ := exists_symbol?_stems hstems.symm hx
  obtain ⟨w, hw, hbare⟩ := symbol?_of_outline hlinks.outline_eq.symm hv
  have hsettled : u ∈ done := (hway.turn_head.mem_iff u).2 ⟨lt_size_of_symbol? hx, .inl hcu⟩
  have hnone : (Growth.closeBases id g.tree).1.found? u = none := by
    cases he : (Growth.closeBases id g.tree).1.found? u with
    | none => rfl
    | some e => exact absurd ⟨e, he⟩ hnot
  rcases ((hway.accounted.links hlinks).recorded u w hw (hway.not_mem_rest hsettled)).usage
    (by rw [← Symbol.isUsage_congr hbare, Symbol.stem_isUsage hstemv, husage]) with
    ⟨hpending, -⟩ | ⟨-, e, he, -⟩
  · have hleft := (meantAround?_of_left_closeBases hway.accounted.nodup hpending hv
      (by rw [ancestors_stems hstems]; exact hcu) (by rw [Symbol.stem_isByName hstemv, hname])
      (by rw [isBaseName_stems hstems, hbase])).2
    rw [hcomplete] at hleft
    cases hleft
  · rw [found?, hw, Option.bind_some, he] at hnone
    cases hnone

/-- What a use has found has been settled, or stands around the use. -/
theorem Underway.settled_of_found (hway : Underway p [] (row ++ rest) g) (hx : p.symbol? u = some x)
    (hname : x.isByName = true) (hnone : g.tree.found? u = none) {h : Handle}
    (hfound : (row.foldl (Growth.settle maxDepth) g).tree.found? u = some h) :
    h.node ∈ row ∨ h.node ∈ p.ancestors u := by
  obtain ⟨pre, id, post, τ, s, d, rfl, hmoment, -, rfl⟩ := hway.exists_moment hx hname hnone hfound
  rcases hmoment.settled_target with hdone | heq | hmem
  · exact .inl (List.mem_append_left _ hdone)
  · rw [heq]
    exact .inl (List.mem_append_right _ List.mem_cons_self)
  · exact .inr hmem

/-! ## Hierarchies -/

/-- One of the bases that a contract names is missing when its turn comes: nothing is found for the
name in the end, or something that comes behind the contract. -/
def WaitsForBase (t : SymbolTree) (c : NodeId) : Prop :=
  ∃ b < t.size, ∃ y ∈ t.symbol? b, y.isUsage = true ∧ y.isByName = true ∧ t.isBaseName b = true ∧
    c ∈ t.ancestors b ∧ ∀ h ∈ y.declaration, c < h.node ∧ c ∉ t.ancestors h.node

instance (t : SymbolTree) (c : NodeId) : Decidable (t.WaitsForBase c) :=
  inferInstanceAs (Decidable (∃ b < t.size, ∃ y ∈ t.symbol? b, _))

/-- In the turn of a contract another one has been settled exactly if it stands before it. -/
theorem Underway.mem_iff_lt (hway : Underway p done (id :: rest) g) {b : Nat}
    (hb : p.kind? b = some .contractDefinition) (hc : p.kind? id = some .contractDefinition) :
    b ∈ done ↔ b < id := by
  obtain ⟨y, hy, -⟩ := Option.map_eq_some_iff.1 hb
  rw [hway.turn_head.mem_iff, SettledBefore, and_iff_right (lt_size_of_symbol? hy),
    or_iff_right (hway.rooted.not_mem_ancestors hb hc), and_iff_left (hway.rooted.not_mem_ancestors hc hb)]

section Turn

variable {pre post : List NodeId} {g₀ : Growth} (hway : Underway p [] (pre ++ id :: post) g₀)
  (ht : ((pre ++ id :: post).foldl (Growth.settle maxDepth) g₀).tree = t)

include hway

variable (maxDepth) in
/-- In the middle of the row it is the turn of the node there. -/
theorem Underway.at_turn : Underway p pre (id :: post) (pre.foldl (Growth.settle maxDepth) g₀) :=
  hway.foldl_settle maxDepth

include ht

/-- What a turn leads to is part of the finished tree. -/
theorem Underway.grows_last :
    ((pre.foldl (Growth.settle maxDepth) g₀).settle maxDepth id).tree.Grows t := by
  have hturn := hway.at_turn maxDepth
  rw [← ht, List.foldl_append]
  exact (hturn.settle maxDepth).whole.grows_foldl_settle maxDepth

/-- The finished tree has the shape of the planted one. -/
theorem Underway.stems_last : t.stems = p.stems := by
  rw [← ht]
  exact (hway.whole.foldl_settle maxDepth).complete.stage.stems

/-- In the turn of a node the name of a base leads to what it leads to in the end, if the contract that it
stands in and the base have been settled. -/
theorem Underway.found?_at_turn (hx : p.symbol? u = some x) (hbase : p.isBaseName u = true) {b : NodeId}
    (hb : p.kind? b = some .contractDefinition) (hbu : b ∈ p.ancestors u) (hsettled : b ∈ pre) {a : Handle}
    (hfound : t.found? u = some a) (hkind : t.alone.kind? a = some .contractDefinition)
    (ha : a.node ∈ pre) : (pre.foldl (Growth.settle maxDepth) g₀).tree.found? u = some a := by
  rw [← ht, List.foldl_append] at hfound hkind
  exact (hway.at_turn maxDepth).whole.found?_of_settled hx hbase hb hbu hsettled hfound hkind ha

/-- A name of a base that leads to a contract in the end is a use that is looked up by name. -/
theorem Underway.exists_baseName (hfree : ∀ u, g₀.tree.found? u = none) {b specifier : NodeId} {a : Handle}
    (hspecifier : specifier ∈ t.children b) (hfound : t.baseAt? specifier = some a) :
    ∃ u x, t.firstChild? specifier = some u ∧ t.found? u = some a ∧
      t.alone.kind? a = some .contractDefinition ∧ p.symbol? u = some x ∧ x.isUsage = true ∧
      x.isByName = true ∧ p.isBaseName u = true ∧ b ∈ p.ancestors u := by
  have hstems := hway.stems_last ht
  subst ht
  have hlast := hway.whole.foldl_settle maxDepth
  obtain ⟨hks, u, hfirst, hfound, hkind⟩ := baseAt?_eq_some_iff.1 hfound
  have hparent := (hlast.complete.stage.mem_children_iff.1 hspecifier).2
  have hparent' := (hlast.complete.stage.mem_children_iff.1 (List.mem_of_head? hfirst)).2
  obtain ⟨y, hy, -⟩ := Option.bind_eq_some_iff.1 hfound
  obtain ⟨x, hx, hstem⟩ := exists_symbol?_stems hstems hy
  refine ⟨u, x, hfirst, hfound, hkind, hx, ?_, ?_, ?_,
    mem_ancestors_trans (mem_ancestors_of_parent hparent) (mem_ancestors_of_parent hparent')⟩
  · rw [Symbol.stem_isUsage hstem]
    exact hlast.accounted.isUsage_of_found? hy List.not_mem_nil hfound
  · by_contra hnot
    exact hway.whole.kind?_ne_contract hx (Bool.eq_false_iff.2 hnot) (hfree u) hfound hkind
  · rw [kind?_stems hstems] at hks
    rw [isBaseName, hparent', Option.any_some, hks]
    rfl

section Complete

variable (hfree : ∀ u, g₀.tree.found? u = none)
  (hcomplete : (Growth.closeBases id (pre.foldl (Growth.settle maxDepth) g₀).tree).2 = true)
  (hgrows : (Growth.closeBases id (pre.foldl (Growth.settle maxDepth) g₀).tree).1.Grows
    ((pre.foldl (Growth.settle maxDepth) g₀).settle maxDepth id).tree)

include hfree hcomplete hgrows

omit ht in
/-- In its own turn a contract that is complete has found its bases, among what has been settled. -/
theorem Underway.exists_base (hx : p.symbol? u = some x) (husage : x.isUsage = true)
    (hname : x.isByName = true) (hbase : p.isBaseName u = true) (hcu : id ∈ p.ancestors u) :
    ∃ a, (Growth.closeBases id (pre.foldl (Growth.settle maxDepth) g₀).tree).1.found? u = some a ∧
      (a.node ∈ pre ∨ a.node = id ∨ a.node ∈ p.ancestors u) := by
  have hturn := hway.at_turn maxDepth
  obtain ⟨a, ha⟩ := hturn.found?_of_complete hcomplete hx husage hname hbase hcu
  refine ⟨a, ha, ?_⟩
  have hsettled := hgrows.declaration u a ha
  rw [List.append_cons] at hway
  have hfound : ((pre ++ [id]).foldl (Growth.settle maxDepth) g₀).tree.found? u = some a := by
    rw [List.foldl_append]
    exact hsettled
  rcases hway.settled_of_found hx hname (hfree u) hfound with hmem | hmem
  · rw [List.mem_append, List.mem_singleton] at hmem
    exact hmem.imp_right .inl
  · exact .inr (.inr hmem)

/-- A contract that is complete in its own turn does not wait for a base. -/
theorem Underway.not_waitsForBase : ¬ t.WaitsForBase id := by
  rintro ⟨b, -, y, hy, husage, hname, hbase, hcb, hlate⟩
  have hstems := hway.stems_last ht
  obtain ⟨x, hx, hstem⟩ := exists_symbol?_stems hstems hy
  rw [isBaseName_stems hstems] at hbase
  rw [ancestors_stems hstems] at hcb
  obtain ⟨a, ha, hplace⟩ := hway.exists_base hfree hcomplete hgrows hx
    (by rw [Symbol.stem_isUsage hstem, husage]) (by rw [Symbol.stem_isByName hstem, hname]) hbase hcb
  have hfound := (hgrows.trans (hway.grows_last ht)).declaration b a ha
  rw [found?, hy, Option.bind_some] at hfound
  obtain ⟨hlt, hout⟩ := hlate a hfound
  rw [ancestors_stems hstems] at hout
  rcases hplace with hmem | heq | hmem
  · rcases ((hway.at_turn maxDepth).turn_head.mem_iff a.node |>.1 hmem).2 with hin | ⟨hlt', -⟩
    · exact hout hin
    · exact Nat.lt_asymm hlt hlt'
  · rw [heq] at hlt
    exact Nat.lt_irrefl _ hlt
  · rcases eq_or_mem_ancestors hmem hcb with heq | hin | hin
    · rw [heq] at hlt
      exact Nat.lt_irrefl _ hlt
    · exact Nat.lt_asymm hlt (lt_of_mem_ancestors hin)
    · exact hout hin

/-- A contract that is complete in its own turn sees beside itself only contracts in its hierarchy that
have been settled. -/
theorem Underway.mem_of_mem_linearize (hc : p.kind? id = some .contractDefinition) {b : NodeId}
    (hb : t.handle b ∈ (t.withBasesBefore id).alone.linearize maxDepth (t.handle id)) (hne : b ≠ id) :
    p.kind? b = some .contractDefinition ∧ b ∈ pre := by
  have hturn := hway.at_turn maxDepth
  have hstems := hway.stems_last ht
  have hseen := t.grows_withBasesBefore id
  have hsize : id < (t.withBasesBefore id).size := by
    rw [← size_stems hseen.stems, size_stems hstems]
    exact hturn.turn_head.lt_size
  obtain ⟨a, ha, hbase⟩ := (Forest.exists_of_mem_linearizeWithin hb).resolve_left
    fun heq => hne (congrArg Handle.node heq)
  obtain ⟨a, -, rfl⟩ := exists_of_mem_linearize hsize ha
  obtain ⟨specifier, hspecifier, hbase⟩ := mem_bases_alone.1 hbase
  have hspecifier : specifier ∈ t.children a := (hseen.children a).subset hspecifier
  obtain ⟨u, x, hfirst, hfound, hk, hx, husage, hname, hbasename, hau⟩ :=
    hway.exists_baseName ht hfree hspecifier (hseen.baseAt? hbase)
  rw [kind?_alone, kind?_stems hstems] at hk
  have hbasename' : t.isBaseName u = true := by rwa [isBaseName_stems hstems]
  obtain ⟨-, u', hfirst', hfound', -⟩ := baseAt?_eq_some_iff.1 hbase
  obtain rfl : u = u' := Option.some.inj (hfirst.symm.trans (hseen.firstChild? hfirst'))
  refine ⟨hk, ?_⟩
  rcases ((found?_withBasesBefore hbasename').1 hfound').2 with hin | hlt
  · -- A base that the contract names itself.
    rw [ancestors_stems hstems] at hin
    obtain ⟨e, he, hplace⟩ := hway.exists_base hfree hcomplete hgrows hx husage hname hbasename hin
    have hsame := (hgrows.trans (hway.grows_last ht)).declaration u e he
    obtain rfl : e = t.handle b := Option.some.inj (hsame.symm.trans hfound)
    rcases hplace with hmem | heq | hmem
    · exact hmem
    · exact absurd heq hne
    · exact absurd (hway.rooted.eq_of_mem_ancestors hc hk hin hmem) hne
  · exact (hturn.mem_iff_lt hk hc).2 hlt

end Complete

omit ht in
/-- Between the beginning of the turn of a contract and the moment when it has dealt with the uses inside
it, no name of a base in another contract is linked. -/
theorem Underway.found?_of_outside (hout : id ∉ p.ancestors u)
    (hτ : τ.Grows (Growth.closeUses maxDepth id
      (Growth.closeBases id (pre.foldl (Growth.settle maxDepth) g₀).tree).1)) {a : Handle}
    (hfound : τ.found? u = some a) : (pre.foldl (Growth.settle maxDepth) g₀).tree.found? u = some a := by
  have hturn := hway.at_turn maxDepth
  have hlinks := Growth.links_close_whole hturn.accounted.nodup maxDepth id
  have hlast := hτ.declaration u a hfound
  cases hnone : (pre.foldl (Growth.settle maxDepth) g₀).tree.found? u with
  | some e => rw [← hlast, (hturn.accounted.grows_links hlinks).declaration u e hnone]
  | none =>
      obtain ⟨τ', s, e, hτ', -, -, -, hwhy, -⟩ := hturn.accounted.exists_of_links hlinks hnone hlast
      have hin := hwhy.1
      rw [ancestors_stems ((stems_congr hτ'.outline_eq).trans hturn.complete.stage.stems)] at hin
      exact absurd hin hout

section Known

variable (hfree : ∀ u, g₀.tree.found? u = none) (hc : p.kind? c = some .contractDefinition)
  (hbefore : (pre.foldl (Growth.settle maxDepth) g₀).tree.Grows τ) (hafter : τ.Grows t)

include ht hfree hc hbefore hafter

/-- At the end of the file the hierarchy of a contract is known. -/
theorem Underway.hierarchyKnown_last (hroot : id = root) : HierarchyKnown maxDepth p pre τ t c := by
  have hturn := hway.at_turn maxDepth
  have hstems := hway.stems_last ht
  have hsettled : ∀ {a}, p.kind? a = some .contractDefinition → a ∈ pre := by
    intro a hk
    obtain ⟨y, hy, -⟩ := Option.map_eq_some_iff.1 hk
    rw [hroot] at hturn
    exact hturn.turn_head.mem_of_ne_root hway.rooted (lt_size_of_symbol? hy) (hway.rooted.ne_root hk)
  have hcontract : ∀ {a}, t.alone.kind? a = some .contractDefinition →
      p.kind? a.node = some .contractDefinition := fun hk => by
    rw [← kind?_stems hstems, kind?_node hk]
  have hkind : ∀ b, t.handle b ∈ t.alone.linearize maxDepth (t.handle c) →
      p.kind? b = some .contractDefinition := by
    intro b hb
    rcases Forest.exists_of_mem_linearizeWithin hb with heq | ⟨y, -, hbase⟩
    · rw [show b = c from congrArg Handle.node heq, hc]
    · exact hcontract (Forest.kind?_of_mem_bases hbase)
  refine ⟨fun b hb x => hturn.inside (hsettled (hkind b hb)), ?_⟩
  intro b hb specifier u a hspecifier hks hfirst hka
  refine ⟨hafter.declaration u a, fun hfound => hbefore.declaration u a ?_⟩
  obtain ⟨u', x, hfirst', -, -, hx, -, -, hbasename, hbu⟩ := hway.exists_baseName ht hfree hspecifier
    (baseAt?_eq_some_iff.2 ⟨hks, u, hfirst, hfound, hka⟩)
  obtain rfl : u = u' := Option.some.inj (hfirst.symm.trans hfirst')
  exact hway.found?_at_turn ht hx hbasename (hkind b hb) hbu (hsettled (hkind b hb)) hfound hka
    (hsettled (hcontract hka))

/-- In its own turn a contract that is complete knows the hierarchy that its bases and those before it
make up. -/
theorem Underway.hierarchyKnown_turn (hid : c = id)
    (hcomplete : (Growth.closeBases c (pre.foldl (Growth.settle maxDepth) g₀).tree).2 = true)
    (hgrows : (Growth.closeBases c (pre.foldl (Growth.settle maxDepth) g₀).tree).1.Grows
      ((pre.foldl (Growth.settle maxDepth) g₀).settle maxDepth id).tree)
    (hτ₀ : (Growth.closeBases c (pre.foldl (Growth.settle maxDepth) g₀).tree).1.Grows τ)
    (hτ : τ.Grows (Growth.closeUses maxDepth c
      (Growth.closeBases c (pre.foldl (Growth.settle maxDepth) g₀).tree).1)) :
    HierarchyKnown maxDepth p pre τ (t.withBasesBefore c) c := by
  subst hid
  have hturn := hway.at_turn maxDepth
  have hstems := hway.stems_last ht
  have hseen := t.grows_withBasesBefore c
  have hsettled : ∀ b, t.handle b ∈ (t.withBasesBefore c).alone.linearize maxDepth (t.handle c) →
      b = c ∨ p.kind? b = some .contractDefinition ∧ b ∈ pre := fun b hb =>
    or_iff_not_imp_left.2 (hway.mem_of_mem_linearize ht hfree hcomplete hgrows hc hb)
  refine ⟨fun b hb x hx => ?_, ?_⟩
  · rcases hsettled b hb with rfl | ⟨-, hmem⟩
    · exact (hturn.turn_head.mem_iff x).2 ⟨lt_size_of_mem_ancestors hx, .inl hx⟩
    · exact hturn.inside hmem hx
  intro b hb specifier u a hspecifier hks hfirst hka
  have hspecifier : specifier ∈ t.children b := (hseen.children b).subset hspecifier
  have hks : t.kind? specifier = some .inheritanceSpecifier := by rwa [kind?_stems hseen.stems]
  have hfirst : t.firstChild? specifier = some u := hseen.firstChild? hfirst
  have hka : t.alone.kind? a = some .contractDefinition := by rwa [hseen.kind?_alone]
  -- Both trees are compared with the finished one, where a name that leads to a contract names a base.
  by_cases hfound : t.found? u = some a
  swap
  · exact ⟨fun h => absurd (hafter.declaration u a h) hfound,
      fun h => absurd (hseen.declaration u a h) hfound⟩
  obtain ⟨u', x, hfirst', -, -, hx, husage, hname, hbasename, hbu⟩ := hway.exists_baseName ht hfree
    hspecifier (baseAt?_eq_some_iff.2 ⟨hks, u, hfirst, hfound, hka⟩)
  obtain rfl : u = u' := Option.some.inj (hfirst.symm.trans hfirst')
  have hbasename' : t.isBaseName u = true := by rwa [isBaseName_stems hstems]
  rw [found?_withBasesBefore hbasename', and_iff_right hfound, ancestors_stems hstems]
  by_cases hin : c ∈ p.ancestors u
  · obtain ⟨e, he⟩ := hturn.found?_of_complete hcomplete hx husage hname hbasename hin
    obtain rfl : e = a := Option.some.inj
      (((hτ₀.trans hafter).declaration u e he).symm.trans hfound)
    exact ⟨fun _ => .inl hin, fun _ => hτ₀.declaration u e he⟩
  · -- The name stands in another contract, so it is not linked in this turn.
    obtain ⟨hkb, hmem⟩ := (hsettled b hb).resolve_left fun heq => hin (heq ▸ hbu)
    have hka' : p.kind? a.node = some .contractDefinition := by rw [← kind?_stems hstems, kind?_node hka]
    rw [or_iff_right hin]
    refine Iff.trans ?_ (hturn.mem_iff_lt hka' hc)
    constructor
    · intro h
      have hpre := hway.found?_of_outside hin hτ h
      rcases hway.settled_of_found hx hname (hfree u) hpre with hdone | haround
      · exact hdone
      · rwa [hway.rooted.eq_of_mem_ancestors hkb hka' hbu haround]
    · intro hdone
      exact hbefore.declaration u a (hway.found?_at_turn ht hx hbasename hkb hbu hmem hfound hka hdone)

/-- When a contract deals with the uses inside it, a use finds in the bases of the contract what it finds
there in the end, if the contract waits for a base or if this is found among the bases before it. -/
theorem Underway.inheritedNode?_eq_some (hstage : p.Stage pre τ)
    (hτ : τ.Grows (Growth.closeUses maxDepth c t₀))
    (hτ₀ : t₀.Grows τ)
    (hgrows : (Growth.closeUses maxDepth c t₀).Grows
      ((pre.foldl (Growth.settle maxDepth) g₀).settle maxDepth id).tree)
    (hdeals : c = id ∧ t₀ = (Growth.closeBases c (pre.foldl (Growth.settle maxDepth) g₀).tree).1 ∧
        (Growth.closeBases c (pre.foldl (Growth.settle maxDepth) g₀).tree).2 = true ∨
      c ∈ pre ∧ id = root)
    (hstem : s.stem = x.stem) {e : Handle} (he : t.alone.inherited? maxDepth (t.handle c) x = some e)
    (hknown : t.WaitsForBase c ∨
      (t.withBasesBefore c).alone.inherited? maxDepth (t.handle c) x = some e) :
    inheritedNode? maxDepth c τ s = some e.node := by
  have hturn := hway.at_turn maxDepth
  have hall : p.Stage (pre ++ id :: post) t := by
    rw [← ht]
    exact (hway.whole.foldl_settle maxDepth).complete.stage
  have hsize : c < t.size := by
    rw [size_stems hall.stems]
    exact lt_size_of_mem_ancestors (hway.rooted.root_mem_ancestors hc)
  have hrest : ∀ a ∈ id :: post, a ∉ pre := fun a ha hmem => hturn.not_mem_rest hmem ha
  rcases hdeals with ⟨hid, rfl, hcomplete⟩ | ⟨-, hroot⟩
  · have hsettle := (hτ₀.trans hτ).trans hgrows
    have hfound := hknown.resolve_left (by
      subst hid
      exact hway.not_waitsForBase ht hfree hcomplete hsettle)
    have hhierarchy := hway.hierarchyKnown_turn ht hfree hc hbefore hafter hid hcomplete hsettle hτ₀ hτ
    have hseen := t.grows_withBasesBefore c
    rw [hhierarchy.inheritedNode?_eq (by rwa [← size_stems hseen.stems]) hstage
      (hall.congr (t.outline_withBasesBefore c) rfl) hrest hstem, inheritedNode?]
    exact congrArg (Option.map Handle.node) hfound
  · have hhierarchy := hway.hierarchyKnown_last ht hfree hc hbefore hafter hroot
    rw [hhierarchy.inheritedNode?_eq hsize hstage hall hrest hstem, inheritedNode?, he]
    rfl

end Known

end Turn

/-! ## Whole texts -/

/-- All contracts are closed in the end. -/
theorem Underway.closed_last {g₀ : Growth} (hway : Underway p [] row g₀)
    (hc : p.kind? c = some .contractDefinition) :
    (row.foldl (Growth.settle maxDepth) g₀).Closed ([] ++ row) c := by
  have hlast := hway.whole.foldl_settle maxDepth
  have hmem : ∀ {a}, a < p.size → a ∈ [] ++ row := fun ha =>
    (hlast.all _ ha).resolve_right List.not_mem_nil
  have hlt : c < p.size := lt_size_of_mem_ancestors (hway.rooted.root_mem_ancestors hc)
  refine ⟨hmem hlt, ?_⟩
  rw [hlast.complete.closed (hmem (Nat.lt_of_le_of_lt (Nat.zero_le c) hlt))]
  exact List.not_mem_nil

/-- What the bases of a contract declare for a use inside it is what the use is linked to. -/
theorem Underway.found?_of_inherited {g₀ : Growth} (hway : Underway p [] row g₀)
    (hfree : ∀ u, g₀.tree.found? u = none)
    (ht : (row.foldl (Growth.settle maxDepth) g₀).tree = t) (hx : t.symbol? u = some x)
    (husage : x.isUsage = true) (hname : x.isByName = true) (hbase : t.isBaseName u = false)
    (hc : t.kind? c = some .contractDefinition) (hcu : c ∈ t.ancestors u) (hnot : ¬ t.MeantInside x u c)
    {e : Handle} (he : t.alone.inherited? maxDepth (t.handle c) x = some e)
    (hknown : t.WaitsForBase c ∨
      (t.withBasesBefore c).alone.inherited? maxDepth (t.handle c) x = some e) :
    t.found? u = some (t.alone.target x e) := by
  have hall := (hway.whole.foldl_settle maxDepth).complete.stage
  rw [ht] at hall
  have hstems := hall.stems
  obtain ⟨xp, hxp, hstem⟩ := exists_symbol?_stems hstems hx
  rw [kind?_stems hstems] at hc
  rw [ancestors_stems hstems] at hcu
  rw [isBaseName_stems hstems] at hbase
  rw [← Symbol.stem_isUsage hstem] at husage
  rw [← Symbol.stem_isByName hstem] at hname
  -- The turn in which the contract is closed.
  have hfirst : ¬ g₀.Closed [] c := fun h => absurd h.1 List.not_mem_nil
  have hlast : (row.foldl (Growth.settle maxDepth) g₀).Closed ([] ++ row) c := hway.closed_last hc
  obtain ⟨pre, id, post, rfl, hopen, hclosed⟩ := exists_closing hfirst hlast
  have hturn := hway.at_turn maxDepth
  obtain ⟨t₀, hbefore, houtline, hrecords, hgrows, hdeals, hpending⟩ :=
    hturn.exists_closeUses hopen hclosed hc
  have hgrows₀ := hrecords.grows_links (links_closeUses hrecords.nodup maxDepth c)
  have hend := hway.grows_last ht
  have hstage := hturn.complete.stage.congr houtline hbefore.handle
  -- The use is pending when the contract deals with it.
  have hu : u ∈ pre := by
    rcases hdeals with ⟨rfl, -⟩ | ⟨hmem, -⟩
    · exact (hturn.turn_head.mem_iff u).2 ⟨lt_size_of_symbol? hxp, .inl hcu⟩
    · exact hturn.inside hmem hcu
  have hnone : (pre.foldl (Growth.settle maxDepth) g₀).tree.found? u = none := by
    cases hfound : (pre.foldl (Growth.settle maxDepth) g₀).tree.found? u with
    | none => rfl
    | some a =>
        refine absurd (hway.closed_of_found hxp hstem hname hc hcu hbase hnot (hfree u) ?_ hfound) hopen
        exact ((hbefore.trans hgrows₀).trans hgrows).trans hend
  obtain ⟨v, hv, hstemv⟩ := exists_symbol?_stems hturn.complete.stage.stems.symm hxp
  have hmem := hturn.mem_pending hu hv (by rw [Symbol.stem_isUsage hstemv, husage]) hnone
  obtain ⟨w, hw, hstemw⟩ := exists_symbol?_stems hstage.stems.symm hxp
  have huse : u ∈ t₀.usesIn c := mem_usesIn.2 ⟨hpending u hmem hcu hbase,
    by rw [ancestors_stems hstage.stems]; exact hcu,
    ⟨w, hw, by rw [Symbol.stem_isByName hstemw, hname]⟩, by rw [isBaseName_stems hstage.stems, hbase]⟩
  -- What it finds is what it finds in the finished tree.
  obtain ⟨d, b, y, rfl, -, hk, hlisted, hd, -, -⟩ := exists_of_inherited? he
  obtain ⟨τ, s, -, hτ, hs, hfound⟩ := hrecords.exists_found?_closeUses maxDepth (d := d) huse
    fun τ s hτ₀ hτ houtlineτ hs => by
      have hτt := (hτ.trans hgrows).trans hend
      obtain ⟨x', hx', hstem'⟩ := exists_symbol?_stems hτt.stems.symm hs
      obtain rfl : x = x' := Option.some.inj (hx.symm.trans hx')
      exact hway.inheritedNode?_eq_some ht hfree hc (hbefore.trans hτ₀) hτt
        (hstage.congr houtlineτ hτ₀.handle) hτ hτ₀ hgrows hdeals hstem'.symm he hknown
  have hτt := (hτ.trans hgrows).trans hend
  have hplain : t.kind? d ≠ some .contractDefinition := fun hkd => by
    rw [hall.kind?_eq_of_contract hway.rooted (.inr hd) hkd] at hk
    cases hk
  have htarget : t.alone.target x (t.handle d) = t.handle d := by
    rw [target_alone, if_neg fun h => hplain h.2]
  have htarget' : τ.alone.target s (τ.handle d) = τ.handle d := by
    rw [target_alone, if_neg fun h => hplain (by rw [kind?_stems hτt.stems]; exact h.2)]
  rw [(hgrows.trans hend).declaration u _ hfound, htarget, htarget', hτt.handle]

/-- A use inside a contract that can mean nothing there is linked to what the bases of the contract
declare for it, if the contract waits for a base, or if the same is found without the bases that other
contracts name and that do not stand before it. -/
theorem declaration_eq_of_inherited (maxDepth file generation : Nat) (m : LineMap) (text : String)
    {t : SymbolTree} (ht : t = grow maxDepth file generation m (parse text).tree) {u c : NodeId}
    {x : Symbol} (hx : t.symbol? u = some x) (husage : x.isUsage = true) (hname : x.isByName = true)
    (hbase : t.isBaseName u = false) (hc : t.kind? c = some .contractDefinition)
    (hcu : c ∈ t.ancestors u) (hnot : ¬ t.MeantInside x u c) {d : Handle}
    (hd : t.alone.inherited? maxDepth (t.handle c) x = some d)
    (hknown : t.WaitsForBase c ∨
      (t.withBasesBefore c).alone.inherited? maxDepth (t.handle c) x = some d) :
    x.declaration = some (t.alone.target x d) := by
  have hfound := (underway_planted file generation m text).found?_of_inherited
    (found?_planted _ _ _ _) ht.symm hx husage hname hbase hc hcu hnot hd hknown
  rwa [found?, hx] at hfound

/-- A contract that waits for its base, which declares what a function of the file declares as well. -/
def waitingCallText : String :=
  "function ping() \x7b\x7d contract C is Base \x7b function f() public \x7b ping(); \x7d \x7d" ++
    " contract Base \x7b function ping() internal \x7b\x7d \x7d"

/-- The symbols of this text. -/
def waitingCall : SymbolTree :=
  grow defaultMaxDepth 0 1 (.ofText waitingCallText) (parse waitingCallText).tree

/-- A contract that does not wait although a base of its base stands behind it, which declares nothing. -/
def otherBaseBehindText : String :=
  "function ping() \x7b\x7d contract Base \x7b function ping() internal \x7b\x7d \x7d" ++
    " contract Mid is Base, Other \x7b\x7d" ++
    " contract C is Mid \x7b function f() public \x7b ping(); \x7d \x7d contract Other \x7b\x7d"

/-- The symbols of this text. -/
def otherBaseBehind : SymbolTree :=
  grow defaultMaxDepth 0 1 (.ofText otherBaseBehindText) (parse otherBaseBehindText).tree

/-- In the first text the contract waits for its base. In the second one it does not, and a base
that its base has stands behind it. -/
theorem declaration_waitingCall_and_otherBaseBehind :
    (∃ x d, waitingCall.symbol? 12 = some x ∧ waitingCall.WaitsForBase 4 ∧
      waitingCall.alone.inherited? defaultMaxDepth (waitingCall.handle 4) x = some d ∧
      x.declaration = some (waitingCall.alone.target x d)) ∧
    ∃ x d, otherBaseBehind.symbol? 21 = some x ∧ ¬ otherBaseBehind.WaitsForBase 13 ∧
      otherBaseBehind.alone.inherited? defaultMaxDepth (otherBaseBehind.handle 13) x = some d ∧
      x.declaration = some (otherBaseBehind.alone.target x d) := by
  constructor
  · have huse : ∃ x ∈ waitingCall.symbol? 12, x.isUsage = true ∧ x.isByName = true ∧
        waitingCall.isBaseName 12 = false ∧ waitingCall.kind? 4 = some .contractDefinition ∧
        4 ∈ waitingCall.ancestors 12 ∧ ¬ waitingCall.MeantInside x 12 4 ∧ waitingCall.WaitsForBase 4 ∧
        (waitingCall.alone.inherited? defaultMaxDepth (waitingCall.handle 4) x).isSome = true := by
      decide +kernel
    obtain ⟨x, hx, husage, hname, hbase, hc, hcu, hnot, hwaits, hsome⟩ := huse
    obtain ⟨d, hd⟩ := Option.isSome_iff_exists.1 hsome
    exact ⟨x, d, hx, hwaits, hd, declaration_eq_of_inherited _ _ _ _ _ rfl hx husage hname hbase hc hcu
      hnot hd (.inl hwaits)⟩
  · have huse : ∃ x ∈ otherBaseBehind.symbol? 21, x.isUsage = true ∧ x.isByName = true ∧
        otherBaseBehind.isBaseName 21 = false ∧ otherBaseBehind.kind? 13 = some .contractDefinition ∧
        13 ∈ otherBaseBehind.ancestors 21 ∧ ¬ otherBaseBehind.MeantInside x 21 13 ∧
        ¬ otherBaseBehind.WaitsForBase 13 ∧
        ∃ d ∈ otherBaseBehind.alone.inherited? defaultMaxDepth (otherBaseBehind.handle 13) x,
          (otherBaseBehind.withBasesBefore 13).alone.inherited? defaultMaxDepth
            (otherBaseBehind.handle 13) x = some d := by
      decide +kernel
    obtain ⟨x, hx, husage, hname, hbase, hc, hcu, hnot, hwaits, d, hd, hbefore⟩ := huse
    exact ⟨x, d, hx, hwaits, hd, declaration_eq_of_inherited _ _ _ _ _ rfl hx husage hname hbase hc hcu
      hnot hd (.inr hbefore)⟩

/-- Neither the contract and what stands around the use in it nor what these declare as members is
what the use can mean, but the use is not linked to what the bases of the contract declare for it. -/
def PassesOverInherited (t : SymbolTree) (u c : NodeId) : Prop :=
  ∃ x ∈ t.symbol? u, x.isUsage = true ∧ x.isByName = true ∧ t.isBaseName u = false ∧
    t.kind? c = some .contractDefinition ∧ c ∈ t.ancestors u ∧
    (∀ a ∈ t.ancestors u, a = c ∨ c ∈ t.ancestors a →
      (∀ y ∈ t.symbol? a, y.accepts x = false) ∧
        ∀ m ∈ t.members a, ∀ y ∈ t.symbol? m, y.accepts x = false) ∧
    ∃ d ∈ t.alone.inherited? defaultMaxDepth (t.handle c) x, x.declaration ≠ some (t.alone.target x d)

instance (t : SymbolTree) (u c : NodeId) : Decidable (t.PassesOverInherited u c) :=
  inferInstanceAs (Decidable (∃ x ∈ t.symbol? u, _))

/-- A contract that names a base before it, whose own base comes behind them. -/
def baseOfBaseBehind : SymbolTree :=
  let text := "function ping() \x7b\x7d\ncontract Mid is Base \x7b\x7d\n" ++
    "contract C is Mid \x7b function f() public \x7b ping(); \x7d \x7d\n" ++
    "contract Base \x7b function ping() internal \x7b\x7d \x7d"
  grow defaultMaxDepth 0 1 (.ofText text) (parse text).tree

/-- A variable that is declared where a branch holds no block, so that the block around the branch is
its scope without listing it as a member. -/
def variableWithoutBlock : SymbolTree :=
  let text := "contract Base \x7b uint y; \x7d\n" ++
    "contract C is Base \x7b function f() public \x7b y; if (true) uint y = 1; \x7d \x7d"
  grow defaultMaxDepth 0 1 (.ofText text) (parse text).tree

/-- Without the conditions on the bases, and with the members of a scope in the place of what has the
scope as its enclosing one, inherited declarations do not come first. -/
theorem passesOverInherited_of_either :
    baseOfBaseBehind.PassesOverInherited 15 7 ∧ variableWithoutBlock.PassesOverInherited 12 5 := by
  decide +kernel

end SymbolTree

end SolidityAtlas

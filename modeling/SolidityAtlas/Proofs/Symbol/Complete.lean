import SolidityAtlas.Proofs.Symbol.Accounted
import SolidityAtlas.Proofs.Symbol.Stage

/-!
# No declaration is overlooked

A use that is looked up by name finds a declaration if there is one it can mean at any
node around it, wherever the declaration stands in the text. The declaration may have been
settled before the use, and is found when the use is looked up; or it comes later, and
takes the use when its own turn comes.

Contracts stand in the way of both. A use is looked up no further than the contract it
stands in, and nothing from outside can be meant inside a contract that waits. So a use
may be pending although something declared around a contract accepts it; but then it is
*left* to that contract, which will be settled later, or waits and is dealt with at the end
of the file. This is the invariant (`Growth.Leaves`). When everything has been settled
there is no contract left to wait for.

## Main Definitions

* `SymbolTree.MeantBy`: what can be meant at a node so far
* `SymbolTree.LeftTo`: a use is left to a contract
* `Growth.Complete`: the invariant between two turns, and `Growth.During`: in the turn of a node

## Main Results

* `Growth.Complete.settle`: what settling one node keeps, from `Growth.Complete.during_close`,
  `Growth.During.record` and `Growth.During.whole`, one for each part of a turn
* `SymbolTree.isResolved_of_accepts`
-/

namespace SolidityAtlas

namespace SymbolTree

variable {t p : SymbolTree} {done : List NodeId}

/-- Something that a use can refer to is declared at a node, by the node itself or by what belongs to
it and has been settled. -/
def MeantBy (p : SymbolTree) (done : List NodeId) (x : Symbol) (s : NodeId) : Prop :=
  ∃ d y, (d = s ∨ d ∈ done ∧ p.Belongs d s) ∧ p.symbol? d = some y ∧ y.accepts x = true

/-- A node that declares nothing adds nothing that can be meant. -/
theorem MeantBy.of_append {id s : NodeId} {x z : Symbol} (h : p.MeantBy (done ++ [id]) x s)
    (hz : p.symbol? id = some z) (hnot : z.isDeclaration = false) : p.MeantBy done x s := by
  obtain ⟨d, y, hd, hy, haccepts⟩ := h
  refine ⟨d, y, hd.imp_right fun ⟨hmem, hbelongs⟩ => ⟨?_, hbelongs⟩, hy, haccepts⟩
  refine (List.mem_append.1 hmem).resolve_right fun hmem => ?_
  rw [List.mem_singleton.1 hmem, hz] at hy
  cases hy
  rw [Symbol.isDeclaration_of_accepts haccepts] at hnot
  cases hnot

/-- What is declared at `s` is left to a contract between `s` and a use: one that has not been
settled yet, or one that waits, unless the use names its base. -/
def LeftTo (p : SymbolTree) (settled waiting : List NodeId) (u s : NodeId) : Prop :=
  ∃ c, p.kind? c = some .contractDefinition ∧ c ∈ p.ancestors u ∧ s ∈ p.ancestors c ∧
    (c ∉ settled ∨ c ∈ waiting ∧ p.isBaseName u = false)

/-- A search through the nodes around a node finds what has been settled. -/
theorem Stage.exists_meantAt? (h : Stage p done t) {id : NodeId}
    (hid : ∀ k, p.kind? id = some k → k.isHolder = false)
    (hdone : ∀ d ∈ done, ∀ a ∈ p.ancestors d, a ≠ id → a ∉ p.ancestors id → a ∈ done)
    {v x : Symbol} (hstem : v.stem = x.stem) {s : NodeId} (hs : s ∈ p.ancestors id)
    (hmeant : p.MeantBy done x s) :
    ∃ s' ∈ p.ancestors id, (s' = s ∨ s ∈ p.ancestors s') ∧ t.meantAt? v s' ≠ none := by
  obtain ⟨d, y, hd, hy, haccepts⟩ := hmeant
  obtain ⟨y', hy', hstem'⟩ := exists_symbol?_stems h.stems.symm hy
  have haccepts' : y'.accepts v = true := by rw [Symbol.stem_accepts hstem' hstem, haccepts]
  have hfound : ∀ {s'}, d = s' ∨ d ∈ t.members s' → t.meantAt? v s' ≠ none := by
    intro s' hd hnone
    rw [not_accepts_of_meantAt? hnone hd hy'] at haccepts'
    cases haccepts'
  rcases hd with rfl | ⟨hmem, hbelongs⟩
  · exact ⟨d, hs, .inl rfl, hfound (.inl rfl)⟩
  · obtain ⟨s', hs', hin, hover⟩ := hbelongs.exists_around hs hid (hdone d hmem)
    have hmember := h.mem_members_iff.2 ⟨hmem, ⟨y, hy, Symbol.isDeclaration_of_accepts haccepts⟩, hover⟩
    exact ⟨s', hs', hin, hfound (.inr hmember)⟩

/-- What stands around a node stands inside the contract around the node, or is the contract, or
stands around that contract. -/
theorem mem_ancestorsInContract_or {s id : NodeId} (hs : s ∈ t.ancestors id) :
    s ∈ t.ancestorsInContract id ∨
      ∃ c ∈ t.ancestors id, t.kind? c = some .contractDefinition ∧ s ∈ t.ancestors c := by
  induction id using Nat.strongRecOn with
  | ind id ih =>
      obtain ⟨q, hq, hs⟩ := mem_ancestors_iff.1 hs
      rw [ancestorsInContract_of_parent hq]
      split
      · rename_i hk
        rcases hs with rfl | hs
        · exact .inl (List.mem_singleton.2 rfl)
        · exact .inr ⟨q, mem_ancestors_of_parent hq, hk, hs⟩
      · rcases hs with rfl | hs
        · exact .inl List.mem_cons_self
        · rcases ih q (parent?_lt hq) hs with hmem | ⟨c, hc, hk, hsc⟩
          · exact .inl (List.mem_cons_of_mem _ hmem)
          · exact .inr ⟨c, mem_ancestors_trans hc (mem_ancestors_of_parent hq), hk, hsc⟩

/-- The scopes around a contract that has not been settled leave the uses inside to it. -/
theorem LeftTo.of_not_mem {settled waiting : List NodeId} {u s c : NodeId}
    (hk : p.kind? c = some .contractDefinition) (hc : c ∈ p.ancestors u) (hs : s ∈ p.ancestors c)
    (hnot : c ∉ settled) : p.LeftTo settled waiting u s :=
  ⟨c, hk, hc, hs, .inl hnot⟩

end SymbolTree

namespace Growth

variable {p : SymbolTree} {done settled : List NodeId} {g : Growth} {maxDepth : Nat} {id : NodeId}

/-- What a pending use can mean is left to a contract. -/
def Leaves (p : SymbolTree) (done settled : List NodeId) (g : Growth) : Prop :=
  ∀ u ∈ g.tree.pending, ∀ x, p.symbol? u = some x → x.isByName = true → ∀ s ∈ p.ancestors u,
    p.MeantBy done x s → p.LeftTo settled g.waiting u s

/-- Nothing that has been settled is overlooked. -/
structure Complete (p : SymbolTree) (done : List NodeId) (g : Growth) : Prop where
  stage : p.Stage done g.tree
  nodup : g.tree.pending.Nodup
  waiting : ∀ c ∈ g.waiting, c ∈ done ∧ p.kind? c = some .contractDefinition
  /-- The end of the file leaves no contract waiting. -/
  closed : SymbolTree.root ∈ done → g.waiting = []
  leaves : g.Leaves p done done

/-! ## Contracts -/

/-- A contract deals with what was left to it, or it waits. -/
theorem Complete.leaves_close (h : g.Complete p done) (hturn : p.Turn done id)
    (hk : p.kind? id = some .contractDefinition) :
    (g.close maxDepth id).Leaves p done (done ++ [id]) := by
  intro u hu x hx hname s hs hmeant
  have hlinks := links_close maxDepth h.nodup id
  have hwaiting : ∀ c ∈ g.waiting, c ∈ (g.close maxDepth id).waiting := by
    intro c hc
    rcases g.close_cases maxDepth id with ⟨-, heq⟩ | ⟨-, heq⟩
    · rw [heq]
      exact hc
    · rw [heq]
      exact List.mem_append_left _ hc
  obtain ⟨c, hkc, hcu, hsc, hleft⟩ := h.leaves u (hlinks.mem_pending_of_mem hu) x hx hname s hs hmeant
  rcases hleft with hnot | ⟨hc, hbase⟩
  · by_cases heq : c = id
    · subst heq
      obtain ⟨v, hv, hstem⟩ := SymbolTree.exists_symbol?_stems h.stage.stems.symm hx
      -- A search around the contract would have found what the use means.
      have hfound : g.tree.meantAround? v c ≠ none := by
        obtain ⟨s', hs', -, hmeant⟩ := h.stage.exists_meantAt? (fun k hk' => by
          rw [hk] at hk'
          cases hk'
          rfl) (fun d hd a ha => hturn.mem_of_mem_ancestors hd ha) hstem hsc hmeant
        rw [← SymbolTree.ancestors_stems h.stage.stems] at hs'
        exact fun hnone => hmeant (SymbolTree.meantAt?_eq_none_of_meantAround? hnone hs')
      have hcu' : c ∈ g.tree.ancestors u := by
        rw [SymbolTree.ancestors_stems h.stage.stems]
        exact hcu
      have hname' : v.isByName = true := by rw [Symbol.stem_isByName hstem, hname]
      have hbases := SymbolTree.links_closeBases h.nodup c
      rcases g.close_cases maxDepth c with ⟨-, hclose⟩ | ⟨-, hclose⟩ <;>
        rw [hclose] at hu ⊢ <;> cases hbase : g.tree.isBaseName u
      · obtain ⟨v', hv', hbare⟩ := SymbolTree.symbol?_of_outline hbases.outline_eq.symm hv
        refine absurd ?_ hfound
        rw [SymbolTree.meantAround?_congr hbases.outline_eq.symm hbare]
        refine SymbolTree.meantAround?_of_left_closeUses (hbases.nodup_pending h.nodup) hu hv' ?_ ?_ ?_
        · rw [SymbolTree.ancestors_congr hbases.outline_eq]
          exact hcu'
        · rw [← Symbol.isByName_congr hbare, hname']
        · rw [SymbolTree.isBaseName_congr hbases.outline_eq, hbase]
      · have huses := SymbolTree.links_closeUses (hbases.nodup_pending h.nodup) maxDepth c
        exact absurd (SymbolTree.meantAround?_of_left_closeBases h.nodup (huses.mem_pending_of_mem hu)
          hv hcu' hname' hbase).1 hfound
      · rw [SymbolTree.isBaseName_stems h.stage.stems] at hbase
        exact ⟨c, hkc, hcu, hsc, .inr ⟨List.mem_append_right _ List.mem_cons_self, hbase⟩⟩
      · exact absurd (SymbolTree.meantAround?_of_left_closeBases h.nodup hu hv hcu' hname' hbase).1
          hfound
    · refine .of_not_mem hkc hcu hsc fun hmem => ?_
      rcases List.mem_append.1 hmem with hmem | hmem
      · exact hnot hmem
      · exact heq (List.mem_singleton.1 hmem)
  · exact ⟨c, hkc, hcu, hsc, .inr ⟨hwaiting c hc, hbase⟩⟩

/-! ## Declarations -/

/-- A declaration that uses can mean stands in a scope. -/
theorem exists_enclosingScope? (hroot : p.Rooted) {d : NodeId} {y : Symbol} (hy : p.symbol? d = some y)
    (hdeclares : y.isDeclaration = true) : ∃ scope, p.enclosingScope? d = some scope := by
  have hne : d ≠ SymbolTree.root := by
    rintro rfl
    have hkind := hroot.kind
    rw [SymbolTree.kind?, hy, Option.map_some] at hkind
    rw [Symbol.isDeclaration, Option.some.inj hkind] at hdeclares
    exact Bool.noConfusion (Bool.and_eq_true_iff.1 hdeclares).2
  refine Option.isSome_iff_exists.1 (List.find?_isSome.2 ⟨SymbolTree.root,
    hroot.around d (SymbolTree.lt_size_of_symbol? hy) hne, ?_⟩)
  rw [hroot.kind]
  rfl

/-- What a declaration leaves pending is left to a contract that waits. -/
theorem leaves_claim (hroot : p.Rooted) (hturn : p.Turn done id) (hstage : p.Stage done g.tree)
    (hnodup : g.tree.pending.Nodup)
    (hwaiting : ∀ c ∈ g.waiting, (c ∈ done ∨ c = id) ∧ p.kind? c = some .contractDefinition)
    (hleaves : g.Leaves p done (done ++ [id])) {z : Symbol} (hz : p.symbol? id = some z)
    (hdeclares : z.isDeclaration = true) :
    ((g.declare id).claim id).Leaves p (done ++ [id]) (done ++ [id]) := by
  intro u hu x hx hname s hs hmeant
  have houtline := outline_declare g id
  have hstage' : p.Stage done (g.declare id).tree := hstage.congr houtline rfl
  have hu' : u ∈ (g.declare id).tree.pending := (links_claim (g := g.declare id) hnodup id).mem_pending_of_mem hu
  have hearlier := hleaves u hu' x hx hname s hs
  have hwaiting' : ((g.declare id).claim id).waiting = g.waiting := waiting_claim (g := g.declare id) id
  rw [hwaiting']
  obtain ⟨d, y, hd, hy, haccepts⟩ := hmeant
  rcases hd with rfl | ⟨hmem, hbelongs⟩
  · exact hearlier ⟨d, y, .inl rfl, hy, haccepts⟩
  rcases List.mem_append.1 hmem with hmem | hmem
  · exact hearlier ⟨d, y, .inr ⟨hmem, hbelongs⟩, hy, haccepts⟩
  obtain rfl := List.mem_singleton.1 hmem
  -- The use stands in the scope of the new declaration, so something holds it back.
  obtain ⟨scope, hscope⟩ := exists_enclosingScope? hroot hz hdeclares
  have hin : scope ∈ p.ancestors u := by
    rcases hbelongs.enclosingScope? hscope with rfl | hmem
    · exact hs
    · exact SymbolTree.mem_ancestors_trans hmem hs
  have hheld : (g.declare d).isHeld u = true := by
    by_contra hnot
    obtain ⟨y', hy', hstem⟩ := SymbolTree.exists_symbol?_stems hstage'.stems.symm hy
    obtain ⟨v, hv, hstem'⟩ := SymbolTree.exists_symbol?_stems hstage'.stems.symm hx
    refine not_mem_pending_claim (g := g.declare d) hnodup ⟨scope, y', v, ?_, hy', hu', ?_, hv, ?_, ?_,
      Bool.eq_false_iff.2 hnot⟩ hu
    · rw [SymbolTree.enclosingScope?_stems hstage'.stems, hscope]
    · rw [SymbolTree.ancestors_stems hstage'.stems]
      exact hin
    · rw [Symbol.stem_isByName hstem', hname]
    · rw [Symbol.stem_accepts hstem hstem', haccepts]
  rw [isHeld, Bool.and_eq_true, Bool.not_eq_true', List.any_eq_true,
    SymbolTree.isBaseName_stems hstage'.stems] at hheld
  obtain ⟨hbase, c, hc, hcu⟩ := hheld
  rw [SymbolTree.isInside_iff, SymbolTree.ancestors_stems hstage'.stems] at hcu
  obtain ⟨hcdone, hk⟩ := hwaiting c hc
  have hds := hbelongs.mem_ancestors
  refine ⟨c, hk, hcu, ?_, .inr ⟨hc, hbase⟩⟩
  -- The contract has been settled, so it does not stand around the declaration.
  have hnot : c ∉ p.ancestors d := fun hmem => by
    rcases hcdone with hcdone | rfl
    · exact hturn.not_mem_of_mem_ancestors hmem hcdone
    · exact Nat.lt_irrefl _ (SymbolTree.lt_of_mem_ancestors hmem)
  rcases SymbolTree.eq_or_mem_ancestors hs hcu with rfl | hmem | hmem
  · exact absurd hds hnot
  · exact hmem
  · exact absurd (SymbolTree.mem_ancestors_trans hmem hds) hnot

/-! ## Uses -/

/-- What a use can mean when its turn comes is found, or left to the contract it stands in. -/
theorem leaves_lookUp (hturn : p.Turn done id) (hstage : p.Stage done g.tree)
    (hleaves : g.Leaves p done (done ++ [id])) {z w : Symbol} (hz : p.symbol? id = some z)
    (hstem : w.stem = z.stem) (husage : z.isUsage = true) (hnot : z.isDeclaration = false) :
    (g.lookUp id w).Leaves p (done ++ [id]) (done ++ [id]) := by
  intro u hu x hx hname s hs hmeant
  have hearlier := hmeant.of_append hz hnot
  rcases g.lookUp_cases id w with ⟨d, -, -, heq⟩ | ⟨hnone, heq⟩
  · rw [heq] at hu ⊢
    obtain ⟨v, hv, -⟩ := SymbolTree.exists_symbol?_stems hstage.stems.symm hz
    have hpending : (g.tree.connectTo id d).pending = g.tree.pending.erase id :=
      SymbolTree.pending_connect hv _
    rw [hpending] at hu
    exact hleaves u (List.mem_of_mem_erase hu) x hx hname s hs hearlier
  · rw [heq] at hu ⊢
    rcases mem_appendNew.1 hu with hu | rfl
    · exact hleaves u hu x hx hname s hs hearlier
    · obtain rfl : z = x := Option.some.inj (hz.symm.trans hx)
      have hnone := hnone (by rw [Symbol.stem_isByName hstem, hname])
      obtain ⟨s', hs', hin, hfound⟩ := hstage.exists_meantAt? (fun k hk => by
        rw [SymbolTree.kind?, hz, Option.map_some] at hk
        cases hk
        exact Symbol.isHolder_eq_false_of_isUsage husage)
        (fun d hd a ha => hturn.mem_of_mem_ancestors hd ha) hstem hs hearlier
      rcases SymbolTree.mem_ancestorsInContract_or hs' with hmem | ⟨c, hc, hk, hsc⟩
      · rw [← SymbolTree.ancestorsInContract_stems hstage.stems] at hmem
        exact absurd (List.findSome?_eq_none_iff.1 hnone s' hmem) hfound
      · refine .of_not_mem hk hc ?_ fun hmem => ?_
        · rcases hin with rfl | hin
          · exact hsc
          · exact SymbolTree.mem_ancestors_trans hin hsc
        · rcases List.mem_append.1 hmem with hmem | hmem
          · exact hturn.not_mem_of_mem_ancestors hc hmem
          · rw [List.mem_singleton.1 hmem] at hc
            exact Nat.lt_irrefl _ (SymbolTree.lt_of_mem_ancestors hc)

/-! ## The end of the file -/

/-- When the file has been settled, nothing that a pending use could mean is left. -/
theorem leaves_closeWaiting (hroot : p.Rooted) (hturn : p.Turn done SymbolTree.root)
    (hstage : p.Stage done g.tree) (hnodup : g.tree.pending.Nodup)
    (hleaves : g.Leaves p (done ++ [SymbolTree.root]) (done ++ [SymbolTree.root])) {z : Symbol}
    (hz : p.symbol? SymbolTree.root = some z) (hnot : z.isDeclaration = false) :
    (⟨(g.closeWaiting maxDepth).tree.connectMembers maxDepth, []⟩ : Growth).Leaves p
      (done ++ [SymbolTree.root]) (done ++ [SymbolTree.root]) := by
  intro u hu x hx hname s hs hmeant
  have hwaiting := links_closeWaiting maxDepth hnodup
  have hmembers := SymbolTree.links_connectMembers (hwaiting.nodup_pending hnodup) maxDepth
  have hu := hmembers.mem_pending_of_mem hu
  obtain ⟨c, hk, hcu, hsc, hleft⟩ := hleaves u (hwaiting.mem_pending_of_mem hu) x hx hname s hs hmeant
  have hne : c ≠ SymbolTree.root := fun heq => by
    rw [heq] at hsc
    exact Nat.not_lt_zero _ (SymbolTree.lt_of_mem_ancestors hsc)
  have hsize := SymbolTree.lt_size_of_mem_ancestors hsc
  obtain ⟨hc, hbase⟩ := hleft.resolve_left fun hnot =>
    hnot (List.mem_append_left _ (hturn.mem_of_ne_root hroot hsize hne))
  obtain ⟨v, hv, hstem⟩ := SymbolTree.exists_symbol?_stems hstage.stems.symm hx
  obtain ⟨s', hs', -, hfound⟩ := hstage.exists_meantAt? (fun k hk' => by
      rw [hk] at hk'
      cases hk'
      rfl) (fun d hd a ha hac hnot => hturn.mem_of_ne_root hroot
        (Nat.lt_trans (SymbolTree.lt_of_mem_ancestors ha) ((hturn.2 d).1 hd).1)
        fun heq => hnot (heq ▸ hroot.around c hsize hne)) hstem hsc (hmeant.of_append hz ‹_›)
  rw [← SymbolTree.ancestors_stems hstage.stems] at hs'
  refine absurd (SymbolTree.meantAt?_eq_none_of_meantAround?
    (meantAround?_of_left_closeWaiting hnodup hu hc hv ?_ ?_ ?_) hs') hfound
  · rw [SymbolTree.ancestors_stems hstage.stems]
    exact hcu
  · rw [Symbol.stem_isByName hstem, hname]
  · rw [SymbolTree.isBaseName_stems hstage.stems, hbase]

/-! ## One node after the other -/

/-- What holds while a node is dealt with: what the nodes `found` declare, and pending uses can mean, is
left to contracts other than the node, or the node waits. -/
structure During (p : SymbolTree) (done found : List NodeId) (id : NodeId) (g : Growth) : Prop where
  stage : p.Stage done g.tree
  nodup : g.tree.pending.Nodup
  waiting : ∀ c ∈ g.waiting, (c ∈ done ∨ c = id) ∧ p.kind? c = some .contractDefinition
  leaves : g.Leaves p found (done ++ [id])

/-- The contract comes first. -/
theorem Complete.during_close (h : g.Complete p done) (hturn : p.Turn done id) {k : NodeKind}
    (hk : p.kind? id = some k) {g₁ : Growth}
    (hclose : k = .contractDefinition ∧ g₁ = g.close maxDepth id ∨ k ≠ .contractDefinition ∧ g₁ = g) :
    During p done done id g₁ := by
  have hwaiting : ∀ c ∈ g.waiting, (c ∈ done ∨ c = id) ∧ p.kind? c = some .contractDefinition :=
    fun c hc => (h.waiting c hc).imp_left .inl
  rcases hclose with ⟨rfl, rfl⟩ | ⟨hne, rfl⟩
  · have hlinks := links_close maxDepth h.nodup id
    refine ⟨h.stage.congr hlinks.outline_eq hlinks.handle_eq, hlinks.nodup_pending h.nodup, ?_,
      h.leaves_close hturn hk⟩
    intro c hc
    rcases g.close_cases maxDepth id with ⟨-, heq⟩ | ⟨-, heq⟩ <;> rw [heq] at hc
    · exact hwaiting c hc
    · rcases List.mem_append.1 hc with hc | hc
      · exact hwaiting c hc
      · rw [List.mem_singleton.1 hc]
        exact ⟨.inr rfl, hk⟩
  · refine ⟨h.stage, h.nodup, hwaiting, ?_⟩
    intro u hu x hx hname s hs hmeant
    obtain ⟨c, hkc, hcu, hsc, hleft⟩ := h.leaves u hu x hx hname s hs hmeant
    refine ⟨c, hkc, hcu, hsc, hleft.imp_left fun hnot hmem => ?_⟩
    rcases List.mem_append.1 hmem with hmem | hmem
    · exact hnot hmem
    · rw [List.mem_singleton.1 hmem, hk] at hkc
      exact hne (Option.some.inj hkc)

/-- Then the declaration, or the use, or neither. -/
theorem During.record {g₁ g₂ g₃ : Growth} (h : During p done done id g₁) (hroot : p.Rooted)
    (hturn : p.Turn done id) {z w : Symbol} (hz : p.symbol? id = some z) (hstem : w.stem = z.stem)
    (hdeclare : z.isDeclaration = true ∧ g₂ = (g₁.declare id).claim id ∨
      z.isDeclaration = false ∧ g₂ = g₁)
    (hlookUp : z.isUsage = true ∧ g₃ = g₂.lookUp id w ∨ z.isUsage = false ∧ g₃ = g₂) :
    During p done (done ++ [id]) id g₃ := by
  rcases hdeclare with ⟨hd, rfl⟩ | ⟨hd, rfl⟩
  · have hu := Symbol.isUsage_eq_false_of_isDeclaration hd
    obtain rfl : g₃ = (g₁.declare id).claim id :=
      (hlookUp.resolve_left fun hand => by rw [hu] at hand; cases hand.1).2
    have hlinks := links_claim (g := g₁.declare id) h.nodup id
    have hwaiting : ((g₁.declare id).claim id).waiting = g₁.waiting := waiting_claim (g := g₁.declare id) id
    exact ⟨(h.stage.congr (outline_declare g₁ id) rfl).congr hlinks.outline_eq hlinks.handle_eq,
      hlinks.nodup_pending h.nodup, hwaiting ▸ h.waiting,
      leaves_claim hroot hturn h.stage h.nodup h.waiting h.leaves hz hd⟩
  · rcases hlookUp with ⟨hu, rfl⟩ | ⟨hu, rfl⟩
    · have hleaves := leaves_lookUp hturn h.stage h.leaves hz hstem hu hd
      obtain ⟨v, hv, -⟩ := SymbolTree.exists_symbol?_stems h.stage.stems.symm hz
      rcases g₂.lookUp_cases id w with ⟨d, -, -, heq⟩ | ⟨-, heq⟩ <;> rw [heq] at hleaves ⊢
      · have hpending : (g₂.tree.connectTo id d).pending = g₂.tree.pending.erase id :=
          SymbolTree.pending_connect hv _
        exact ⟨h.stage.congr (SymbolTree.outline_connectTo _ _ _) (SymbolTree.handle_connect _ _ _),
          hpending ▸ h.nodup.erase id, h.waiting, hleaves⟩
      · exact ⟨h.stage.congr rfl rfl, nodup_appendNew id h.nodup, h.waiting, hleaves⟩
    · exact ⟨h.stage, h.nodup, h.waiting, fun u hu x hx hname s hs hmeant =>
        h.leaves u hu x hx hname s hs (hmeant.of_append hz hd)⟩

/-- Last the file, if the node is the file. -/
theorem During.whole {g' : Growth} (h : During p done (done ++ [id]) id g) (hroot : p.Rooted)
    (hturn : p.Turn done id) {z : Symbol} (hz : p.symbol? id = some z)
    (hwhole : z.kind = .sourceUnit ∧ g' = ⟨(g.closeWaiting maxDepth).tree.connectMembers maxDepth, []⟩ ∨
      z.kind ≠ .sourceUnit ∧ g' = g) :
    g'.tree.pending.Nodup ∧
      (∀ c ∈ g'.waiting, c ∈ done ++ [id] ∧ p.kind? c = some .contractDefinition) ∧
      (SymbolTree.root ∈ done ++ [id] → g'.waiting = []) ∧ g'.Leaves p (done ++ [id]) (done ++ [id]) := by
  have hkind : p.kind? id = some z.kind := by rw [SymbolTree.kind?, hz, Option.map_some]
  rcases hwhole with ⟨hk, rfl⟩ | ⟨hk, rfl⟩
  · have hid : id = SymbolTree.root := hroot.unique id (by rw [hkind, hk])
    have hd : z.isDeclaration = false := by
      rw [Symbol.isDeclaration, hk]
      exact Bool.and_false _
    have hwaiting := links_closeWaiting maxDepth h.nodup
    have hmembers := SymbolTree.links_connectMembers (hwaiting.nodup_pending h.nodup) maxDepth
    subst hid
    exact ⟨hmembers.nodup_pending (hwaiting.nodup_pending h.nodup), fun c hc => absurd hc List.not_mem_nil,
      fun _ => rfl, leaves_closeWaiting hroot hturn h.stage h.nodup h.leaves hz hd⟩
  · have hne : id ≠ SymbolTree.root := fun heq => by
      rw [heq, hroot.kind] at hkind
      exact hk (Option.some.inj hkind).symm
    refine ⟨h.nodup, fun c hc => ?_, fun hmem => ?_, h.leaves⟩
    · rw [List.mem_append, List.mem_singleton]
      exact h.waiting c hc
    · rcases List.mem_append.1 hmem with hmem | hmem
      · exact absurd hmem (hturn.not_mem_of_mem_ancestors (hroot.around id hturn.1 hne))
      · exact absurd (List.mem_singleton.1 hmem).symm hne

/-- Settling a node overlooks nothing. -/
theorem Complete.settle (hroot : p.Rooted) (hturn : p.Turn done id) (h : g.Complete p done) :
    (g.settle maxDepth id).Complete p (done ++ [id]) := by
  obtain ⟨z, hz⟩ := SymbolTree.exists_symbol?_of_lt hturn.1
  obtain ⟨w, hw, hstem⟩ := SymbolTree.exists_symbol?_stems h.stage.stems.symm hz
  obtain ⟨g₁, g₂, g₃, hclose, hdeclare, hlookUp, hwhole⟩ := g.accept_cases maxDepth hw
  have hkind : p.kind? id = some z.kind := by rw [SymbolTree.kind?, hz, Option.map_some]
  rw [Symbol.stem_kind hstem] at hclose hwhole
  rw [Symbol.stem_isDeclaration hstem] at hdeclare
  rw [Symbol.stem_isUsage hstem] at hlookUp
  have hduring := (h.during_close hturn hkind hclose).record hroot hturn hz hstem hdeclare hlookUp
  obtain ⟨hnodup, hcontracts, hclosed, hleaves⟩ := hduring.whole hroot hturn hz hwhole
  obtain ⟨hpending, hwaiting⟩ := settle_eq maxDepth g id
  rw [← hwaiting] at hcontracts hclosed
  refine ⟨h.stage.settle maxDepth id, hpending ▸ hnodup, hcontracts, hclosed, fun u hu => ?_⟩
  rw [hpending] at hu
  rw [hwaiting]
  exact hleaves u hu

end Growth

namespace SymbolTree

/-- Before anything has been settled nothing can be overlooked. -/
theorem complete_planted (file generation : Nat) (m : LineMap) (tree : SyntaxTree) :
    Growth.Complete (planted file generation m tree) [] ⟨planted file generation m tree, []⟩ :=
  ⟨stage_planted _ _ _ _, List.nodup_nil, fun _ hc => absurd hc List.not_mem_nil, fun _ => rfl,
    fun _ hu => absurd hu List.not_mem_nil⟩

/-- Whatever the text, what it is grown into is complete. -/
theorem complete_grow (maxDepth file generation : Nat) (m : LineMap) (text : String) :
    Growth.Complete (planted file generation m (parse text).tree) (settlingOrder 0 (parse text).tree)
      ((settlingOrder 0 (parse text).tree).foldl (Growth.settle maxDepth)
        ⟨planted file generation m (parse text).tree, []⟩) := by
  have hroot := rooted_planted file generation m text
  suffices hsuffix : ∀ (rest done : List NodeId) (g : Growth),
      settlingOrder 0 (parse text).tree = done ++ rest →
      g.Complete (planted file generation m (parse text).tree) done →
      (rest.foldl (Growth.settle maxDepth) g).Complete (planted file generation m (parse text).tree)
        (settlingOrder 0 (parse text).tree) from
    hsuffix _ [] _ rfl (complete_planted _ _ _ _)
  intro rest
  induction rest with
  | nil =>
      intro done g horder h
      rw [List.append_nil] at horder
      rw [horder]
      exact h
  | cons id rest ih =>
      intro done g horder h
      refine ih (done ++ [id]) _ ?_ (h.settle hroot (turn_of_append horder))
      rw [horder, List.append_assoc]
      rfl

/-- A use of a text that is looked up by name is linked if a node around it, or a declaration that
belongs to such a node, can be what the use refers to. -/
theorem isResolved_of_accepts (maxDepth file generation : Nat) (m : LineMap) (text : String)
    {u s d : NodeId} {x y : Symbol}
    (hx : (grow maxDepth file generation m (parse text).tree).symbol? u = some x)
    (husage : x.isUsage = true) (hname : x.isByName = true)
    (hs : s ∈ (grow maxDepth file generation m (parse text).tree).ancestors u)
    (hd : d = s ∨ d ∈ (grow maxDepth file generation m (parse text).tree).members s)
    (hy : (grow maxDepth file generation m (parse text).tree).symbol? d = some y)
    (haccepts : y.accepts x = true) : x.isResolved = true := by
  have hcomplete := complete_grow maxDepth file generation m text
  have hrecords := accountedBut_grow maxDepth file generation m (parse text).tree
  rcases (hrecords.recorded u x hx not_false).usage husage with ⟨hu, -⟩ | ⟨-, e, he, -⟩
  · -- A pending use is left to a contract, but all contracts have been settled.
    obtain ⟨x', hx', hstem⟩ := exists_symbol?_stems hcomplete.stage.stems hx
    obtain ⟨y', hy', hstem'⟩ := exists_symbol?_stems hcomplete.stage.stems hy
    have hs' : s ∈ (planted file generation m (parse text).tree).ancestors u := by
      rw [← ancestors_stems hcomplete.stage.stems]
      exact hs
    have hmeant : (planted file generation m (parse text).tree).MeantBy
        (settlingOrder 0 (parse text).tree) x' s := by
      refine ⟨d, y', hd.imp_right fun hd => ?_, hy', ?_⟩
      · obtain ⟨hmem, -, hover⟩ := hcomplete.stage.mem_members_iff.1 hd
        exact ⟨hmem, hover.belongs⟩
      · rw [Symbol.stem_accepts hstem' hstem, haccepts]
    obtain ⟨c, -, -, hsc, hleft⟩ := hcomplete.leaves u hu x' hx'
      (by rw [Symbol.stem_isByName hstem, hname]) s hs' hmeant
    have hsettled : ∀ {a}, a < (planted file generation m (parse text).tree).size →
        a ∈ settlingOrder 0 (parse text).tree := mem_settlingOrder_planted.2
    rcases hleft with hnot | ⟨hc, -⟩
    · exact absurd (hsettled (lt_size_of_mem_ancestors hsc)) hnot
    · rw [hcomplete.closed (hsettled (Nat.lt_of_le_of_lt (Nat.zero_le _)
        (lt_size_of_mem_ancestors hsc)))] at hc
      cases hc
  · rw [Symbol.isResolved, he]
    rfl

/-- A function that is called before it is declared. -/
def forwardCall : SymbolTree :=
  grow defaultMaxDepth 0 1 (.ofText "") (parse
    "contract C \x7b function f() public \x7b g(); \x7d function g() internal \x7b\x7d \x7d").tree

/-- A call of a function that is declared later in the contract is resolved. -/
theorem isResolved_forwardCall : (forwardCall.symbol? 7).any Symbol.isResolved = true := by
  have hplaces : 1 ∈ forwardCall.ancestors 7 ∧ 9 ∈ forwardCall.members 1 ∧
      (forwardCall.symbol? 7).any (fun x => x.isUsage && x.isByName &&
        (forwardCall.symbol? 9).any (·.accepts x)) = true := by
    decide +kernel
  obtain ⟨hs, hd, hany⟩ := hplaces
  obtain ⟨x, hx, hany⟩ := (Option.any_eq_true _ _).1 hany
  simp only [Bool.and_eq_true, Option.any_eq_true] at hany
  obtain ⟨⟨husage, hname⟩, y, hy, haccepts⟩ := hany
  exact (Option.any_eq_true _ _).2 ⟨x, hx, isResolved_of_accepts _ _ _ _ _ hx husage hname hs
    (.inr hd) hy haccepts⟩

end SymbolTree

end SolidityAtlas

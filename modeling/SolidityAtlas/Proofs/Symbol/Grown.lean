import SolidityAtlas.Proofs.Symbol.Reading

/-!
# Two readings grow alike

The nodes of a text are settled one after the other. Here each step of that is
followed in two readings of the text, and from the steps it is concluded that the
readings are twins at the end.

A node is settled once, because the settling order names each node once
(`nodup_settlingOrder`). This is what makes sure that no use is linked twice.

## Main Results

* `Growth.Twin.settle`: what settling one node keeps
* `SymbolTree.twin_grow`: two readings of one text are twins
* `SymbolTree.grown_grow`: what a text is grown into lists exactly the links it has
-/

namespace SolidityAtlas

/-! ## Changes that leave the links alone -/

/-- Exactness rests on links and back links only. -/
theorem Forest.Exact.of_symbol? {f f' : Forest} (h : f.Exact) {k : Handle → Symbol → Symbol}
    (hsymbol : ∀ a, f'.symbol? a = (f.symbol? a).map (k a))
    (hdeclaration : ∀ a s, (k a s).declaration = s.declaration)
    (hreferences : ∀ a s, (k a s).references = s.references) : f'.Exact := by
  intro u d
  have hlists : f'.Lists d u ↔ f.Lists d u := by
    unfold Forest.Lists
    rw [hsymbol]
    cases f.symbol? d with
    | none => simp
    | some s => simp [hreferences]
  have hlinked : f'.declaration? u = f.declaration? u := by
    rw [declaration?, declaration?, hsymbol]
    cases f.symbol? u with
    | none => rfl
    | some s => simp [hdeclaration]
  rw [hlists, hlinked, h u d]

namespace SymbolTree

variable {t u : SymbolTree} {rest : NodeId → Prop}

/-- A change that only touches links is not seen in the outline. -/
theorem outline_modify_comm (t : SymbolTree) (id : NodeId) {f : Symbol → Symbol}
    (hf : ∀ s, (f s).bare = f s.bare) : (t.modify id f).outline = t.outline.modify id f := by
  simp only [outline, modify, array_map_modify hf]

/-- The outline of an attached member is the attached member of the outline. -/
theorem outline_attach (t : SymbolTree) (parent child : NodeId) :
    (t.attach parent child).outline = t.outline.attach parent child :=
  t.outline_modify_comm parent fun _ => rfl

namespace Twin

theorem weaken {rest' : NodeId → Prop} (h : Twin rest' t u) (hrest : ∀ id, rest id → rest' id) :
    Twin rest t u :=
  ⟨⟨h.tidy, h.exact, h.external, fun id hid => h.unsettled id (hrest id hid)⟩, h.agree, h.pending⟩

/-- The same change on both sides, which brings in no handle of another node. -/
theorem modify (h : Twin rest t u) (id : NodeId) {f g : Symbol → Symbol}
    (houtline : (t.modify id f).outline = (u.modify id g).outline)
    (hf : ∀ s, (f s).declaration = s.declaration) (hg : ∀ s, (g s).declaration = s.declaration)
    (hreferences : ∀ s, (f s).references = s.references)
    (htype : ∀ s, ∀ x ∈ (f s).declaredType, x ∈ s.declaredType ∨ x = t.handle id) :
    Twin rest (t.modify id f) (u.modify id g) := by
  have hdeclaration : ∀ {t : SymbolTree} {f : Symbol → Symbol} {other x},
      (∀ s, (f s).declaration = s.declaration) → (t.modify id f).symbol? other = some x →
      ∃ y, t.symbol? other = some y ∧ x.declaration = y.declaration := by
    intro t f other x hf hx
    rw [symbol?_modify] at hx
    obtain ⟨y, hy, rfl⟩ := Option.map_eq_some_iff.1 hx
    refine ⟨y, hy, ?_⟩
    split
    · exact hf y
    · rfl
  refine ⟨⟨?_, ?_, h.external, fun other hother => ⟨(h.unsettled other hother).1, fun x hx => ?_⟩⟩,
    ⟨houtline, fun other x y hx hy => ?_⟩, h.pending⟩
  · refine h.tidy.map (t.symbol?_modify id f) rfl rfl rfl rfl ?_ ?_ ?_
    · intro other s
      split
      · exact hf s
      · rfl
    · intro other s x hx
      split at hx
      · rename_i heq
        exact heq ▸ htype s x hx
      · exact .inl hx
    · intro other s hs
      split
      · exact (hreferences s).symm ▸ hs
      · exact hs
  · have hsymbol : ∀ a, (t.modify id f).alone.symbol? a =
        (t.alone.symbol? a).map fun s => if a.node = id then f s else s := by
      intro a
      rw [symbol?_alone, symbol?_alone]
      exact lookup?_of_symbol? (f := fun other s => if other = id then f s else s)
        (t.symbol?_modify id f) rfl rfl (t.size_modify id f) a
    refine h.exact.of_symbol? hsymbol (fun a s => ?_) fun a s => ?_
    · split
      · exact hf s
      · rfl
    · split
      · exact hreferences s
      · rfl
  · obtain ⟨y, hy, hxy⟩ := hdeclaration hf hx
    rw [hxy]
    exact (h.unsettled other hother).2 y hy
  · obtain ⟨x₀, hx₀, hxd⟩ := hdeclaration hf hx
    obtain ⟨y₀, hy₀, hyd⟩ := hdeclaration hg hy
    rw [hxd, hyd]
    refine (h.agree.declaration other x₀ y₀ hx₀ hy₀).imp fun a b hab =>
      ⟨trivial, hab.file, hab.node, ?_, ?_⟩
    · obtain ⟨i, hi, rfl⟩ := isSome_symbol?_alone.1 hab.left
      exact isSome_symbol?_alone.2 ⟨i, (t.size_modify id f).symm ▸ hi, rfl⟩
    · obtain ⟨i, hi, rfl⟩ := isSome_symbol?_alone.1 hab.right
      exact isSome_symbol?_alone.2 ⟨i, (u.size_modify id g).symm ▸ hi, rfl⟩

/-- The same member is attached on both sides. -/
theorem attach (h : Twin rest t u) (parent child : NodeId) :
    Twin rest (t.attach parent child) (u.attach parent child) :=
  h.modify parent (by
      change (t.attach parent child).outline = (u.attach parent child).outline
      rw [outline_attach, outline_attach, h.agree.outline])
    (fun _ => rfl) (fun _ => rfl) (fun _ => rfl) fun _ _ hx => .inl hx

theorem enqueue (h : Twin rest t u) {usage : NodeId} {s : Symbol} (hs : t.symbol? usage = some s)
    (hnone : s.declaration = none) (hrest : ¬ rest usage) :
    Twin rest (t.enqueue usage) (u.enqueue usage) := by
  refine ⟨⟨h.tidy.enqueue hs hnone, ?_, h.external, fun id hid => ⟨fun hmem => ?_, ?_⟩⟩,
    ⟨h.agree.outline, fun id x y hx hy => ?_⟩, ?_⟩
  · refine h.exact.of_symbol? (k := fun _ s => s) (fun a => ?_) (fun _ _ => rfl) fun _ _ => rfl
    rw [symbol?_alone, symbol?_alone, Option.map_id']
    rfl
  · rcases mem_appendNew.1 hmem with hmem | rfl
    · exact (h.unsettled id hid).1 hmem
    · exact hrest hid
  · exact (h.unsettled id hid).2
  · exact (h.agree.declaration id x y hx hy).imp fun _ _ hab =>
      counterpart_of_outline hab rfl rfl rfl rfl
  · rw [SymbolTree.enqueue, SymbolTree.enqueue, h.pending]

end Twin

end SymbolTree

namespace Growth

variable {g g' : Growth} {rest : NodeId → Prop}

/-- Two readings of one text while they grow. -/
structure Twin (rest : NodeId → Prop) (g g' : Growth) : Prop where
  tree : g.tree.Twin rest g'.tree
  waiting : g.waiting = g'.waiting
  waiting_lt : ∀ c ∈ g.waiting, c < g.tree.size

namespace Twin

/-! ## Declarations and contracts -/

/-- The same uses are held back on both sides. -/
theorem isHeld_eq (h : Twin rest g g') : g.isHeld = g'.isHeld := by
  funext usage
  rw [isHeld, isHeld, SymbolTree.isBaseName_congr h.tree.agree.outline,
    SymbolTree.isInside_congr h.tree.agree.outline, h.waiting]

/-- Links do not change the outline. -/
theorem outline_foldl_connectTo (uses : List NodeId) (d : NodeId) (t : SymbolTree) :
    (uses.foldl (·.connectTo · d) t).outline = t.outline := by
  induction uses generalizing t with
  | nil => rfl
  | cons usage uses ih => rw [List.foldl_cons, ih, SymbolTree.connectTo, SymbolTree.outline_connect]

theorem claim (h : Twin rest g g') (declaration : NodeId) :
    Twin rest (g.claim declaration) (g'.claim declaration) := by
  unfold Growth.claim
  rw [← SymbolTree.enclosingScope?_congr h.tree.agree.outline]
  cases hscope : g.tree.enclosingScope? declaration with
  | none => exact h
  | some scope =>
      have hsymbol := SymbolTree.symbol?_congr h.tree.agree.outline declaration
      cases hd : g.tree.symbol? declaration with
      | none =>
          rw [hd] at hsymbol
          rw [hsymbol.eq_none]
          exact h
      | some d =>
          obtain ⟨d', hd', hdd'⟩ := hsymbol.exists_right hd
          simp only [hd']
          have hclaimed : ((g.tree.pendingByName scope).filter fun u =>
                (g.tree.symbol? u).any d.accepts && ! g.isHeld u) =
              (g'.tree.pendingByName scope).filter fun u =>
                (g'.tree.symbol? u).any d'.accepts && ! g'.isHeld u := by
            rw [h.tree.pendingByName_eq, h.isHeld_eq]
            refine List.filter_congr fun usage _ => ?_
            rw [h.tree.any_eq usage fun _ _ hsv => Symbol.accepts_congr hdd' hsv]
          rw [← hclaimed]
          have hsub : ((g.tree.pendingByName scope).filter fun u =>
              (g.tree.symbol? u).any d.accepts && ! g.isHeld u).Sublist g.tree.pending :=
            List.filter_sublist.trans List.filter_sublist
          refine ⟨h.tree.foldl_connectTo (h.tree.tidy.nodup_pending.sublist hsub)
            (fun v hv => hsub.subset hv) (SymbolTree.lt_size_of_symbol? hd), h.waiting, ?_⟩
          intro c hc
          rw [SymbolTree.size_congr (outline_foldl_connectTo _ _ _)]
          exact h.waiting_lt c hc

end Twin

end Growth

namespace SymbolTree.Twin

variable {t u : SymbolTree} {rest : NodeId → Prop}

/-- The names of bases are linked alike, and as many wait on both sides. -/
theorem closeBases (h : Twin rest t u) (contract : NodeId) :
    Twin rest (Growth.closeBases contract t).1 (Growth.closeBases contract u).1 ∧
      (Growth.closeBases contract t).2 = (Growth.closeBases contract u).2 := by
  have huses : (t.pendingByName contract).filter t.isBaseName =
      (u.pendingByName contract).filter u.isBaseName := by
    rw [h.pendingByName_eq, isBaseName_congr h.agree.outline]
  have hsub : ((t.pendingByName contract).filter t.isBaseName).Sublist t.pending :=
    List.filter_sublist.trans List.filter_sublist
  obtain ⟨htwin, hleft⟩ := h.connectFound
    (fun t u => t.meantAround? u contract)
    (fun t' u' h' _ s v hsv =>
      ⟨h'.meantAround?_eq hsv contract, fun _ hd => lt_of_meantAround? hd⟩)
    (h.tidy.nodup_pending.sublist hsub) fun v hv => hsub.subset hv
  simp only [Growth.closeBases, ← huses]
  exact ⟨htwin, congrArg List.isEmpty hleft⟩

/-- A contract that is closed links the same uses on both sides. -/
theorem closeUses (h : Twin rest t u) (maxDepth : Nat) {contract : NodeId}
    (hcontract : contract < t.size) :
    Twin rest (Growth.closeUses maxDepth contract t) (Growth.closeUses maxDepth contract u) := by
  have huses : (t.pendingByName contract).filter (! t.isBaseName ·) =
      (u.pendingByName contract).filter (! u.isBaseName ·) := by
    rw [h.pendingByName_eq, isBaseName_congr h.agree.outline]
  have hsub : ((t.pendingByName contract).filter (! t.isBaseName ·)).Sublist t.pending :=
    List.filter_sublist.trans List.filter_sublist
  have hnodup := h.tidy.nodup_pending.sublist hsub
  obtain ⟨htwin, hleft⟩ := h.connectFound
    (fun t u =>
      (t.alone.inherited? maxDepth (t.handle contract) u).map Handle.node)
    (fun t' u' h' hsize s v hsv => by
      have hfound := h'.forest.inherited?_rel maxDepth hsv
        (h'.counterpart (hsize.symm ▸ hcontract))
      generalize t'.alone.inherited? maxDepth (t'.handle contract) s = a at hfound
      generalize u'.alone.inherited? maxDepth (u'.handle contract) v = b at hfound
      cases hfound with
      | none => exact ⟨rfl, fun _ hd => by cases hd⟩
      | some hab =>
          refine ⟨congrArg some hab.node, fun d hd => ?_⟩
          obtain ⟨id, hid, heq⟩ := isSome_symbol?_alone.1 hab.left
          cases hd
          rw [heq]
          exact hid)
    hnodup fun v hv => hsub.subset hv
  simp only [Growth.closeUses, ← huses, ← hleft]
  refine (htwin.connectFound (fun t u => t.meantAround? u contract)
    (fun t' u' h' _ s v hsv =>
      ⟨h'.meantAround?_eq hsv contract, fun _ hd => lt_of_meantAround? hd⟩) ?_ ?_).1
  · exact hnodup.sublist (sublist_connectFound _ _ _)
  · exact mem_pending_of_mem_connectFound _ _ hnodup fun v hv => hsub.subset hv

theorem outline_closeBases (t : SymbolTree) (contract : NodeId) :
    (Growth.closeBases contract t).1.outline = t.outline :=
  outline_connectFound _ _ _

theorem outline_closeUses (t : SymbolTree) (maxDepth : Nat) (contract : NodeId) :
    (Growth.closeUses maxDepth contract t).outline = t.outline :=
  (outline_connectFound _ _ _).trans (outline_connectFound _ _ _)

end SymbolTree.Twin

namespace Growth

variable {g g' : Growth} {rest rest' : NodeId → Prop} (maxDepth : Nat)

/-! ## Outlines -/

theorem outline_claim (g : Growth) (declaration : NodeId) :
    (g.claim declaration).tree.outline = g.tree.outline := by
  unfold claim
  split
  · exact Twin.outline_foldl_connectTo _ _ _
  · rfl

theorem outline_declare (g : Growth) (id : NodeId) :
    (g.declare id).tree.outline = g.tree.outline := by
  refine g.tree.outline_modify ?_ id
  exact fun _ => rfl

/-- A contract that is closed does not change the outline. -/
theorem outline_close (g : Growth) (contract : NodeId) :
    (g.close maxDepth contract).tree.outline = g.tree.outline := by
  have hbases := SymbolTree.Twin.outline_closeBases g.tree contract
  unfold close
  split
  · rename_i t ht
    rw [ht] at hbases
    rw [SymbolTree.Twin.outline_closeUses, hbases]
  · rename_i t ht
    rw [ht] at hbases
    exact hbases

namespace Twin

/-! ## Settling a node -/

theorem weaken (h : Twin rest' g g') (hrest : ∀ id, rest id → rest' id) : Twin rest g g' :=
  ⟨h.tree.weaken hrest, h.waiting, h.waiting_lt⟩

theorem close (h : Twin rest g g') {contract : NodeId} (hcontract : contract < g.tree.size) :
    Twin rest (g.close maxDepth contract) (g'.close maxDepth contract) := by
  obtain ⟨htree, hclosed⟩ := h.tree.closeBases contract
  have hsize := SymbolTree.size_congr (SymbolTree.Twin.outline_closeBases g.tree contract)
  unfold Growth.close
  generalize closeBases contract g.tree = p at htree hclosed hsize
  generalize closeBases contract g'.tree = p' at htree hclosed
  obtain ⟨t, closed⟩ := p
  obtain ⟨t', closed'⟩ := p'
  cases hclosed
  cases closed with
  | true =>
      refine ⟨htree.closeUses maxDepth (hsize.symm ▸ hcontract), h.waiting, fun c hc => ?_⟩
      rw [SymbolTree.size_congr (SymbolTree.Twin.outline_closeUses t maxDepth contract), hsize]
      exact h.waiting_lt c hc
  | false =>
      refine ⟨htree, congrArg (· ++ [contract]) h.waiting, fun c hc => ?_⟩
      change c < t.size
      rw [hsize]
      rcases List.mem_append.1 hc with hc | hc
      · exact h.waiting_lt c hc
      · rw [List.mem_singleton.1 hc]
        exact hcontract

theorem closeWaiting (h : Twin rest g g') :
    Twin rest (g.closeWaiting maxDepth) (g'.closeWaiting maxDepth) := by
  have hfold : ∀ (waiting : List NodeId) (t u : SymbolTree), t.Twin rest u →
      (∀ c ∈ waiting, c < t.size) →
      (waiting.foldl (fun t c => closeUses maxDepth c (closeBases c t).1) t).Twin rest
        (waiting.foldl (fun t c => closeUses maxDepth c (closeBases c t).1) u) := by
    intro waiting
    induction waiting with
    | nil => exact fun _ _ h _ => h
    | cons c waiting ih =>
        intro t u h hlt
        have hsize := SymbolTree.size_congr (SymbolTree.Twin.outline_closeBases t c)
        refine ih _ _ ((h.closeBases c).1.closeUses maxDepth
          (hsize.symm ▸ hlt c List.mem_cons_self)) fun b hb => ?_
        rw [SymbolTree.size_congr (SymbolTree.Twin.outline_closeUses _ maxDepth c), hsize]
        exact hlt b (List.mem_cons_of_mem _ hb)
  refine ⟨?_, rfl, fun c hc => absurd hc List.not_mem_nil⟩
  rw [Growth.closeWaiting, Growth.closeWaiting, ← h.waiting]
  exact hfold g.waiting g.tree g'.tree h.tree h.waiting_lt

theorem declare (h : Twin rest g g') (id : NodeId) : Twin rest (g.declare id) (g'.declare id) := by
  refine ⟨h.tree.modify id ?_ (fun _ => rfl) (fun _ => rfl) (fun _ => rfl) fun s x hx => ?_,
    h.waiting, fun c hc => ?_⟩
  · exact (outline_declare g id).trans (h.tree.agree.outline.trans (outline_declare g' id).symm)
  · exact (List.mem_append.1 hx).imp_right List.mem_singleton.1
  · rw [SymbolTree.size_congr (outline_declare g id)]
    exact h.waiting_lt c hc

/-- A use is settled by being linked or by becoming pending. -/
theorem lookUp (h : Twin rest' g g') {usage : NodeId} (husage : rest' usage)
    (hlt : usage < g.tree.size) (hrest : ∀ id, rest id → rest' id ∧ id ≠ usage) {s v : Symbol}
    (hsv : s.bare = v.bare) : Twin rest (g.lookUp usage s) (g'.lookUp usage v) := by
  obtain ⟨x, hx⟩ := SymbolTree.exists_symbol?_of_lt hlt
  have hnone := (h.tree.unsettled usage husage).2 x hx
  have hnot : ¬ rest usage := fun hu => (hrest usage hu).2 rfl
  have hweak := h.weaken fun id hid => (hrest id hid).1
  unfold Growth.lookUp
  rw [← Symbol.isByName_congr hsv, ← h.tree.meantInContract?_eq hsv]
  cases hd : (if s.isByName then g.tree.meantInContract? s usage else none) with
  | none => exact ⟨hweak.tree.enqueue hx hnone hnot, h.waiting, h.waiting_lt⟩
  | some d =>
      have hdlt : d < g.tree.size := by
        split at hd
        · exact SymbolTree.lt_of_meantInContract? hd
        · cases hd
      refine ⟨hweak.tree.connect hx hnone hnot (h.tree.counterpart hdlt), h.waiting,
        fun c hc => ?_⟩
      change c < (g.tree.connectTo usage d).size
      rw [SymbolTree.connectTo, SymbolTree.size_congr (SymbolTree.outline_connect _ _ _)]
      exact h.waiting_lt c hc

/-- A node is dealt with alike. -/
theorem accept (h : Twin rest' g g') {id : NodeId} (hid : rest' id)
    (hrest : ∀ other, rest other → rest' other ∧ other ≠ id) :
    Twin rest (g.accept maxDepth id) (g'.accept maxDepth id) := by
  have hsymbol := SymbolTree.symbol?_congr h.tree.agree.outline id
  have hweak := h.weaken fun other hother => (hrest other hother).1
  unfold Growth.accept
  cases hs : g.tree.symbol? id with
  | none =>
      rw [hs] at hsymbol
      rw [hsymbol.eq_none]
      exact hweak
  | some s =>
      obtain ⟨v, hv, hsv⟩ := hsymbol.exists_right hs
      have hlt := SymbolTree.lt_size_of_symbol? hs
      have hclosed : Twin rest' (if s.kind = .contractDefinition then g.close maxDepth id else g)
          (if s.kind = .contractDefinition then g'.close maxDepth id else g') ∧
          (if s.kind = .contractDefinition then g.close maxDepth id else g).tree.size =
            g.tree.size := by
        split
        · exact ⟨h.close maxDepth hlt, SymbolTree.size_congr (outline_close maxDepth g id)⟩
        · exact ⟨h, rfl⟩
      simp only [hv, ← Symbol.kind_congr hsv, ← Symbol.isDeclaration_congr hsv,
        ← Symbol.isUsage_congr hsv]
      generalize hca : (if s.kind = .contractDefinition then g.close maxDepth id else g) = a
      generalize hca' : (if s.kind = .contractDefinition then g'.close maxDepth id else g') = a'
      rw [hca, hca'] at hclosed
      have hclaimed : Twin rest' (if s.isDeclaration then (a.declare id).claim id else a)
          (if s.isDeclaration then (a'.declare id).claim id else a') ∧
          (if s.isDeclaration then (a.declare id).claim id else a).tree.size = g.tree.size := by
        split
        · refine ⟨(hclosed.1.declare id).claim id, ?_⟩
          rw [SymbolTree.size_congr (outline_claim _ id),
            SymbolTree.size_congr (outline_declare a id), hclosed.2]
        · exact hclosed
      generalize (if s.isDeclaration then (a.declare id).claim id else a) = b at hclaimed ⊢
      generalize (if s.isDeclaration then (a'.declare id).claim id else a') = b' at hclaimed ⊢
      have hlooked : Twin rest (if s.isUsage then b.lookUp id s else b)
          (if s.isUsage then b'.lookUp id v else b') := by
        split
        · exact hclaimed.1.lookUp hid (hclaimed.2 ▸ hlt) hrest hsv
        · exact hclaimed.1.weaken fun other hother => (hrest other hother).1
      split
      · have hwaiting := hlooked.closeWaiting maxDepth
        exact ⟨hwaiting.tree.connectMembers maxDepth, hwaiting.waiting,
          fun c hc => absurd hc List.not_mem_nil⟩
      · exact hlooked

/-- Settling a node keeps two readings twins, and leaves the other nodes to be settled. -/
theorem settle (h : Twin rest' g g') {id : NodeId} (hid : rest' id)
    (hrest : ∀ other, rest other → rest' other ∧ other ≠ id) :
    Twin rest (g.settle maxDepth id) (g'.settle maxDepth id) := by
  have haccept := h.accept maxDepth hid hrest
  simp only [Growth.settle, ← SymbolTree.parent?_congr haccept.tree.agree.outline]
  cases hp : (g.accept maxDepth id).tree.parent? id with
  | none => exact haccept
  | some p =>
      refine ⟨haccept.tree.attach p id, haccept.waiting, fun c hc => ?_⟩
      exact (SymbolTree.size_modify _ p _).symm ▸ haccept.waiting_lt c hc

end Twin

/-- Trees that start alike grow alike, whatever their generations. -/
theorem Twin.foldl_settle {order : List NodeId} (h : Twin (· ∈ order) g g')
    (hnodup : order.Nodup) :
    Twin (fun _ => False) (order.foldl (Growth.settle maxDepth) g)
      (order.foldl (Growth.settle maxDepth) g') := by
  induction order generalizing g g' with
  | nil => exact h.weaken fun _ hid => hid.elim
  | cons id order ih =>
      obtain ⟨hid, hnodup⟩ := List.nodup_cons.1 hnodup
      refine ih (h.settle maxDepth List.mem_cons_self fun other hother => ?_) hnodup
      exact ⟨List.mem_cons_of_mem _ hother, fun heq => hid (heq ▸ hother)⟩

end Growth

/-! ## The settling order -/

mutual

/-- The nodes of a tree are numbered from its first node on. -/
theorem mem_settlingOrder {id x : Nat} : {t : SyntaxTree} → x ∈ settlingOrder id t →
    id ≤ x ∧ x < id + t.nodeCount
  | .leaf _ _, h => by simp [settlingOrder] at h
  | .node _ inner, h => by
    simp only [settlingOrder, List.mem_append, List.mem_singleton] at h
    simp only [SyntaxTree.nodeCount]
    rcases h with h | rfl
    · have := mem_settlingOrderOf h
      omega
    · omega

theorem mem_settlingOrderOf {id x : Nat} : {ts : List SyntaxTree} → x ∈ settlingOrderOf id ts →
    id ≤ x ∧ x < id + SyntaxTree.nodeCountOf ts
  | [], h => by simp [settlingOrderOf] at h
  | t :: ts, h => by
    simp only [settlingOrderOf, List.mem_append] at h
    simp only [SyntaxTree.nodeCountOf]
    rcases h with h | h
    · have := mem_settlingOrder h
      omega
    · have := mem_settlingOrderOf h
      omega

end

mutual

/-- Each node is settled once. -/
theorem nodup_settlingOrder (id : Nat) : (t : SyntaxTree) → (settlingOrder id t).Nodup
  | .leaf _ _ => List.nodup_nil
  | .node _ inner => by
    refine List.nodup_append.2 ⟨nodup_settlingOrderOf (id + 1) inner, by simp, ?_⟩
    intro a ha b hb
    have := mem_settlingOrderOf ha
    rw [List.mem_singleton.1 hb]
    exact Nat.ne_of_gt (by omega)

/-- No node of a row has two turns. -/
theorem nodup_settlingOrderOf (id : Nat) : (ts : List SyntaxTree) → (settlingOrderOf id ts).Nodup
  | [] => List.nodup_nil
  | t :: ts => by
    refine List.nodup_append.2 ⟨nodup_settlingOrder id t, nodup_settlingOrderOf _ ts, ?_⟩
    intro a ha b hb
    have := mem_settlingOrder ha
    have := mem_settlingOrderOf hb
    exact Nat.ne_of_lt (by omega)

end

/-! ## Readings of a text -/

mutual

/-- Every node is made of a site of the text. -/
theorem exists_ofSite_of_mem_plant {m : LineMap} {s : Symbol} : {t : SyntaxTree} →
    {around : Surroundings} → {id start : Nat} → s ∈ plant m around id start t →
    ∃ parent context site, s = .ofSite m parent context site
  | .leaf _ _, _, _, _, h => by simp [plant] at h
  | .node _ _, _, _, _, h => by
    simp only [plant, List.mem_cons] at h
    rcases h with rfl | h
    · exact ⟨_, _, _, rfl⟩
    · exact exists_ofSite_of_mem_plantAll h

/-- Every node of a row is made of a site of the text. -/
theorem exists_ofSite_of_mem_plantAll {m : LineMap} {s : Symbol} : {ts : List SyntaxTree} →
    {around : Surroundings} → {id start : Nat} → s ∈ plantAll m around id start ts →
    ∃ parent context site, s = .ofSite m parent context site
  | [], _, _, _, h => by simp [plantAll] at h
  | _ :: _, _, _, _, h => by
    simp only [plantAll, List.mem_append] at h
    rcases h with h | h
    · exact exists_ofSite_of_mem_plant h
    · exact exists_ofSite_of_mem_plantAll h

end

namespace SymbolTree

/-- What is planted are nodes without links and children. -/
theorem exists_ofSite_of_symbol?_planted {file generation : Nat} {m : LineMap} {tree : SyntaxTree}
    {id : NodeId} {s : Symbol} (h : (planted file generation m tree).symbol? id = some s) :
    ∃ parent context site, s = .ofSite m parent context site := by
  rw [symbol?, planted, List.getElem?_toArray] at h
  exact exists_ofSite_of_mem_plant (List.mem_of_getElem? h)

/-- What is planted is not linked yet. -/
theorem bare_of_symbol?_planted {file generation : Nat} {m : LineMap} {tree : SyntaxTree}
    {id : NodeId} {s : Symbol} (h : (planted file generation m tree).symbol? id = some s) :
    s.bare = s := by
  obtain ⟨_, _, _, rfl⟩ := exists_ofSite_of_symbol?_planted h
  rfl

/-- Planted trees differ in their generations only. -/
theorem twin_planted (rest : NodeId → Prop) (file generation generation' : Nat) (m : LineMap)
    (tree : SyntaxTree) :
    Twin rest (planted file generation m tree) (planted file generation' m tree) := by
  have hunlinked : ∀ {generation id s}, (planted file generation m tree).symbol? id = some s →
      s.declaration = none ∧ s.declaredType = [] ∧ s.references = [] := by
    intro generation id s hs
    rw [← bare_of_symbol?_planted hs]
    exact ⟨rfl, rfl, rfl⟩
  refine ⟨⟨⟨List.nodup_nil, ?_, ?_, ?_, ?_, ?_⟩, fun u d => ?_, rfl, fun id _ => ⟨List.not_mem_nil, ?_⟩⟩,
    ⟨rfl, fun id s v hs hv => ?_⟩, rfl⟩
  · exact fun u hu => absurd hu List.not_mem_nil
  · exact fun u hu => absurd hu List.not_mem_nil
  · intro id s d hs hd
    rw [(hunlinked hs).1] at hd
    cases hd
  · intro id s hs x hx
    rw [(hunlinked hs).2.1] at hx
    cases hx
  · intro id s hs
    rw [(hunlinked hs).2.2]
    exact List.nodup_nil
  · constructor
    · rintro ⟨s, hs, hu⟩
      rw [symbol?_alone] at hs
      obtain ⟨id, -, rfl⟩ := isSome_lookup?_iff.1 (by rw [hs]; rfl : Option.isSome _ = true)
      rw [lookup?_handle] at hs
      rw [(hunlinked hs).2.2] at hu
      cases hu
    · intro hd
      rw [Forest.declaration?, symbol?_alone] at hd
      obtain ⟨s, hs, hsd⟩ := Option.bind_eq_some_iff.1 hd
      obtain ⟨id, -, rfl⟩ := isSome_lookup?_iff.1 (by rw [hs]; rfl : Option.isSome _ = true)
      rw [lookup?_handle] at hs
      rw [(hunlinked hs).1] at hsd
      cases hsd
  · exact fun s hs => (hunlinked hs).1
  · rw [(hunlinked hs).1, (hunlinked hv).1]
    exact .none

/-! ### File and generation -/

section Kept

-- `P` is what links, new entries and changed symbols leave as it is.
variable {P : SymbolTree → Prop} (hconnect : ∀ t usage d, P t → P (connect t usage d))

include hconnect

/-- What every link keeps is kept by links in a row. -/
theorem foldl_connectTo_kept (uses : List NodeId) (d : NodeId) {t : SymbolTree} (h : P t) :
    P (uses.foldl (·.connectTo · d) t) := by
  induction uses generalizing t with
  | nil => exact h
  | cons usage uses ih => exact ih (hconnect t usage (t.handle d) h)

theorem connectFound_kept (search : SymbolTree → Symbol → Option NodeId) (uses : List NodeId)
    {t : SymbolTree} (h : P t) : P (connectFound search t uses).1 := by
  induction uses generalizing t with
  | nil => exact h
  | cons usage uses ih =>
      unfold connectFound
      split
      · exact ih (hconnect t usage _ h)
      · exact ih h

theorem connectAll_kept (links : List (NodeId × Handle)) {t : SymbolTree} (h : P t) :
    P (t.connectAll links) := by
  induction links generalizing t with
  | nil => exact h
  | cons l links ih => exact ih (hconnect t l.1 l.2 h)

/-- What every link keeps is kept when accesses and dotted types are linked. -/
theorem connectMembers_kept (maxDepth : Nat) {t : SymbolTree} (h : P t) :
    P (t.connectMembers maxDepth) := by
  fun_induction connectMembers maxDepth t with
  | case1 => exact h
  | case2 t _ ih => exact ih (connectAll_kept hconnect _ h)

theorem closeBases_kept (contract : NodeId) {t : SymbolTree} (h : P t) :
    P (Growth.closeBases contract t).1 :=
  connectFound_kept hconnect _ _ h

theorem closeUses_kept (maxDepth : Nat) (contract : NodeId) {t : SymbolTree} (h : P t) :
    P (Growth.closeUses maxDepth contract t) :=
  connectFound_kept hconnect _ _ (connectFound_kept hconnect _ _ h)

theorem closeWaiting_kept (maxDepth : Nat) {g : Growth} (h : P g.tree) :
    P (g.closeWaiting maxDepth).tree := by
  have hfold : ∀ (waiting : List NodeId) (t : SymbolTree), P t →
      P (waiting.foldl
        (fun t c => Growth.closeUses maxDepth c (Growth.closeBases c t).1) t) := by
    intro waiting
    induction waiting with
    | nil => exact fun _ h => h
    | cons c waiting ih =>
        exact fun t h =>
          ih _ (closeUses_kept hconnect maxDepth c (closeBases_kept hconnect c h))
  exact hfold g.waiting g.tree h

theorem close_kept (maxDepth : Nat) (contract : NodeId) {g : Growth} (h : P g.tree) :
    P (g.close maxDepth contract).tree := by
  have hbases := closeBases_kept hconnect contract h
  unfold Growth.close
  split
  · rename_i t ht
    rw [ht] at hbases
    exact closeUses_kept hconnect maxDepth contract hbases
  · rename_i t ht
    rw [ht] at hbases
    exact hbases

theorem claim_kept (declaration : NodeId) {g : Growth} (h : P g.tree) :
    P (g.claim declaration).tree := by
  unfold Growth.claim
  split
  · exact foldl_connectTo_kept hconnect _ _ h
  · exact h

variable (hmodify : ∀ t id f, P t → P (modify t id f)) (henqueue : ∀ t id, P t → P (enqueue t id))

include hmodify henqueue

/-- What every link keeps is kept when a node is dealt with. -/
theorem accept_kept (maxDepth : Nat) (id : NodeId) {g : Growth} (h : P g.tree) :
    P (g.accept maxDepth id).tree := by
  have hlookUp : ∀ (g : Growth) (s : Symbol), P g.tree → P (g.lookUp id s).tree := by
    intro g s h
    simp only [Growth.lookUp]
    cases if s.isByName then g.tree.meantInContract? s id else none with
    | none => exact henqueue _ _ h
    | some d => exact hconnect _ _ _ h
  unfold Growth.accept
  cases g.tree.symbol? id with
  | none => exact h
  | some s =>
      have hclosed : P (if s.kind = .contractDefinition then g.close maxDepth id else g).tree := by
        split
        · exact close_kept hconnect maxDepth id h
        · exact h
      generalize hca : (if s.kind = .contractDefinition then g.close maxDepth id else g) = a
      rw [hca] at hclosed
      have hclaimed : P (if s.isDeclaration then (a.declare id).claim id else a).tree := by
        split
        · exact claim_kept hconnect id (hmodify _ _ _ hclosed)
        · exact hclosed
      generalize hcb : (if s.isDeclaration then (a.declare id).claim id else a) = b
      rw [hcb] at hclaimed
      have hlooked : P (if s.isUsage then b.lookUp id s else b).tree := by
        split
        · exact hlookUp b s hclaimed
        · exact hclaimed
      simp only [hca, hcb]
      split
      · exact connectMembers_kept hconnect maxDepth (closeWaiting_kept hconnect maxDepth hlooked)
      · exact hlooked

/-- All that happens to a tree while it grows is that uses are linked or become pending and that
symbols change. -/
theorem foldl_settle_kept (maxDepth : Nat) (order : List NodeId) {g : Growth} (h : P g.tree) :
    P (order.foldl (Growth.settle maxDepth) g).tree := by
  induction order generalizing g with
  | nil => exact h
  | cons id order ih =>
      have haccept := accept_kept hconnect hmodify henqueue maxDepth id h
      refine ih ?_
      simp only [Growth.settle]
      split
      · exact hmodify _ _ _ haccept
      · exact haccept

end Kept

/-- A tree carries the file and the generation it was made for. -/
theorem label_grow (maxDepth file generation : Nat) (m : LineMap) (tree : SyntaxTree) :
    (grow maxDepth file generation m tree).file = file ∧
      (grow maxDepth file generation m tree).generation = generation := by
  refine foldl_settle_kept (P := fun t => t.file = file ∧ t.generation = generation) ?_ ?_ ?_
    maxDepth _ ⟨rfl, rfl⟩
  · intro t usage d h
    exact ⟨(file_congr (t.outline_connect usage d)).trans h.1,
      (t.generation_connect usage d).trans h.2⟩
  · exact fun _ _ _ h => h
  · exact fun _ _ h => h

/-- Two readings of one text are twins: the generation is nothing but a label. -/
theorem twin_grow (maxDepth file generation generation' : Nat) (m : LineMap) (tree : SyntaxTree) :
    Twin (fun _ => False) (grow maxDepth file generation m tree)
      (grow maxDepth file generation' m tree) := by
  have hplanted : Growth.Twin (· ∈ settlingOrder 0 tree) ⟨planted file generation m tree, []⟩
      ⟨planted file generation' m tree, []⟩ :=
    ⟨twin_planted _ file generation generation' m tree, rfl,
      fun _ hc => absurd hc List.not_mem_nil⟩
  exact (hplanted.foldl_settle maxDepth (nodup_settlingOrder 0 tree)).tree

/-- What a text is grown into lists exactly the links it has. -/
theorem grown_grow (maxDepth file generation : Nat) (m : LineMap) (tree : SyntaxTree) :
    Grown (fun _ => False) (grow maxDepth file generation m tree) :=
  (twin_grow maxDepth file generation generation m tree).toGrown

end SymbolTree

end SolidityAtlas

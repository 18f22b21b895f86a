import SolidityAtlas.Proofs.Symbol.Unplaced

/-!
# Growing without places

Look-ups do not see places, and links are made without regard to them. So it makes no difference
whether the places are taken away before or after a tree is grown.

## Main Definitions

* `Growth.unplaced`: a growing tree without its places

## Main Results

* `SymbolTree.unplaced_connectFound`, `SymbolTree.unplaced_connectMembers`: rows of links
* `Growth.unplaced_settle`: dealing with a node
-/

namespace SolidityAtlas

/-! ## Links -/

namespace SymbolTree

variable (t : SymbolTree)

/-- A change of a symbol that does not depend on places. -/
theorem unplaced_modify {f g : Symbol → Symbol} (hfg : ∀ s, (f s).unplaced = g s.unplaced)
    (id : NodeId) : (t.modify id f).unplaced = t.unplaced.modify id g := by
  rw [unplaced, modify, array_map_modify hfg]
  rfl

/-- Attaching a member has nothing to do with places. -/
theorem unplaced_attach (parent child : NodeId) :
    (t.attach parent child).unplaced = t.unplaced.attach parent child := by
  rw [attach, attach,
    t.unplaced_modify (g := fun s => { s with children := s.children ++ [child] }) fun _ => rfl]

theorem unplaced_link (usage : NodeId) (d : Handle) :
    (t.link usage d).unplaced = t.unplaced.link usage d := by
  rw [link, link, ← t.unplaced_modify (f := Symbol.linkTo d) fun _ => rfl]
  rfl

theorem unplaced_addReference (d : NodeId) (usage : Handle) :
    (t.addReference d usage).unplaced = t.unplaced.addReference d usage := by
  rw [addReference, addReference, t.unplaced_modify (g := Symbol.addReference usage) fun _ => rfl]

/-- A tree by itself may lose its places before or after it is taken by itself. -/
@[simp] theorem alone_unplaced : t.unplaced.alone = t.alone.unplaced := by
  have htree : (Forest.ofTree t.unplaced).tree = (Forest.ofTree t).unplaced.tree := by
    funext file
    rw [Forest.tree_unplaced, Forest.ofTree, Forest.ofTree, file_unplaced]
    by_cases hfile : file = t.file <;> simp [hfile]
  exact congrArg (Forest.mk · fun _ _ => none) htree

/-- Connecting a use has nothing to do with places. -/
theorem unplaced_connect (usage : NodeId) (d : Handle) :
    (t.connect usage d).unplaced = t.unplaced.connect usage d := by
  unfold connect
  rw [symbol?_unplaced]
  cases t.symbol? usage with
  | none => rfl
  | some s => simp [unplaced_addReference, unplaced_link]

theorem unplaced_connectTo (usage d : NodeId) :
    (t.connectTo usage d).unplaced = t.unplaced.connectTo usage d :=
  t.unplaced_connect usage (t.handle d)

/-- The same uses are linked if a search does not see places. -/
theorem unplaced_connectFound {search : SymbolTree → Symbol → Option NodeId}
    (hsearch : ∀ t s, search t.unplaced s.unplaced = search t s) (uses : List NodeId) :
    connectFound search t.unplaced uses =
      ((connectFound search t uses).1.unplaced, (connectFound search t uses).2) := by
  induction uses generalizing t with
  | nil => rfl
  | cons usage uses ih =>
      have hfound : (t.unplaced.symbol? usage).bind (search t.unplaced) =
          (t.symbol? usage).bind (search t) := by
        rw [symbol?_unplaced]
        cases t.symbol? usage with
        | none => rfl
        | some s => exact hsearch t s
      unfold connectFound
      rw [hfound]
      split
      · rw [← unplaced_connectTo]
        exact ih _
      · rw [ih]

/-! ### What a use can refer to -/

@[simp] theorem memberAccepting?_unplaced (usage : Symbol) (scope : NodeId) :
    t.unplaced.memberAccepting? usage.unplaced scope = t.memberAccepting? usage scope := by
  simp [memberAccepting?, Option.any_map]

@[simp] theorem meantAt?_unplaced (usage : Symbol) (outer : NodeId) :
    t.unplaced.meantAt? usage.unplaced outer = t.meantAt? usage outer := by
  simp [meantAt?, Option.any_map]

@[simp] theorem meantAround?_unplaced (usage : Symbol) (id : NodeId) :
    t.unplaced.meantAround? usage.unplaced id = t.meantAround? usage id := by
  rw [meantAround?, meantAround?, ancestors_unplaced, funext (t.meantAt?_unplaced usage)]

@[simp] theorem ancestorsInContract_unplaced (id : NodeId) :
    t.unplaced.ancestorsInContract id = t.ancestorsInContract id := by
  simp [ancestorsInContract]

@[simp] theorem meantInContract?_unplaced (usage : Symbol) (id : NodeId) :
    t.unplaced.meantInContract? usage.unplaced id = t.meantInContract? usage id := by
  rw [meantInContract?, meantInContract?, ancestorsInContract_unplaced,
    funext (t.meantAt?_unplaced usage)]

@[simp] theorem isBaseName_unplaced (usage : NodeId) :
    t.unplaced.isBaseName usage = t.isBaseName usage := by
  simp [isBaseName]

@[simp] theorem pendingByName_unplaced (outer : NodeId) :
    t.unplaced.pendingByName outer = t.pendingByName outer := by
  simp [pendingByName, Option.any_map]

/-! ### Accesses and dotted types -/

variable (maxDepth : Nat)

@[simp] theorem memberTarget?_unplaced (usage : NodeId) :
    t.unplaced.memberTarget? maxDepth usage = t.memberTarget? maxDepth usage := by
  unfold memberTarget?
  rw [symbol?_unplaced]
  cases t.symbol? usage with
  | none => rfl
  | some s =>
      simp only [Option.map_some, Option.bind_some, Symbol.detail_unplaced,
        Symbol.isQualified_unplaced, alone_unplaced, handle_unplaced,
        Forest.resolveAccess?_unplaced, Forest.dottedTarget?_unplaced]
      rfl

/-- What accesses and dotted types mean does not depend on places. -/
@[simp] theorem memberTargets_unplaced :
    t.unplaced.memberTargets maxDepth = t.memberTargets maxDepth := by
  simp [memberTargets]

theorem unplaced_connectAll (links : List (NodeId × Handle)) :
    (t.connectAll links).unplaced = t.unplaced.connectAll links := by
  induction links generalizing t with
  | nil => rfl
  | cons l links ih =>
      rw [connectAll, connectAll, List.foldl_cons, List.foldl_cons, ← unplaced_connect]
      exact ih _

theorem unplaced_connectMembers :
    (t.connectMembers maxDepth).unplaced = t.unplaced.connectMembers maxDepth := by
  fun_induction connectMembers maxDepth t with
  | case1 t hnone =>
      rw [connectMembers, dif_pos (by rw [memberTargets_unplaced, hnone])]
  | case2 t hsome ih =>
      rw [ih, connectMembers.eq_def maxDepth t.unplaced,
        dif_neg (by rwa [memberTargets_unplaced]), memberTargets_unplaced, unplaced_connectAll]

end SymbolTree

/-! ## Dealing with nodes -/

namespace Growth

/-- The growing tree without the places of its symbols. -/
def unplaced (g : Growth) : Growth :=
  { g with tree := g.tree.unplaced }

variable (maxDepth : Nat) (g : Growth)

@[simp] theorem tree_unplaced : g.unplaced.tree = g.tree.unplaced := rfl

@[simp] theorem isHeld_unplaced (usage : NodeId) : g.unplaced.isHeld usage = g.isHeld usage := by
  have hinside : g.unplaced.tree.isInside usage = g.tree.isInside usage :=
    funext (g.tree.isInside_unplaced usage)
  rw [isHeld, isHeld, hinside, tree_unplaced, SymbolTree.isBaseName_unplaced]
  rfl

theorem unplaced_claim (declaration : NodeId) :
    (g.claim declaration).unplaced = g.unplaced.claim declaration := by
  have hconnect : ∀ (uses : List NodeId) (t : SymbolTree),
      (uses.foldl (·.connectTo · declaration) t).unplaced =
        uses.foldl (·.connectTo · declaration) t.unplaced := by
    intro uses
    induction uses with
    | nil => exact fun t => rfl
    | cons usage uses ih =>
        intro t
        rw [List.foldl_cons, List.foldl_cons, ih, SymbolTree.unplaced_connectTo]
  unfold claim
  rw [tree_unplaced, SymbolTree.enclosingScope?_unplaced, SymbolTree.symbol?_unplaced]
  cases g.tree.enclosingScope? declaration with
  | none => rfl
  | some scope =>
      cases g.tree.symbol? declaration with
      | none => rfl
      | some d =>
          have hclaimed : (g.tree.unplaced.pendingByName scope).filter
                (fun u => (g.tree.unplaced.symbol? u).any d.unplaced.accepts &&
                  ! g.unplaced.isHeld u) =
              (g.tree.pendingByName scope).filter
                fun u => (g.tree.symbol? u).any d.accepts && ! g.isHeld u := by
            simp [-tree_unplaced, Option.any_map]
          exact congrArg (Growth.mk · g.waiting) ((hconnect _ _).trans (by rw [← hclaimed]))

/-- Linking the names of bases has nothing to do with places, and the same contracts wait. -/
theorem closeBases_unplaced (contract : NodeId) (t : SymbolTree) :
    closeBases contract t.unplaced = ((closeBases contract t).1.unplaced, (closeBases contract t).2) := by
  unfold closeBases
  simp [SymbolTree.unplaced_connectFound, funext t.isBaseName_unplaced]

theorem unplaced_closeUses (contract : NodeId) (t : SymbolTree) :
    (closeUses maxDepth contract t).unplaced = closeUses maxDepth contract t.unplaced := by
  unfold closeUses
  simp [SymbolTree.unplaced_connectFound]

theorem unplaced_close (contract : NodeId) :
    (g.close maxDepth contract).unplaced = g.unplaced.close maxDepth contract := by
  unfold close
  rw [tree_unplaced, closeBases_unplaced]
  cases hbases : closeBases contract g.tree with
  | mk t all =>
      cases all with
      | true => exact congrArg (Growth.mk · g.waiting) (unplaced_closeUses maxDepth contract t)
      | false => rfl

theorem unplaced_closeWaiting :
    (g.closeWaiting maxDepth).unplaced = g.unplaced.closeWaiting maxDepth := by
  have hclose : ∀ (contracts : List NodeId) (t : SymbolTree),
      (contracts.foldl (fun t c => closeUses maxDepth c (closeBases c t).1) t).unplaced =
        contracts.foldl (fun t c => closeUses maxDepth c (closeBases c t).1) t.unplaced := by
    intro contracts
    induction contracts with
    | nil => exact fun t => rfl
    | cons c contracts ih =>
        intro t
        rw [List.foldl_cons, List.foldl_cons, ih, unplaced_closeUses, closeBases_unplaced]
  exact congrArg (Growth.mk · []) (hclose g.waiting g.tree)

theorem unplaced_lookUp (usage : NodeId) (s : Symbol) :
    (g.lookUp usage s).unplaced = g.unplaced.lookUp usage s.unplaced := by
  unfold lookUp
  simp only [tree_unplaced, Symbol.isByName_unplaced, SymbolTree.meantInContract?_unplaced]
  generalize (if s.isByName = true then g.tree.meantInContract? s usage else none) = found
  cases found with
  | none => rfl
  | some d => exact congrArg (Growth.mk · g.waiting) (g.tree.unplaced_connectTo usage d)

theorem unplaced_declare (id : NodeId) : (g.declare id).unplaced = g.unplaced.declare id := by
  let listed (s : Symbol) : Symbol :=
    { s with declaredType := s.declaredType ++ [g.tree.handle id] }
  exact congrArg (Growth.mk · g.waiting) (g.tree.unplaced_modify (f := listed) (g := listed)
    (fun _ => rfl) id)

theorem unplaced_accept (id : NodeId) :
    (g.accept maxDepth id).unplaced = g.unplaced.accept maxDepth id := by
  unfold accept
  rw [tree_unplaced, SymbolTree.symbol?_unplaced]
  cases g.tree.symbol? id with
  | none => rfl
  | some s =>
      simp only [Option.map_some]
      rw [Symbol.kind_unplaced, Symbol.isDeclaration_unplaced, Symbol.isUsage_unplaced]
      have hclosed : (if s.kind = .contractDefinition then g.close maxDepth id else g).unplaced =
          if s.kind = .contractDefinition then g.unplaced.close maxDepth id else g.unplaced := by
        split
        · exact g.unplaced_close maxDepth id
        · rfl
      rw [← hclosed]
      generalize (if s.kind = .contractDefinition then g.close maxDepth id else g) = g₁
      have hclaimed : (if s.isDeclaration then (g₁.declare id).claim id else g₁).unplaced =
          if s.isDeclaration then (g₁.unplaced.declare id).claim id else g₁.unplaced := by
        split
        · rw [unplaced_claim, unplaced_declare]
        · rfl
      rw [← hclaimed]
      generalize (if s.isDeclaration then (g₁.declare id).claim id else g₁) = g₂
      have hfound : (if s.isUsage then g₂.lookUp id s else g₂).unplaced =
          if s.isUsage then g₂.unplaced.lookUp id s.unplaced else g₂.unplaced := by
        split
        · exact g₂.unplaced_lookUp id s
        · rfl
      rw [← hfound]
      generalize (if s.isUsage then g₂.lookUp id s else g₂) = g₃
      split
      · rw [← unplaced_closeWaiting]
        exact congrArg (Growth.mk · _) (SymbolTree.unplaced_connectMembers _ maxDepth)
      · rfl

/-- A turn has nothing to do with places. -/
theorem unplaced_settle (id : NodeId) :
    (g.settle maxDepth id).unplaced = g.unplaced.settle maxDepth id := by
  unfold settle
  simp only [← unplaced_accept, tree_unplaced, SymbolTree.parent?_unplaced]
  split
  · exact congrArg (Growth.mk · _) (SymbolTree.unplaced_attach _ _ id)
  · rfl

end Growth

end SolidityAtlas

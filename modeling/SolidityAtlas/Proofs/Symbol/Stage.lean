import SolidityAtlas.Proofs.Symbol.Layout
import SolidityAtlas.Proofs.Symbol.Settling

/-!
# Stages of growth

While a tree grows, the stems of its nodes stay what they were planted as, and the nodes
that have been settled are attached to their parents. So everything about the shape of a
tree at some stage is said in terms of what was planted, `p`, and of the row of nodes
`done` that have been settled by then.

A declaration belongs to a node if nothing but holders stands between them. At a stage it
is a member of the node only if these holders have been settled too. If one has not been,
then the declaration is a member of that holder for the time being. A search that goes
from the inside out through all nodes around some node therefore finds each declaration
that has been settled, if not where it belongs to then further inside.

## Main Definitions

* `SymbolTree.Stage`: a tree at a stage of its growth
* `SymbolTree.BelongsOver`, `SymbolTree.Belongs`: what belongs to a node

## Main Results

* `SymbolTree.Stage.settle`: from one stage to the next
* `SymbolTree.Stage.mem_members_iff`: the members of a node at a stage
* `SymbolTree.Belongs.exists_around`: where a declaration is a member for the time being
* `SymbolTree.BelongsOver.enclosingScope?`: the scope of what belongs to a node
-/

namespace SolidityAtlas

/-- A holder is no scope. -/
theorem NodeKind.isScope_eq_false_of_isHolder {k : NodeKind} (h : k.isHolder = true) :
    k.isScope = false := by
  revert h
  cases k <;> simp [isHolder, isScope]

namespace SymbolTree

variable {t t' p : SymbolTree} {done : List NodeId}

/-! ## What belongs to a node -/

/-- A node stands in another one, with nothing but certain holders between them. -/
inductive BelongsOver (p : SymbolTree) (between : NodeId → Prop) (d : NodeId) : NodeId → Prop where
  | inside {s} : p.parent? d = some s → BelongsOver p between d s
  | held {h s k} : BelongsOver p between d h → between h → p.kind? h = some k → k.isHolder = true →
      p.parent? h = some s → BelongsOver p between d s

/-- A node stands in another one, with nothing but holders between them. -/
def Belongs (p : SymbolTree) (d s : NodeId) : Prop :=
  p.BelongsOver (fun _ => True) d s

namespace BelongsOver

variable {between between' : NodeId → Prop} {d s : NodeId}

/-- A declaration belongs to a scope over more nodes as well. -/
theorem mono (h : p.BelongsOver between d s) (hover : ∀ x, between x → between' x) :
    p.BelongsOver between' d s := by
  induction h with
  | inside hp => exact .inside hp
  | held _ hh hk hholder hp ih => exact .held ih (hover _ hh) hk hholder hp

/-- Over whichever nodes, the declaration belongs to the scope. -/
theorem belongs (h : p.BelongsOver between d s) : p.Belongs d s :=
  h.mono fun _ _ => trivial

/-- A scope stands around what belongs to it. -/
theorem mem_ancestors (h : p.BelongsOver between d s) : s ∈ p.ancestors d := by
  induction h with
  | inside hp => exact mem_ancestors_of_parent hp
  | held _ _ _ _ hp ih => exact mem_ancestors_trans (mem_ancestors_of_parent hp) ih

/-- Between a node and what it belongs to stand no scopes. -/
theorem enclosingScope? (h : p.BelongsOver between d s) {scope : NodeId}
    (hscope : p.enclosingScope? d = some scope) : scope = s ∨ scope ∈ p.ancestors s := by
  have hmem := List.mem_of_find?_eq_some hscope
  have hkind := List.find?_some hscope
  induction h with
  | inside hp =>
      rw [ancestors_of_parent p hp] at hmem
      exact List.mem_cons.1 hmem
  | @held x s k _ _ hk hholder hp ih =>
      rcases ih with rfl | hmem
      · rw [hk] at hkind
        rw [Option.any_some, NodeKind.isScope_eq_false_of_isHolder hholder] at hkind
        cases hkind
      · rw [ancestors_of_parent p hp] at hmem
        exact List.mem_cons.1 hmem

end BelongsOver

/-! ## Stages -/

/-- A tree at a stage of its growth: what was planted, with the nodes that have been settled attached
to their parents. -/
structure Stage (p : SymbolTree) (done : List NodeId) (t : SymbolTree) : Prop where
  handle : t.handle = p.handle
  stems : t.stems = p.stems
  children : ∀ id, t.children id = done.filter fun c => p.parent? c == some id

/-- A member that is attached does not change the stems. -/
theorem stems_attach (t : SymbolTree) (parent child : NodeId) :
    (t.attach parent child).stems = t.stems := by
  simp only [stems, attach, modify]
  rw [array_map_modify_of_forall]
  exact fun _ => rfl

/-- Only the parent gets the child, behind the ones it has. -/
theorem children_attach {parent child : NodeId} (hparent : t.parent? child = some parent)
    (id : NodeId) : (t.attach parent child).children id =
      if id = parent then t.children id ++ [child] else t.children id := by
  have hlt := parent?_lt hparent
  have hsize : child < t.size := by
    cases hs : t.symbol? child with
    | none => rw [parent?, hs] at hparent; cases hparent
    | some s => exact lt_size_of_symbol? hs
  have hattach : (t.attach parent child).size = t.size := t.size_modify _ _
  unfold children
  rw [attach, symbol?_modify, size_modify]
  cases hs : t.symbol? id with
  | none =>
      rw [if_neg]
      · rfl
      · rintro rfl
        obtain ⟨s, hs'⟩ := exists_symbol?_of_lt (Nat.lt_trans hlt hsize)
        rw [hs] at hs'
        cases hs'
  | some s =>
      simp only [Option.map_some]
      split
      · rename_i heq
        subst heq
        rw [List.filter_append, List.filter_singleton]
        simp [hlt, hsize]
      · rfl

/-- A planted tree is at its first stage: nothing has been settled. -/
theorem stage_planted (file generation : Nat) (m : LineMap) (tree : SyntaxTree) :
    Stage (planted file generation m tree) [] (planted file generation m tree) := by
  refine ⟨rfl, rfl, fun id => ?_⟩
  unfold children
  cases hs : (planted file generation m tree).symbol? id with
  | none => rfl
  | some s =>
      obtain ⟨_, _, _, rfl⟩ := exists_ofSite_of_symbol?_planted hs
      rfl

namespace Stage

section

variable (h : Stage p done t)

include h

/-- Links and notes do not change the stage. -/
theorem congr (houtline : t'.outline = t.outline) (hhandle : t'.handle = t.handle) :
    Stage p done t' where
  handle := hhandle.trans h.handle
  stems := (stems_congr houtline).trans h.stems
  children id := by rw [children_congr houtline, h.children]

/-- What has been settled stands under its parent, and nothing else does. -/
theorem mem_children_iff {c id : NodeId} :
    c ∈ t.children id ↔ c ∈ done ∧ p.parent? c = some id := by
  rw [h.children, List.mem_filter, beq_iff_eq]

/-- A child that is attached to its parent has been settled. -/
theorem attach {parent child : NodeId} (hparent : p.parent? child = some parent) :
    Stage p (done ++ [child]) (t.attach parent child) := by
  have hparent' : t.parent? child = some parent := by rw [parent?_stems h.stems, hparent]
  refine ⟨h.handle, (stems_attach t _ _).trans h.stems, fun id => ?_⟩
  rw [children_attach hparent', h.children, List.filter_append, List.filter_singleton, hparent]
  by_cases heq : id = parent
  · rw [heq]
    simp
  · have hne : (some parent == some id) = false := beq_eq_false_iff_ne.2 fun h =>
      heq (Option.some.inj h).symm
    rw [if_neg heq, hne]
    exact (List.append_nil _).symm

/-- The members of a node at a stage: what belongs to it over holders that have been settled. -/
theorem mem_members_iff {d s : NodeId} : d ∈ t.members s ↔
    d ∈ done ∧ (∃ x, p.symbol? d = some x ∧ x.isDeclaration = true) ∧
      p.BelongsOver (· ∈ done) d s := by
  constructor
  · intro hd
    induction s using (measure fun id => t.size - id).wf.induction with
    | h s ih =>
        rw [members_eq, List.mem_flatMap] at hd
        obtain ⟨c, hc, hd⟩ := hd
        obtain ⟨hdone, hparent⟩ := h.mem_children_iff.1 hc
        unfold membersBy at hd
        split at hd
        · cases hd
        · rename_i y hy
          split at hd
          · rename_i hholder
            obtain ⟨hmem, hdeclares, hover⟩ := ih c (sub_lt_of_mem_children hc) hd
            refine ⟨hmem, hdeclares, .held hover hdone ?_ hholder hparent⟩
            rw [← kind?_stems h.stems, kind?, hy, Option.map_some]
          · split at hd
            · rename_i hdeclares
              obtain rfl := List.mem_singleton.1 hd
              obtain ⟨x, hx, hstem⟩ := exists_symbol?_stems h.stems hy
              exact ⟨hdone, ⟨x, hx, by rw [Symbol.stem_isDeclaration hstem, hdeclares]⟩, .inside hparent⟩
            · cases hd
  · rintro ⟨hmem, ⟨x, hx, hdeclares⟩, hover⟩
    induction hover with
    | inside hparent =>
        rw [members_eq, List.mem_flatMap]
        refine ⟨d, h.mem_children_iff.2 ⟨hmem, hparent⟩, ?_⟩
        obtain ⟨y, hy, hstem⟩ := exists_symbol?_stems h.stems.symm hx
        have hdeclares' : y.isDeclaration = true := by rw [Symbol.stem_isDeclaration hstem, hdeclares]
        rw [membersBy, hy]
        simp [Symbol.isHolder_eq_false_of_isDeclaration hdeclares', hdeclares']
    | @held c s k _ hc hk hholder hparent ih =>
        rw [members_eq, List.mem_flatMap]
        refine ⟨c, h.mem_children_iff.2 ⟨hc, hparent⟩, ?_⟩
        rw [← kind?_stems h.stems, kind?] at hk
        obtain ⟨y, hy, rfl⟩ := Option.map_eq_some_iff.1 hk
        rw [membersBy, hy]
        simp only [hholder, if_true]
        exact ih

section Final

variable {rest : List NodeId} (h' : Stage p (done ++ rest) t') (hrest : ∀ x ∈ rest, x ∉ done)

include h' hrest

/-- Nothing more is attached to a node when all that stands inside it has been settled. -/
theorem children_eq {s : NodeId} (hin : ∀ x, s ∈ p.ancestors x → x ∈ done) :
    t'.children s = t.children s := by
  have hnone : (rest.filter fun c => p.parent? c == some s) = [] :=
    List.filter_eq_nil_iff.2 fun c hc hparent =>
      hrest c hc (hin c (mem_ancestors_of_parent (eq_of_beq hparent)))
  rw [h'.children, h.children, List.filter_append, hnone, List.append_nil]

/-- The members of such a node stay as they are. -/
theorem members_eq {s : NodeId} (hin : ∀ x, s ∈ p.ancestors x → x ∈ done) :
    t'.members s = t.members s := by
  induction s using (measure fun id => t.size - id).wf.induction with
  | h s ih =>
      rw [SymbolTree.members_eq, SymbolTree.members_eq, h.children_eq h' hrest hin, List.flatMap_def,
        List.flatMap_def]
      refine congrArg List.flatten (List.map_congr_left fun c hc => ?_)
      have hinside : ∀ x, c ∈ p.ancestors x → x ∈ done := fun x hx =>
        hin x (mem_ancestors_trans (mem_ancestors_of_parent (h.mem_children_iff.1 hc).2) hx)
      have hmembers := ih c (sub_lt_of_mem_children hc) hinside
      unfold membersBy
      cases hs : t.symbol? c with
      | none =>
          have hsame := symbol?_stems (h'.stems.trans h.stems.symm) c
          rw [hs, Option.map_none, Option.map_eq_none_iff] at hsame
          rw [hsame]
      | some x =>
          obtain ⟨y, hy, hstem⟩ := exists_symbol?_stems (h.stems.trans h'.stems.symm) hs
          simp only [hy, Symbol.stem_kind hstem, Symbol.stem_isDeclaration hstem, hmembers]

end Final

end

/-- From one stage to the next. -/
theorem settle {g : Growth} (h : Stage p done g.tree) (maxDepth : Nat) (id : NodeId) :
    Stage p (done ++ [id]) (g.settle maxDepth id).tree := by
  have haccept : Stage p done (g.accept maxDepth id).tree :=
    h.congr (Growth.outline_accept maxDepth g id)
      (accept_kept (P := fun t => t.handle = g.tree.handle)
        (fun t usage d ht => (handle_connect t usage d).trans ht) (fun _ _ _ ht => ht)
        (fun _ _ ht => ht) maxDepth id rfl)
  have hparent := congrFun (parent?_stems haccept.stems) id
  simp only [Growth.settle]
  split
  · rename_i q hq
    exact haccept.attach (by rw [← hparent, hq])
  · rename_i hq
    refine ⟨haccept.handle, haccept.stems, fun i => ?_⟩
    rw [hparent] at hq
    rw [haccept.children, List.filter_append, List.filter_singleton, hq]
    simp

/-- After the turns of a row the nodes of the row have been settled. -/
theorem foldl_settle {order : List NodeId} {g : Growth} (h : Stage p done g.tree) (maxDepth : Nat) :
    Stage p (done ++ order) (order.foldl (Growth.settle maxDepth) g).tree := by
  induction order generalizing g done with
  | nil => rwa [List.append_nil]
  | cons id order ih =>
      have hrest := ih (h.settle maxDepth id)
      rwa [List.append_assoc] at hrest

end Stage

/-- What a text is grown into is the last stage. -/
theorem stage_grow (maxDepth file generation : Nat) (m : LineMap) (tree : SyntaxTree) :
    Stage (planted file generation m tree) (settlingOrder 0 tree)
      (grow maxDepth file generation m tree) :=
  Stage.foldl_settle (g := ⟨planted file generation m tree, []⟩)
    (stage_planted file generation m tree) maxDepth

/-- The nodes directly inside another one are listed in the order of the text. -/
theorem pairwise_children_grow (maxDepth file generation : Nat) (m : LineMap) (tree : SyntaxTree)
    (id : NodeId) : ((grow maxDepth file generation m tree).children id).Pairwise (· < ·) := by
  have hsettled := (laid_planted file generation m tree).pairwise_settlingOrder
    fun p hp => by cases hp
  rw [(stage_grow maxDepth file generation m tree).children]
  refine (hsettled.filter _).imp_of_mem fun {a b} ha hb hab => ?_
  have hparent : (planted file generation m tree).parent? a = some id :=
    eq_of_beq (List.mem_filter.1 ha).2
  have hparent' : (planted file generation m tree).parent? b = some id :=
    eq_of_beq (List.mem_filter.1 hb).2
  rcases hab with hmem | ⟨hlt, -⟩
  · -- The one is not inside the other, because both stand in the same node.
    exfalso
    rw [ancestors_of_parent _ hparent, List.mem_cons] at hmem
    rcases hmem with rfl | hmem
    · exact absurd (parent?_lt hparent') (Nat.lt_irrefl _)
    · exact absurd (parent?_lt hparent') (Nat.lt_asymm (lt_of_mem_ancestors hmem))
  · exact hlt

/-! ## Where a declaration is found for the time being -/

/-- What belongs to a node around the node `id` whose turn it is, and has been settled, is a member of
that node, or of one further inside that stands around `id` as well. -/
theorem Belongs.exists_around {d s id : NodeId} (h : p.Belongs d s) (hs : s ∈ p.ancestors id)
    (hid : ∀ k, p.kind? id = some k → k.isHolder = false)
    (hdone : ∀ x ∈ p.ancestors d, x ≠ id → x ∉ p.ancestors id → x ∈ done) :
    ∃ s', s' ∈ p.ancestors id ∧ (s' = s ∨ s ∈ p.ancestors s') ∧ p.BelongsOver (· ∈ done) d s' := by
  -- Holders that do not stand around `id` have been settled, and so have those further inside.
  have hover : ∀ {x}, p.Belongs d x → x ∉ p.ancestors id → x ≠ id → p.BelongsOver (· ∈ done) d x := by
    intro x hx
    induction hx with
    | inside hp => exact fun _ _ => .inside hp
    | @held y x k hy _ hk hholder hp ih =>
        intro hnot hne
        have hy' : y ∉ p.ancestors id := fun hmem =>
          hnot (mem_ancestors_trans (mem_ancestors_of_parent hp) hmem)
        have hne' : y ≠ id := fun heq => by
          rw [heq] at hk
          rw [hid k hk] at hholder
          cases hholder
        exact .held (ih hy' hne') (hdone y hy.mem_ancestors hne' hy') hk hholder hp
  induction h with
  | inside hp => exact ⟨_, hs, .inl rfl, .inside hp⟩
  | @held y s k hy _ hk hholder hp ih =>
      have hys := mem_ancestors_of_parent hp
      by_cases hmem : y ∈ p.ancestors id
      · obtain ⟨s', hs', hin, hd⟩ := ih hmem
        refine ⟨s', hs', .inr ?_, hd⟩
        rcases hin with rfl | hin
        · exact hys
        · exact mem_ancestors_trans hys hin
      · have hne : y ≠ id := fun heq => by
          rw [heq] at hk
          rw [hid k hk] at hholder
          cases hholder
        exact ⟨s, hs, .inl rfl, .held (hover hy hmem hne) (hdone y hy.mem_ancestors hne hmem) hk
          hholder hp⟩

end SymbolTree

end SolidityAtlas

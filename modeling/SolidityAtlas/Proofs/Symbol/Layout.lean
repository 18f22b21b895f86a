import SolidityAtlas.Proofs.Symbol.Grown
import SolidityAtlas.Proofs.Symbol.Stem
import SolidityAtlas.Proofs.Syntax.Nesting

/-!
# How a syntax tree is laid out

The nodes of a syntax tree are numbered from some number on, a node before what it holds.
`SymbolTree.Laid` says, by recursion on the syntax tree, that the symbols with these
numbers have the kinds of the nodes and stand around each other as the nodes do. What is
planted is laid out like this, and so is every stage of its growth.

From this follows what the settling order is: the nodes are settled in the order of
`SettledBefore`, each of them once. And from where directives and contracts stand in a
text follows where their symbols stand.

## Main Definitions

* `SymbolTree.Laid`: symbols that stand for the nodes of a syntax tree
* `SymbolTree.Turn`: it is the turn of a node to be settled

## Main Results

* `SymbolTree.laid_planted`
* `SymbolTree.Laid.pairwise_settlingOrder`: the order of settling
* `SymbolTree.settledBefore_of_append`: what is settled before a node
* `SymbolTree.parent?_of_topLevel`: where directives and contracts stand
* `SymbolTree.turn_of_append`: what has been settled when the turn of a node comes
-/

namespace SolidityAtlas

namespace SymbolTree

variable (t : SymbolTree)

mutual

/-- The symbols from `id` on stand for the nodes of a syntax tree inside `outer`. -/
def Laid (outer : Option NodeId) (id : Nat) : SyntaxTree → Prop
  | .leaf _ _ => True
  | .node kind inner =>
    t.kind? id = some kind ∧ t.parent? id = outer ∧ LaidAll (some id) (id + 1) inner

/-- The symbols from `id` on stand for the nodes of a row of syntax trees inside `outer`. -/
def LaidAll (outer : Option NodeId) (id : Nat) : List SyntaxTree → Prop
  | [] => True
  | tree :: trees => Laid outer id tree ∧ LaidAll outer (id + tree.nodeCount) trees

end

variable {t} {outer : Option NodeId}

/-! ## Planting -/

mutual

/-- Symbols that are planted in a tree are laid out there. -/
theorem laid_of_plant (m : LineMap) (around : Surroundings) (start : Nat) {id : Nat}
    (hlt : ∀ p, around.parent = some p → p < id) : {tree : SyntaxTree} →
    (∀ i s, (plant m around id start tree)[i]? = some s → t.symbol? (id + i) = some s) →
    t.Laid around.parent id tree
  | .leaf _ _, _ => trivial
  | .node kind inner, h => by
    have hroot := h 0 _ (by rw [plant]; rfl)
    rw [Nat.add_zero] at hroot
    refine ⟨?_, ?_, laid_of_plantAll m ⟨some kind, some id, headContext kind around.context⟩ start
      (fun p hp => ?_) fun i s hs => ?_⟩
    · rw [kind?, hroot, Option.map_some, Symbol.kind_ofSite]
    · rw [parent?, hroot, Option.bind_some]
      cases hp : around.parent with
      | none => simp [Symbol.ofSite]
      | some p => simpa [Symbol.ofSite, hp] using hlt p hp
    · cases hp
      exact Nat.lt_succ_self _
    · have hcons := h (i + 1) s (by rw [plant]; exact hs)
      rw [Nat.add_assoc, Nat.add_comm 1 i]
      exact hcons

/-- A row of trees is laid out one tree after the other. -/
theorem laid_of_plantAll (m : LineMap) (around : Surroundings) (start : Nat) {id : Nat}
    (hlt : ∀ p, around.parent = some p → p < id) : {trees : List SyntaxTree} →
    (∀ i s, (plantAll m around id start trees)[i]? = some s → t.symbol? (id + i) = some s) →
    t.LaidAll around.parent id trees
  | [], _ => trivial
  | tree :: trees, h => by
    refine ⟨laid_of_plant m around start hlt fun i s hs => ?_,
      laid_of_plantAll m { around with context := if tree.isLeaf then around.context else none }
        (start + tree.byteLength)
        (fun p hp => Nat.lt_of_lt_of_le (hlt p hp) (Nat.le_add_right _ _)) fun i s hs => ?_⟩
    · refine h i s ?_
      rw [plantAll, List.getElem?_append_left (List.getElem?_eq_some_iff.1 hs).1]
      exact hs
    · rw [Nat.add_assoc]
      refine h _ s ?_
      have hlength := length_plant m around id start tree
      rw [plantAll, List.getElem?_append_right (by rw [hlength]; exact Nat.le_add_right _ _), hlength,
        Nat.add_sub_cancel_left]
      exact hs

end

/-- What is planted is laid out like the syntax tree. -/
theorem laid_planted (file generation : Nat) (m : LineMap) (tree : SyntaxTree) :
    (planted file generation m tree).Laid none 0 tree := by
  refine laid_of_plant m ⟨none, none, none⟩ 0
    (fun p hp => by cases hp) fun i s hs => ?_
  rw [Nat.zero_add, symbol?, planted, List.getElem?_toArray]
  exact hs

/-- Every node of the syntax is planted. -/
theorem size_planted (file generation : Nat) (m : LineMap) (tree : SyntaxTree) :
    (planted file generation m tree).size = tree.nodeCount := by
  rw [size, planted, List.size_toArray, length_plant]

/-! ## Parents -/

mutual

/-- The node around a node of a tree stands in the tree, the root apart. -/
theorem Laid.parent? {id x : Nat} {outer : Option NodeId} : {tree : SyntaxTree} →
    t.Laid outer id tree → id ≤ x → x < id + tree.nodeCount →
    (x = id ∧ t.parent? x = outer) ∨ ∃ q, t.parent? x = some q ∧ id ≤ q
  | .leaf _ _, _, hle, hlt => absurd hlt (Nat.not_lt.2 hle)
  | .node _ inner, ⟨_, hp, hinner⟩, hle, hlt => by
    rcases Nat.eq_or_lt_of_le hle with rfl | hid
    · exact .inl ⟨rfl, hp⟩
    · rw [SyntaxTree.nodeCount] at hlt
      rcases hinner.parent? (x := x) hid (by omega) with hx | ⟨q, hx, hq⟩
      · exact .inr ⟨id, hx, Nat.le_refl _⟩
      · exact .inr ⟨q, hx, Nat.le_of_succ_le hq⟩

/-- The parent of a node of a row stands in the row, or around it. -/
theorem LaidAll.parent? {id x : Nat} {outer : Option NodeId} : {trees : List SyntaxTree} →
    t.LaidAll outer id trees → id ≤ x → x < id + SyntaxTree.nodeCountOf trees →
    t.parent? x = outer ∨ ∃ q, t.parent? x = some q ∧ id ≤ q
  | [], _, hle, hlt => absurd hlt (Nat.not_lt.2 hle)
  | tree :: trees, ⟨htree, htrees⟩, hle, hlt => by
    rw [SyntaxTree.nodeCountOf] at hlt
    by_cases hx : x < id + tree.nodeCount
    · rcases htree.parent? hle hx with ⟨-, hp⟩ | hp
      · exact .inl hp
      · exact .inr hp
    · rcases htrees.parent? (x := x) (Nat.not_lt.1 hx) (by omega) with hp | ⟨q, hp, hq⟩
      · exact .inl hp
      · exact .inr ⟨q, hp, Nat.le_trans (Nat.le_add_right _ _) hq⟩

end

/-- The root of a tree stands around all other nodes of the tree. -/
theorem Laid.mem_ancestors {id x : Nat} {tree : SyntaxTree} (h : t.Laid outer id tree)
    (hlt : id < x) (hx : x < id + tree.nodeCount) : id ∈ t.ancestors x := by
  induction x using Nat.strongRecOn with
  | ind x ih =>
      rcases h.parent? (Nat.le_of_lt hlt) hx with ⟨rfl, -⟩ | ⟨q, hq, hid⟩
      · exact absurd hlt (Nat.lt_irrefl _)
      · have hqx := parent?_lt hq
        refine mem_ancestors_iff.2 ⟨q, hq, ?_⟩
        rcases Nat.eq_or_lt_of_le hid with heq | hid
        · exact .inl heq
        · exact .inr (ih q hqx hid (Nat.lt_trans hqx hx))

/-- Around a node of a row of trees stand nodes of the row, and what stands around the row. -/
theorem LaidAll.le_of_mem_ancestors {id x a : Nat} {trees : List SyntaxTree}
    (h : t.LaidAll outer id trees) (hle : id ≤ x) (hx : x < id + SyntaxTree.nodeCountOf trees)
    (ha : a ∈ t.ancestors x) : id ≤ a ∨ ∃ p, outer = some p ∧ a ≤ p := by
  induction x using Nat.strongRecOn with
  | ind x ih =>
      obtain ⟨q, hq, ha⟩ := mem_ancestors_iff.1 ha
      rcases h.parent? hle hx with hp | ⟨q', hq', hid⟩
      · refine .inr ⟨q, hp.symm.trans hq, ?_⟩
        rcases ha with rfl | ha
        · exact Nat.le_refl _
        · exact Nat.le_of_lt (lt_of_mem_ancestors ha)
      · obtain rfl : q = q' := Option.some.inj (hq.symm.trans hq')
        rcases ha with rfl | ha
        · exact .inl hid
        · exact ih q (parent?_lt hq) hid (Nat.lt_trans (parent?_lt hq) hx) ha

/-! ## The settling order -/

mutual

/-- Every node of a tree is settled. -/
theorem mem_settlingOrder_of_lt {id x : Nat} : {tree : SyntaxTree} → id ≤ x →
    x < id + tree.nodeCount → x ∈ settlingOrder id tree
  | .leaf _ _, hle, hlt => absurd hlt (Nat.not_lt.2 hle)
  | .node _ inner, hle, hlt => by
    rw [settlingOrder, List.mem_append, List.mem_singleton]
    rw [SyntaxTree.nodeCount] at hlt
    rcases Nat.eq_or_lt_of_le hle with heq | hid
    · exact .inr heq.symm
    · exact .inl (mem_settlingOrderOf_of_lt hid (by omega))

/-- Every node of a row has its turn. -/
theorem mem_settlingOrderOf_of_lt {id x : Nat} : {trees : List SyntaxTree} → id ≤ x →
    x < id + SyntaxTree.nodeCountOf trees → x ∈ settlingOrderOf id trees
  | [], hle, hlt => absurd hlt (Nat.not_lt.2 hle)
  | tree :: trees, hle, hlt => by
    rw [settlingOrderOf, List.mem_append]
    rw [SyntaxTree.nodeCountOf] at hlt
    by_cases hx : x < id + tree.nodeCount
    · exact .inl (mem_settlingOrder_of_lt hle hx)
    · exact .inr (mem_settlingOrderOf_of_lt (Nat.not_lt.1 hx) (by omega))

end

/-- Every node has its turn. -/
theorem mem_settlingOrder_planted {file generation : Nat} {m : LineMap} {tree : SyntaxTree}
    {x : Nat} : x ∈ settlingOrder 0 tree ↔ x < (planted file generation m tree).size := by
  rw [size_planted]
  constructor
  · intro hx
    have := (mem_settlingOrder hx).2
    omega
  · intro hx
    exact mem_settlingOrder_of_lt (Nat.zero_le _) (by omega)

mutual

/-- The nodes of a tree are settled in the order of `SettledBefore`. -/
theorem Laid.pairwise_settlingOrder {id : Nat} {outer : Option NodeId} : {tree : SyntaxTree} →
    t.Laid outer id tree → (∀ p, outer = some p → p < id) →
    (settlingOrder id tree).Pairwise t.SettledBefore
  | .leaf _ _, _, _ => List.Pairwise.nil
  | .node kind inner, h, _ => by
    have hinner := h.2.2
    refine List.pairwise_append.2 ⟨hinner.pairwise_settlingOrderOf fun p hp => ?_,
      List.pairwise_singleton _ _, fun a ha b hb => .inl ?_⟩
    · cases hp
      exact Nat.lt_succ_self _
    · rw [List.mem_singleton.1 hb]
      have := mem_settlingOrderOf ha
      refine h.mem_ancestors (by omega) ?_
      rw [SyntaxTree.nodeCount]
      omega

/-- The turns of a row follow the settling order. -/
theorem LaidAll.pairwise_settlingOrderOf {id : Nat} {outer : Option NodeId} :
    {trees : List SyntaxTree} → t.LaidAll outer id trees → (∀ p, outer = some p → p < id) →
    (settlingOrderOf id trees).Pairwise t.SettledBefore
  | [], _, _ => List.Pairwise.nil
  | tree :: trees, h, hlt => by
    obtain ⟨htree, htrees⟩ := h
    refine List.pairwise_append.2 ⟨htree.pairwise_settlingOrder hlt,
      htrees.pairwise_settlingOrderOf fun p hp =>
        Nat.lt_of_lt_of_le (hlt p hp) (Nat.le_add_right _ _), fun a ha b hb => ?_⟩
    have ha := mem_settlingOrder ha
    have hb := mem_settlingOrderOf hb
    -- What stands around `b` stands in its own part of the row or around the whole row.
    refine .inr ⟨Nat.lt_of_lt_of_le ha.2 hb.1, fun hmem => ?_⟩
    rcases htrees.le_of_mem_ancestors hb.1 hb.2 hmem with hle | ⟨p, hp, hle⟩
    · omega
    · exact absurd ha.1 (Nat.not_le.2 (Nat.lt_of_le_of_lt hle (hlt p hp)))

end

/-- Whatever has been settled when the turn of a node comes is settled before it, and what is left
is settled behind it. -/
theorem settledBefore_of_append (file generation : Nat) (m : LineMap) {tree : SyntaxTree}
    {done rest : List NodeId} {id : NodeId} (h : settlingOrder 0 tree = done ++ id :: rest) :
    (∀ x ∈ done, (planted file generation m tree).SettledBefore x id) ∧
      ∀ x ∈ rest, (planted file generation m tree).SettledBefore id x := by
  have hpairwise := (laid_planted file generation m tree).pairwise_settlingOrder
    fun p hp => by cases hp
  rw [h, List.pairwise_append] at hpairwise
  exact ⟨fun x hx => hpairwise.2.2 x hx id List.mem_cons_self,
    fun x hx => List.rel_of_pairwise_cons hpairwise.2.1 hx⟩

/-! ## Directives and contracts -/

mutual

/-- Inside other nodes, no node is of a kind that stands only directly in the root. -/
theorem Laid.opensAt {id x : Nat} {kind : NodeKind} {outer : Option NodeId} :
    {tree : SyntaxTree} → t.Laid outer id tree → tree.Inner → id ≤ x → x < id + tree.nodeCount →
    t.kind? x = some kind → kind.opensAt 1 = true
  | .leaf _ _, _, _, hle, hlt, _ => absurd hlt (Nat.not_lt.2 hle)
  | .node _ inner, ⟨hk, _, hall⟩, ⟨hopens, hinner⟩, hle, hlt, hkind => by
    rcases Nat.eq_or_lt_of_le hle with rfl | hid
    · rw [hk] at hkind
      cases hkind
      exact hopens
    · rw [SyntaxTree.nodeCount] at hlt
      exact hall.opensAt hinner hid (by omega) hkind

/-- The nodes of a row are of kinds that open inside a node. -/
theorem LaidAll.opensAt {id x : Nat} {kind : NodeKind} {outer : Option NodeId} :
    {trees : List SyntaxTree} → t.LaidAll outer id trees → SyntaxTree.InnerAll trees → id ≤ x →
    x < id + SyntaxTree.nodeCountOf trees → t.kind? x = some kind → kind.opensAt 1 = true
  | [], _, _, hle, hlt, _ => absurd hlt (Nat.not_lt.2 hle)
  | tree :: trees, ⟨htree, htrees⟩, ⟨hinner, hinners⟩, hle, hlt, hkind => by
    rw [SyntaxTree.nodeCountOf] at hlt
    by_cases hx : x < id + tree.nodeCount
    · exact htree.opensAt hinner hle hx hkind
    · exact htrees.opensAt hinners (Nat.not_lt.1 hx) (by omega) hkind

end

/-- In a row of trees that can stand directly in the root, a node is of a kind that can stand
there, and of one that stands nowhere else only if it is the root of one of the trees. -/
theorem LaidAll.of_topLevel {id x : Nat} {kind : NodeKind} {trees : List SyntaxTree}
    (h : t.LaidAll outer id trees) (htop : ∀ tree ∈ trees, tree.TopLevel) (hle : id ≤ x)
    (hlt : x < id + SyntaxTree.nodeCountOf trees) (hkind : t.kind? x = some kind) :
    kind.opensAt 0 = true ∧ (kind.opensAt 1 = true ∨ t.parent? x = outer) := by
  induction trees generalizing id with
  | nil => exact absurd hlt (Nat.not_lt.2 hle)
  | cons tree trees ih =>
      obtain ⟨htree, htrees⟩ := h
      rw [SyntaxTree.nodeCountOf] at hlt
      by_cases hx : x < id + tree.nodeCount
      · have htop := htop tree List.mem_cons_self
        cases tree with
        | leaf kind text => exact absurd hx (Nat.not_lt.2 hle)
        | node k inner =>
            obtain ⟨hk, hp, hall⟩ := htree
            obtain ⟨hopens, hinner⟩ := htop
            rcases Nat.eq_or_lt_of_le hle with rfl | hid
            · rw [hk] at hkind
              cases hkind
              exact ⟨hopens, .inr hp⟩
            · rw [SyntaxTree.nodeCount] at hx
              have hopens := hall.opensAt hinner hid (by omega) hkind
              exact ⟨NodeKind.opensAt_of_opensAt_succ hopens 0, .inl hopens⟩
      · exact ih htrees (fun tree htree => htop tree (List.mem_cons_of_mem _ htree))
          (Nat.not_lt.1 hx) (by omega)

/-- The symbols of a text: the root is a source unit, no other node is one, and what stands only
directly in the root stands there. -/
theorem parent?_of_topLevel {file generation : Nat} {m : LineMap} {text : String} {x : Nat}
    {kind : NodeKind} (hkind : (planted file generation m (parse text).tree).kind? x = some kind) :
    (x = 0 ∧ kind = .sourceUnit) ∨ (x ≠ 0 ∧ kind ≠ .sourceUnit ∧ (kind.opensAt 1 = true ∨
      (planted file generation m (parse text).tree).parent? x = some 0)) := by
  obtain ⟨inner, htree, htop⟩ := exists_topLevel_parse text
  have hlaid := laid_planted file generation m (parse text).tree
  have hsize := size_planted file generation m (parse text).tree
  generalize planted file generation m (parse text).tree = t at hlaid hsize hkind ⊢
  rw [htree] at hlaid hsize
  obtain ⟨hroot, -, hall⟩ := hlaid
  have hlt : x < t.size := by
    obtain ⟨s, hs, -⟩ := Option.map_eq_some_iff.1 hkind
    exact lt_size_of_symbol? hs
  rw [hsize, SyntaxTree.nodeCount] at hlt
  rcases Nat.eq_zero_or_pos x with rfl | hpos
  · rw [hroot] at hkind
    exact .inl ⟨rfl, (Option.some.inj hkind).symm⟩
  · obtain ⟨hopens, hstands⟩ := hall.of_topLevel htop hpos (by omega) hkind
    refine .inr ⟨Nat.ne_of_gt hpos, fun heq => ?_, hstands⟩
    rw [heq] at hopens
    cases hopens

/-- Around the root stands nothing. -/
theorem parent?_root (t : SymbolTree) : t.parent? root = none := by
  cases hp : t.parent? root with
  | none => rfl
  | some p => exact absurd (parent?_lt hp) (Nat.not_lt_zero p)

/-- One node stands around all others, and it is the only source unit. Contracts stand directly
in it. -/
structure Rooted (p : SymbolTree) : Prop where
  kind : p.kind? root = some .sourceUnit
  around : ∀ x, x < p.size → x ≠ root → root ∈ p.ancestors x
  unique : ∀ x, p.kind? x = some .sourceUnit → x = root
  contracts : ∀ x, p.kind? x = some .contractDefinition → p.parent? x = some root

/-- The root of the symbols of a text is the file. -/
theorem rooted_planted (file generation : Nat) (m : LineMap) (text : String) :
    (planted file generation m (parse text).tree).Rooted := by
  have hlaid := laid_planted file generation m (parse text).tree
  refine ⟨?_, fun x hx hne => ?_, fun x hx => ?_, fun x hx => ?_⟩
  · obtain ⟨inner, htree, -⟩ := exists_topLevel_parse text
    rw [htree] at hlaid ⊢
    exact hlaid.1
  · rw [size_planted] at hx
    exact hlaid.mem_ancestors (Nat.pos_of_ne_zero hne) (by rw [Nat.zero_add]; exact hx)
  · rcases parent?_of_topLevel hx with ⟨rfl, -⟩ | ⟨-, hne, -⟩
    · rfl
    · exact absurd rfl hne
  · rcases parent?_of_topLevel hx with ⟨-, hk⟩ | ⟨-, -, hinner | hp⟩
    · cases hk
    · cases hinner
    · exact hp

namespace Rooted

variable {p : SymbolTree}

/-- The root is seen in the shape already. -/
theorem congr (h : p.Rooted) (hstems : t.stems = p.stems) : t.Rooted := by
  have hkind := kind?_stems hstems
  refine ⟨by rw [hkind, h.kind], fun x hx hne => ?_, fun x hx => h.unique x (by rw [← hkind, hx]),
    fun x hx => ?_⟩
  · rw [ancestors_stems hstems]
    exact h.around x (by rwa [← size_stems hstems]) hne
  · rw [parent?_stems hstems]
    exact h.contracts x (by rw [← hkind, hx])

variable (h : p.Rooted) {c : NodeId} (hc : p.kind? c = some .contractDefinition)

include h hc

/-- Around a contract stands the file and nothing else. -/
theorem ancestors_contract : p.ancestors c = [root] := by
  rw [ancestors_of_parent p (h.contracts c hc), ancestors_of_root p (parent?_root p)]

/-- The file stands around every contract. -/
theorem root_mem_ancestors : root ∈ p.ancestors c := by
  rw [h.ancestors_contract hc]
  exact List.mem_singleton_self _

/-- A contract is not the file. -/
theorem ne_root : c ≠ root := fun heq => by
  rw [heq, h.kind] at hc
  cases hc

/-- A contract stands in no other one. -/
theorem not_mem_ancestors {b : NodeId} (hb : p.kind? b = some .contractDefinition) :
    b ∉ p.ancestors c := fun hmem => by
  rw [h.ancestors_contract hc] at hmem
  exact h.ne_root hb (List.mem_singleton.1 hmem)

/-- A node stands in one contract at most. -/
theorem eq_of_mem_ancestors {b u : NodeId} (hb : p.kind? b = some .contractDefinition)
    (hcu : c ∈ p.ancestors u) (hbu : b ∈ p.ancestors u) : b = c := by
  rcases eq_or_mem_ancestors hbu hcu with heq | hmem | hmem
  · exact heq
  · exact absurd hmem (h.not_mem_ancestors hc hb)
  · exact absurd hmem (h.not_mem_ancestors hb hc)

end Rooted

/-! ## Turns -/

/-- It is the turn of a node when all nodes before it have been settled, and no others. -/
structure Turn (p : SymbolTree) (done : List NodeId) (id : NodeId) : Prop where
  lt_size : id < p.size
  mem_iff : ∀ x, x ∈ done ↔ x < p.size ∧ p.SettledBefore x id
  /-- What stands inside a node that has been settled has been settled. -/
  inside : ∀ d ∈ done, ∀ x, d ∈ p.ancestors x → x ∈ done

/-- The nodes are settled in their turns. -/
theorem turn_of_append {file generation : Nat} {m : LineMap} {tree : SyntaxTree}
    {done rest : List NodeId} {id : NodeId} (h : settlingOrder 0 tree = done ++ id :: rest) :
    (planted file generation m tree).Turn done id := by
  obtain ⟨hdone, hrest⟩ := settledBefore_of_append file generation m h
  have hsize : ∀ x, x < (planted file generation m tree).size ↔ x ∈ done ∨ x = id ∨ x ∈ rest := by
    intro x
    rw [← mem_settlingOrder_planted, h, List.mem_append, List.mem_cons]
  refine ⟨(hsize id).2 (.inr (.inl rfl)), fun x => ⟨fun hx => ⟨(hsize x).2 (.inl hx), hdone x hx⟩, ?_⟩,
    fun d hd x hx => ?_⟩
  · rintro ⟨hx, hbefore⟩
    rcases (hsize x).1 hx with hx | rfl | hx
    · exact hx
    · exact absurd hbefore hbefore.not_settledBefore
    · exact absurd (hrest x hx) hbefore.not_settledBefore
  · by_contra hnot
    have hpairwise := (laid_planted file generation m tree).pairwise_settlingOrder
      fun p hp => by cases hp
    rw [h] at hpairwise
    have hbefore := (List.pairwise_append.1 hpairwise).2.2 d hd x
      (List.mem_cons.2 (((hsize x).1 (lt_size_of_mem_ancestors hx)).resolve_left hnot))
    exact hbefore.not_settledBefore (.inl hx)

namespace Turn

variable {p : SymbolTree} {done : List NodeId} {id : NodeId}

/-- A node has not been settled before its turn. -/
theorem not_mem (h : p.Turn done id) : id ∉ done := fun hmem =>
  have hbefore := ((h.2 id).1 hmem).2
  hbefore.not_settledBefore hbefore

/-- What stands around the node whose turn it is has not been settled. -/
theorem not_mem_of_mem_ancestors (h : p.Turn done id) {x : NodeId} (hx : x ∈ p.ancestors id) :
    x ∉ done := fun hmem =>
  ((h.2 x).1 hmem).2.not_settledBefore (.inl hx)

/-- What stands around a node that has been settled has been settled, unless it is, or stands around,
the node whose turn it is. -/
theorem mem_of_mem_ancestors (h : p.Turn done id) {d x : NodeId} (hd : d ∈ done)
    (hx : x ∈ p.ancestors d) (hne : x ≠ id) (hnot : x ∉ p.ancestors id) : x ∈ done := by
  obtain ⟨hlt, hbefore⟩ := (h.2 d).1 hd
  exact (h.2 x).2 ⟨Nat.lt_trans (lt_of_mem_ancestors hx) hlt, hbefore.ancestor hx hne hnot⟩

/-- The root is settled last. -/
theorem mem_of_ne_root (hroot : p.Rooted) (h : p.Turn done root) {x : NodeId} (hx : x < p.size)
    (hne : x ≠ root) : x ∈ done :=
  (h.2 x).2 ⟨hx, .inl (hroot.around x hx hne)⟩

end Turn

end SymbolTree

end SolidityAtlas

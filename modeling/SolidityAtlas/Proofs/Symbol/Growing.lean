import SolidityAtlas.Proofs.Symbol.Accounted
import SolidityAtlas.Proofs.Symbol.Linearization
import SolidityAtlas.Proofs.Symbol.Stage

/-!
# What stays visible while a tree grows

A tree only ever grows: nodes get more children behind those they have, and uses that have
been linked stay linked to what they are linked to. So what has once been found is found in
the finished tree as well. Members stay members, and a linearization keeps all contracts
that it lists, though not always their order.

## Main Definitions

* `SymbolTree.Grows`: a tree has all that another one has
* `SymbolTree.found?`: the declaration that a use has found
* `SymbolTree.baseAt?`: the contract that an inheritance specifier names

## Main Results

* `SymbolTree.Grows.mem_members`, `SymbolTree.Grows.mem_linearize`
* `SymbolTree.AccountedBut.grows_settle`: settling a node makes a tree grow
-/

namespace SolidityAtlas

namespace SymbolTree

variable {t t' t'' : SymbolTree}

/-! ## The forest of one tree, node by node -/

/-- A tree by itself knows the kinds of its nodes. -/
theorem kind?_alone (t : SymbolTree) (id : NodeId) : t.alone.kind? (t.handle id) = t.kind? id := by
  rw [Forest.kind?, symbol?_alone, lookup?_handle]
  rfl

/-- A handle that is of some kind is the handle of a node of this kind. -/
theorem kind?_node {a : Handle} {k : NodeKind} (hk : t.alone.kind? a = some k) :
    t.kind? a.node = some k := by
  obtain ⟨y, hy, -⟩ := Option.map_eq_some_iff.1 hk
  obtain ⟨id, -, rfl⟩ := isSome_symbol?_alone.1 (Option.isSome_iff_exists.2 ⟨y, hy⟩)
  rwa [kind?_alone] at hk

/-- A tree by itself is the home of its nodes. -/
theorem home?_alone (t : SymbolTree) {id : NodeId} (hid : id < t.size) :
    t.alone.home? (t.handle id) = some t := by
  have htree : t.alone.tree (t.handle id).file = some t := if_pos rfl
  rw [Forest.home?, htree, Option.filter_some, if_pos (owns_iff.2 ⟨id, hid, rfl⟩)]

/-- A handle without a symbol is of no tree. -/
theorem home?_alone_eq_none {h : Handle} (hnone : ¬ (t.alone.symbol? h).isSome = true) :
    t.alone.home? h = none := by
  rw [Forest.home?, tree_alone]
  split
  · rw [Option.filter_some, if_neg]
    intro howns
    exact hnone (isSome_symbol?_alone.2 (owns_iff.1 howns))
  · rfl

theorem children_alone (t : SymbolTree) (id : NodeId) :
    t.alone.children (t.handle id) = (t.children id).map t.handle := by
  by_cases hid : id < t.size
  · rw [Forest.children, t.home?_alone hid]
    rfl
  · have hsymbol : t.symbol? id = none := Array.getElem?_eq_none (Nat.not_lt.1 hid)
    have hhome : t.alone.home? (t.handle id) = none := by
      have htree : t.alone.tree (t.handle id).file = some t := if_pos rfl
      rw [Forest.home?, htree, Option.filter_some, if_neg]
      simp [handle, owns, hid]
    rw [Forest.children, hhome, children, hsymbol]
    rfl

/-- The kind of a node is decided by the stems. -/
theorem kind?_alone_congr (hhandle : t'.handle = t.handle) (hstems : t'.stems = t.stems) (a : Handle) :
    t'.alone.kind? a = t.alone.kind? a := by
  have hzero := congrFun hhandle 0
  have hfile : t'.file = t.file := congrArg Handle.file hzero
  have hgeneration : t'.generation = t.generation := congrArg Handle.generation hzero
  have howns : t'.owns a = t.owns a := by
    rw [owns, owns, hfile, hgeneration, size_stems hstems]
  rw [Forest.kind?, Forest.kind?, symbol?_alone, symbol?_alone, lookup?, lookup?, howns]
  split
  · exact congrFun (kind?_stems hstems) a.node
  · rfl

/-- The declaration that a use has found. -/
def found? (t : SymbolTree) (u : NodeId) : Option Handle :=
  (t.symbol? u).bind Symbol.declaration

/-- A tree by itself knows what its uses are linked to. -/
theorem declaration?_alone (t : SymbolTree) (id : NodeId) :
    t.alone.declaration? (t.handle id) = t.found? id := by
  rw [Forest.declaration?, symbol?_alone, lookup?_handle, found?]

theorem members_alone (t : SymbolTree) {id : NodeId} (hid : id < t.size) :
    t.alone.members (t.handle id) = (t.members id).map t.handle := by
  rw [Forest.members, t.home?_alone hid]
  rfl

/-- The contract that an inheritance specifier names. -/
def baseAt? (t : SymbolTree) (specifier : NodeId) : Option Handle :=
  if t.kind? specifier = some .inheritanceSpecifier then
    (t.firstChild? specifier).bind fun name =>
      (t.found? name).filter fun b =>
        t.alone.kind? b == some .contractDefinition
  else none

/-- A specifier leads to a base if its first child names a contract. -/
theorem baseAt?_eq_some_iff {specifier : NodeId} {b : Handle} : t.baseAt? specifier = some b ↔
    t.kind? specifier = some .inheritanceSpecifier ∧ ∃ name, t.firstChild? specifier = some name ∧
      t.found? name = some b ∧ t.alone.kind? b = some .contractDefinition := by
  rw [baseAt?]
  split
  · rename_i hk
    rw [Option.bind_eq_some_iff, and_iff_right hk]
    simp only [Option.filter_eq_some_iff, beq_iff_eq]
  · rename_i hk
    exact ⟨nofun, fun h => absurd h.1 hk⟩

/-- A contract has the bases that its specifiers lead to, in order. -/
theorem bases_alone (t : SymbolTree) (c : NodeId) :
    t.alone.bases (t.handle c) = (t.children c).filterMap t.baseAt? := by
  have hfirst : ∀ id, t.alone.firstChild? (t.handle id) = (t.firstChild? id).map t.handle := by
    intro id
    rw [Forest.firstChild?, children_alone, List.head?_map]
    rfl
  rw [Forest.bases, children_alone, List.filter_map, List.filterMap_map, List.filterMap_filterMap,
    List.filter_filterMap, List.filterMap_filter]
  refine List.filterMap_congr fun specifier _ => ?_
  simp only [Function.comp_apply, kind?_alone, hfirst, baseAt?, beq_iff_eq]
  split
  · cases t.firstChild? specifier with
    | none => rfl
    | some name => simp only [Option.map_some, Option.bind_some, declaration?_alone]
  · rfl

/-- A base is what one of the specifiers leads to. -/
theorem mem_bases_alone {c : NodeId} {b : Handle} :
    b ∈ t.alone.bases (t.handle c) ↔ ∃ specifier ∈ t.children c, t.baseAt? specifier = some b := by
  rw [bases_alone, List.mem_filterMap]

/-! ## Growing -/

/-- A tree has all that another one has: its children, and behind them perhaps more, and its links. -/
structure Grows (t t' : SymbolTree) : Prop where
  handle : t'.handle = t.handle
  stems : t'.stems = t.stems
  children : ∀ id, t.children id <+: t'.children id
  declaration : ∀ id h, t.found? id = some h → t'.found? id = some h

namespace Grows

theorem refl (t : SymbolTree) : t.Grows t :=
  ⟨rfl, rfl, fun _ => List.prefix_refl _, fun _ _ h => h⟩

theorem trans (h : t.Grows t') (h' : t'.Grows t'') : t.Grows t'' :=
  ⟨h'.handle.trans h.handle, h'.stems.trans h.stems,
    fun id => (h.children id).trans (h'.children id),
    fun id d hd => h'.declaration id d (h.declaration id d hd)⟩

variable (h : t.Grows t')

include h

/-- A scope keeps its members while the tree grows. -/
theorem mem_members {d s : NodeId} (hd : d ∈ t.members s) : d ∈ t'.members s := by
  induction s using (measure fun id => t.size - id).wf.induction with
  | h s ih =>
      rw [members_eq, List.mem_flatMap] at hd ⊢
      obtain ⟨c, hc, hd⟩ := hd
      refine ⟨c, (h.children s).subset hc, ?_⟩
      unfold membersBy at hd ⊢
      cases hs : t.symbol? c with
      | none =>
          rw [hs] at hd
          cases hd
      | some x =>
          obtain ⟨x', hx', hstem⟩ := exists_symbol?_stems h.stems.symm hs
          rw [hs] at hd
          simp only [hx', Symbol.stem_kind hstem, Symbol.stem_isDeclaration hstem] at hd ⊢
          split
          · rename_i hholder
            rw [if_pos hholder] at hd
            exact ih c (sub_lt_of_mem_children hc) hd
          · rename_i hholder
            rw [if_neg hholder] at hd
            exact hd

/-- Kinds do not change while the tree grows. -/
theorem kind?_alone (a : Handle) : t'.alone.kind? a = t.alone.kind? a :=
  kind?_alone_congr h.handle h.stems a

/-- The first node inside a node stays the first one. -/
theorem firstChild? {id c : NodeId} (hc : t.firstChild? id = some c) : t'.firstChild? id = some c := by
  obtain ⟨row, hrow⟩ := h.children id
  rw [SymbolTree.firstChild?, ← hrow, List.head?_append, ← SymbolTree.firstChild?, hc, Option.some_or]

/-- A base that is known stays known. -/
theorem baseAt? {specifier : NodeId} {b : Handle} (hb : t.baseAt? specifier = some b) :
    t'.baseAt? specifier = some b := by
  obtain ⟨hk, name, hname, hfound, hkind⟩ := baseAt?_eq_some_iff.1 hb
  rw [← kind?_stems h.stems] at hk
  rw [← h.kind?_alone] at hkind
  exact baseAt?_eq_some_iff.2 ⟨hk, name, h.firstChild? hname, h.declaration name b hfound, hkind⟩

/-- A contract keeps its bases while the tree grows. -/
theorem mem_bases {b c : Handle} (hb : b ∈ t.alone.bases c) : b ∈ t'.alone.bases c := by
  by_cases hc : (t.alone.symbol? c).isSome = true
  · obtain ⟨id, -, rfl⟩ := isSome_symbol?_alone.1 hc
    rw [← h.handle, bases_alone]
    rw [bases_alone] at hb
    obtain ⟨specifier, hspecifier, hb⟩ := List.mem_filterMap.1 hb
    exact List.mem_filterMap.2 ⟨specifier, (h.children id).subset hspecifier, h.baseAt? hb⟩
  · rw [Forest.bases, Forest.children, home?_alone_eq_none hc] at hb
    cases hb

/-- A linearization loses no contract. -/
theorem mem_linearize {maxDepth : Nat} {b c : Handle} (hb : b ∈ t.alone.linearize maxDepth c) :
    b ∈ t'.alone.linearize maxDepth c :=
  Forest.mem_linearize_mono (fun _ _ => h.mem_bases) hb

end Grows

/-! ## What makes a tree grow -/

/-- A tree with the same nodes that has all the links has grown. -/
theorem grows_of_outline (houtline : t'.outline = t.outline) (hhandle : t'.handle = t.handle)
    (hdeclaration : ∀ id h, t.found? id = some h → t'.found? id = some h) : t.Grows t' :=
  ⟨hhandle, stems_congr houtline, fun _ => children_congr houtline ▸ List.prefix_refl _, hdeclaration⟩

/-- A use that has no declaration is linked. -/
theorem grows_connect {u : NodeId} {s : Symbol} (hs : t.symbol? u = some s)
    (hnone : s.declaration = none) (d : Handle) : t.Grows (t.connect u d) := by
  refine grows_of_outline (outline_connect _ _ _) (handle_connect _ _ _) fun id h hd => ?_
  obtain ⟨x, hx, hxd⟩ := Option.bind_eq_some_iff.1 hd
  have hne : id ≠ u := fun heq => by
    rw [heq, hs] at hx
    cases hx
    rw [hnone] at hxd
    cases hxd
  obtain ⟨y, hy⟩ := exists_symbol?_of_lt (show id < (t.connect u d).size by
    rw [size_congr (outline_connect _ _ _)]
    exact lt_size_of_symbol? hx)
  obtain ⟨x', hx', -, hyd, -⟩ := exists_of_symbol?_connect hs hy
  obtain rfl : x = x' := Option.some.inj (hx.symm.trans hx')
  rw [found?, hy, Option.bind_some, hyd, if_neg hne, hxd]

/-- A member that is attached is one more. -/
theorem grows_attach {parent child : NodeId} (hparent : t.parent? child = some parent) :
    t.Grows (t.attach parent child) := by
  refine ⟨rfl, stems_attach t _ _, fun id => ?_, fun id h hd => ?_⟩
  · rw [children_attach hparent]
    split
    · exact List.prefix_append _ _
    · exact List.prefix_refl _
  · obtain ⟨x, hx, hxd⟩ := Option.bind_eq_some_iff.1 hd
    rw [found?, attach, symbol?_modify, hx, Option.map_some, Option.bind_some]
    split <;> exact hxd

/-- A declaration adds members and links. -/
theorem grows_declare (g : Growth) (id : NodeId) : g.tree.Grows (g.declare id).tree := by
  refine grows_of_outline (Growth.outline_declare g id) rfl fun other h hd => ?_
  obtain ⟨x, hx, hxd⟩ := Option.bind_eq_some_iff.1 hd
  have hsymbol : (g.declare id).tree.symbol? other = _ := g.tree.symbol?_modify id _ other
  rw [found?, hsymbol, hx, Option.map_some, Option.bind_some]
  split <;> exact hxd

namespace AccountedBut

variable {rest : NodeId → Prop} {g : Growth} {maxDepth : Nat} {id : NodeId}

/-- Only uses are linked. -/
theorem isUsage_of_found? (h : t.AccountedBut rest) {u : NodeId} {x : Symbol}
    (hx : t.symbol? u = some x) (hu : ¬ rest u) {e : Handle} (he : t.found? u = some e) :
    x.isUsage = true := by
  by_contra hnot
  have hrecord := h.recorded u x hx hu
  have hnone : x.declaration = none := by
    cases hd : x.isDeclaration with
    | true => exact (hrecord.declaration hd).1
    | false => exact (hrecord.other (Bool.eq_false_iff.2 hnot) hd).1
  rw [found?, hx, Option.bind_some, hnone] at he
  cases he

/-- Links on pending uses make the tree grow. -/
theorem grows_links {why : SymbolTree → NodeId → Symbol → Handle → Prop} (h : t.AccountedBut rest)
    (hlinks : Links why t t') : t.Grows t' := by
  induction hlinks with
  | refl => exact .refl t
  | link hlinks hu hs _ ih =>
      obtain ⟨-, -, hnone, -⟩ := (h.links hlinks).of_mem_pending hu hs
      exact ih.trans (grows_connect hs hnone _)

/-- A node that gets its record makes a tree grow. -/
theorem grows_record {g₁ g₂ g₃ : Growth} {s s₁ : Symbol} (h : g₁.tree.AccountedBut rest) (hid : rest id)
    (hs : g₁.tree.symbol? id = some s₁) (hbare : s.bare = s₁.bare)
    (hdeclare : s.isDeclaration = true ∧ g₂ = (g₁.declare id).claim id ∨
      s.isDeclaration = false ∧ g₂ = g₁)
    (hlookUp : s.isUsage = true ∧ g₃ = g₂.lookUp id s ∨ s.isUsage = false ∧ g₃ = g₂) :
    g₁.tree.Grows g₃.tree := by
  obtain ⟨hnone, -⟩ := h.unsettled id s₁ hs hid
  obtain ⟨-, hdeclared⟩ := h.record hid hs hbare
    (fun other => .refl (rest other ∧ other ≠ id)) hdeclare hlookUp
  rcases hdeclare with ⟨hd, rfl⟩ | ⟨-, rfl⟩
  · have hu := Symbol.isUsage_eq_false_of_isDeclaration hd
    obtain rfl : g₃ = (g₁.declare id).claim id :=
      (hlookUp.resolve_left fun hand => by rw [hu] at hand; cases hand.1).2
    exact (grows_declare g₁ id).trans ((hdeclared hd).grows_links
      (Growth.links_claim (hdeclared hd).nodup id))
  · rcases hlookUp with ⟨-, rfl⟩ | ⟨-, rfl⟩
    · rcases g₂.lookUp_cases id s with ⟨d, -, -, heq⟩ | ⟨-, heq⟩
      · rw [heq]
        exact grows_connect hs hnone _
      · rw [heq]
        exact grows_of_outline rfl rfl fun _ _ hd => hd
    · exact .refl _

variable (maxDepth) in
/-- At the end of the file a tree grows. -/
theorem grows_whole (h : g.tree.AccountedBut rest) : g.tree.Grows (g.closeWaiting maxDepth).tree ∧
    (g.closeWaiting maxDepth).tree.Grows ((g.closeWaiting maxDepth).tree.connectMembers maxDepth) := by
  have hwaiting := Growth.links_closeWaiting maxDepth h.nodup
  exact ⟨h.grows_links hwaiting, (h.links hwaiting).grows_links
    (links_connectMembers (hwaiting.nodup_pending h.nodup) maxDepth)⟩

variable (maxDepth) in
/-- Dealing with a node makes a tree grow, from the moment on when a contract has dealt with the uses
inside it. -/
theorem grows_accept (h : g.tree.AccountedBut rest) (hid : rest id) {s : Symbol}
    (hs : g.tree.symbol? id = some s) : g.tree.Grows (g.accept maxDepth id).tree ∧
      (s.kind = .contractDefinition →
        (g.close maxDepth id).tree.Grows (g.accept maxDepth id).tree) := by
  obtain ⟨g₁, g₂, g₃, hclose, hdeclare, hlookUp, hwhole⟩ := g.accept_cases maxDepth hs
  have h₁ : g.tree.Grows g₁.tree ∧ g₁.tree.AccountedBut rest ∧ g₁.tree.outline = g.tree.outline ∧
      (s.kind = .contractDefinition → g₁ = g.close maxDepth id) := by
    rcases hclose with ⟨-, rfl⟩ | ⟨hk, rfl⟩
    · have hlinks := Growth.links_close maxDepth h.nodup id
      exact ⟨h.grows_links hlinks, h.links hlinks, hlinks.outline_eq, fun _ => rfl⟩
    · exact ⟨.refl _, h, rfl, fun hk' => absurd hk' hk⟩
  obtain ⟨hgrows₁, h₁, houtline, hcontract⟩ := h₁
  obtain ⟨s₁, hs₁, hbare⟩ := symbol?_of_outline houtline.symm hs
  obtain ⟨h₃, -⟩ := h₁.record hid hs₁ hbare
    (fun other => .refl (rest other ∧ other ≠ id)) hdeclare hlookUp
  have hgrows₃ := h₁.grows_record hid hs₁ hbare hdeclare hlookUp
  have hgrows : g₁.tree.Grows (g.accept maxDepth id).tree := by
    rcases hwhole with ⟨-, heq⟩ | ⟨-, heq⟩ <;> rw [heq]
    · exact hgrows₃.trans ((h₃.grows_whole maxDepth).1.trans (h₃.grows_whole maxDepth).2)
    · exact hgrows₃
  refine ⟨hgrows₁.trans hgrows, fun hk => ?_⟩
  rw [← hcontract hk]
  exact hgrows

/-- A turn makes the tree grow. -/
theorem grows_settle (h : g.tree.AccountedBut rest) (hid : rest id) (hlt : id < g.tree.size) :
    g.tree.Grows (g.settle maxDepth id).tree := by
  obtain ⟨s, hs⟩ := exists_symbol?_of_lt hlt
  obtain ⟨hgrows, -⟩ := h.grows_accept maxDepth hid hs
  simp only [Growth.settle]
  split
  · rename_i q hq
    exact hgrows.trans (grows_attach hq)
  · exact hgrows

end AccountedBut

end SymbolTree

end SolidityAtlas

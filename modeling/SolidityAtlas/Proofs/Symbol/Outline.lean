import SolidityAtlas.Symbol.Growth
import SolidityAtlas.Workspace.Offers

/-!
# Outlines

The *outline* of a tree is the tree without its links: what each node is, how it is
called and where it stands. Making a link or taking it back never changes the
outline (`outline_link`, `outline_unlinkExternal`, …), and every step up, down or
along the tree is decided by the outline alone (`ancestors_congr`, `members_congr`,
…). So two readings of one text, which differ in their generation and in what their
uses have found so far, have the same shape.

## Main Definitions

* `Symbol.bare`: a symbol without its links
* `SymbolTree.outline`: a tree without its links
-/

namespace SolidityAtlas

/-! ## Arrays with one element changed -/

section Modify

variable {α β : Type} {p : α → β} {f : α → α}

theorem array_modify_self (xs : Array α) (i : Nat) : (xs.modify i fun a => a) = xs := by
  refine Array.ext_getElem? fun j => ?_
  rw [Array.getElem?_modify]
  split
  · exact Option.map_id'
  · rfl

/-- What is read off the elements changes where one of them does. -/
theorem array_map_modify {g : β → β} (h : ∀ a, p (f a) = g (p a)) (xs : Array α) (i : Nat) :
    (xs.modify i f).map p = (xs.map p).modify i g := by
  refine Array.ext_getElem? fun j => ?_
  rw [Array.getElem?_map, Array.getElem?_modify, Array.getElem?_modify, Array.getElem?_map]
  split
  · rw [Option.map_map, Option.map_map]
    exact congrArg (xs[j]?.map ·) (funext h)
  · rfl

/-- What a change leaves out of account is the same after it, wherever it is made. -/
theorem array_map_modify_of_forall (h : ∀ a, p (f a) = p a) (xs : Array α) (i : Nat) :
    (xs.modify i f).map p = xs.map p := by
  rw [array_map_modify (g := fun b => b) h, array_modify_self]

end Modify

/-! ## Symbols without links -/

namespace Symbol

/-- The symbol without its links. -/
def bare (s : Symbol) : Symbol :=
  { s with declaredType := [], declaration := none, references := [] }

variable {s u : Symbol}

theorem label_congr (h : s.bare = u.bare) : s.label = u.label := by
  have : s.bare.label = u.bare.label := by rw [h]
  exact this

theorem detail_congr (h : s.bare = u.bare) : s.detail = u.detail := by
  have : s.bare.detail = u.bare.detail := by rw [h]
  exact this

theorem context_congr (h : s.bare = u.bare) : s.context = u.context := by
  have : s.bare.context = u.bare.context := by rw [h]
  exact this

theorem kind_congr (h : s.bare = u.bare) : s.kind = u.kind := by
  rw [kind, kind, detail_congr h]

theorem name_congr (h : s.bare = u.bare) : s.name = u.name := by
  rw [name, name, label_congr h]

/-- Whether a node is a use does not depend on links. -/
theorem isUsage_congr (h : s.bare = u.bare) : s.isUsage = u.isUsage := by
  rw [isUsage, isUsage, label_congr h, detail_congr h]

theorem isDeclaration_congr (h : s.bare = u.bare) : s.isDeclaration = u.isDeclaration := by
  rw [isDeclaration, isDeclaration, label_congr h, kind_congr h]

theorem isQualified_congr (h : s.bare = u.bare) : s.isQualified = u.isQualified := by
  rw [isQualified, isQualified, detail_congr h]

theorem isByName_congr (h : s.bare = u.bare) : s.isByName = u.isByName := by
  rw [isByName, isByName, kind_congr h, isQualified_congr h]

theorem localName_congr (h : s.bare = u.bare) : s.localName = u.localName := by
  rw [localName, localName, detail_congr h, name_congr h]

/-- Links play no part in whether a declaration can be what a use refers to. -/
theorem acceptsKind_congr (h : s.bare = u.bare) {a b : Symbol} (hab : a.bare = b.bare) :
    s.acceptsKind a = u.acceptsKind b := by
  rw [acceptsKind, acceptsKind, isDeclaration_congr h, kind_congr h, kind_congr hab,
    context_congr hab]

/-- Whether a declaration is what a use means does not depend on links. -/
theorem accepts_congr (h : s.bare = u.bare) {a b : Symbol} (hab : a.bare = b.bare) :
    s.accepts a = u.accepts b := by
  rw [accepts, accepts, label_congr h, name_congr h, name_congr hab, acceptsKind_congr h hab]

/-- A link does not touch what a node is. -/
@[simp] theorem bare_linkTo (d : Handle) (s : Symbol) : (s.linkTo d).bare = s.bare := rfl

@[simp] theorem bare_addReference (usage : Handle) (s : Symbol) :
    (s.addReference usage).bare = s.bare := rfl

@[simp] theorem bare_unlink (s : Symbol) : s.unlink.bare = s.bare := by
  unfold unlink
  split <;> rfl

end Symbol

/-! ## Trees without links -/

namespace SymbolTree

variable (t : SymbolTree)

/-- The tree without its links, whichever reading of the file it comes from. -/
def outline : SymbolTree where
  file := t.file
  generation := 0
  nodes := t.nodes.map Symbol.bare
  pending := []
  external := []

/-- The outline has the nodes of the tree, without their links. -/
theorem symbol?_outline (id : NodeId) :
    t.outline.symbol? id = (t.symbol? id).map Symbol.bare := by
  simp [symbol?, outline]

theorem size_outline : t.outline.size = t.size := by
  simp [size, outline]

theorem kind?_outline (id : NodeId) : t.outline.kind? id = t.kind? id := by
  simp only [kind?, symbol?_outline, Option.map_map]
  rfl

theorem parent?_outline (id : NodeId) : t.outline.parent? id = t.parent? id := by
  simp only [parent?, symbol?_outline, Option.bind_map]
  rfl

theorem children_outline (id : NodeId) : t.outline.children id = t.children id := by
  unfold children
  rw [symbol?_outline, size_outline]
  cases t.symbol? id <;> rfl

/-- Around a node stands its parent, and what stands around that. -/
theorem ancestors_of_parent {id p : NodeId} (h : t.parent? id = some p) :
    t.ancestors id = p :: t.ancestors p := by
  rw [ancestors]
  split
  · rename_i q hq
    rw [h] at hq
    cases hq
    rfl
  · rename_i hq
    rw [h] at hq
    cases hq

/-- Around a root stands nothing. -/
theorem ancestors_of_root {id : NodeId} (h : t.parent? id = none) : t.ancestors id = [] := by
  rw [ancestors]
  split
  · rename_i q hq
    rw [h] at hq
    cases hq
  · rfl

theorem ancestors_outline (id : NodeId) : t.outline.ancestors id = t.ancestors id := by
  fun_induction ancestors t id with
  | case1 id p hp ih =>
      rw [ancestors_of_parent _ (by rw [parent?_outline, hp]), ih]
  | case2 id hp => rw [ancestors_of_root _ (by rw [parent?_outline, hp])]

/-- A spine goes on with the first child. -/
theorem spine_of_firstChild {id c : NodeId} (h : t.firstChild? id = some c) :
    t.spine id = id :: t.spine c := by
  rw [spine]
  split
  · rename_i d hd
    rw [h] at hd
    cases hd
    rfl
  · rename_i hd
    rw [h] at hd
    cases hd

/-- A spine ends where there is no child. -/
theorem spine_of_leaf {id : NodeId} (h : t.firstChild? id = none) : t.spine id = [id] := by
  rw [spine]
  split
  · rename_i d hd
    rw [h] at hd
    cases hd
  · rfl

theorem firstChild?_outline (id : NodeId) : t.outline.firstChild? id = t.firstChild? id := by
  rw [firstChild?, firstChild?, children_outline]

theorem spine_outline (id : NodeId) : t.outline.spine id = t.spine id := by
  fun_induction spine t id with
  | case1 id c hc ih =>
      rw [spine_of_firstChild _ (by rw [firstChild?_outline, hc]), ih]
  | case2 id hc => rw [spine_of_leaf _ (by rw [firstChild?_outline, hc])]

/-- The declarations that one child of a node brings to the node's members. -/
def membersBy (c : NodeId) : List NodeId :=
  match t.symbol? c with
  | none => []
  | some s => if s.kind.isHolder then t.members c else if s.isDeclaration then [c] else []

/-- The members of a scope are found by way of its children. -/
theorem members_eq (scope : NodeId) : t.members scope = (t.children scope).flatMap t.membersBy := by
  have hattach : t.members scope =
      (t.children scope).attach.flatMap fun c => t.membersBy c.1 := by
    rw [members]
    rfl
  rw [hattach, ← List.flatMap_map, List.attach_map_subtype_val]

/-- What the scopes of a tree contain is read off its outline. -/
theorem members_outline (scope : NodeId) : t.outline.members scope = t.members scope := by
  induction scope using (measure fun id => t.size - id).wf.induction with
  | h scope ih =>
      rw [members_eq, members_eq, children_outline]
      rw [List.flatMap_def, List.flatMap_def]
      refine congrArg List.flatten (List.map_congr_left fun c hc => ?_)
      unfold membersBy
      rw [symbol?_outline]
      cases t.symbol? c with
      | none => rfl
      | some s =>
          have hc' := ih c (sub_lt_of_mem_children hc)
          simp only [Option.map_some, hc']
          rfl

variable {t} {u : SymbolTree}

theorem file_congr (h : t.outline = u.outline) : t.file = u.file := by
  have : t.outline.file = u.outline.file := by rw [h]
  exact this

theorem size_congr (h : t.outline = u.outline) : t.size = u.size := by
  rw [← size_outline t, h, size_outline]

theorem kind?_congr (h : t.outline = u.outline) : t.kind? = u.kind? := by
  funext id
  rw [← kind?_outline t, h, kind?_outline]

theorem parent?_congr (h : t.outline = u.outline) : t.parent? = u.parent? := by
  funext id
  rw [← parent?_outline t, h, parent?_outline]

theorem children_congr (h : t.outline = u.outline) : t.children = u.children := by
  funext id
  rw [← children_outline t, h, children_outline]

theorem ancestors_congr (h : t.outline = u.outline) : t.ancestors = u.ancestors := by
  funext id
  rw [← ancestors_outline t, h, ancestors_outline]

theorem spine_congr (h : t.outline = u.outline) : t.spine = u.spine := by
  funext id
  rw [← spine_outline t, h, spine_outline]

theorem members_congr (h : t.outline = u.outline) : t.members = u.members := by
  funext id
  rw [← members_outline t, h, members_outline]

theorem isInside_congr (h : t.outline = u.outline) : t.isInside = u.isInside := by
  funext id outer
  rw [isInside, isInside, ancestors_congr h]

theorem enclosing?_congr (h : t.outline = u.outline) : t.enclosing? = u.enclosing? := by
  funext k id
  rw [enclosing?, enclosing?, ancestors_congr h, kind?_congr h]

theorem enclosingScope?_congr (h : t.outline = u.outline) :
    t.enclosingScope? = u.enclosingScope? := by
  funext id
  rw [enclosingScope?, enclosingScope?, ancestors_congr h, kind?_congr h]

theorem ancestorsInContract_congr (h : t.outline = u.outline) :
    t.ancestorsInContract = u.ancestorsInContract := by
  funext id
  simp only [ancestorsInContract, ancestors_congr h, kind?_congr h]

theorem isBaseName_congr (h : t.outline = u.outline) : t.isBaseName = u.isBaseName := by
  funext usage
  rw [isBaseName, isBaseName, parent?_congr h, kind?_congr h]

/-- What a file exports is read off the outline. -/
theorem exported_congr (h : t.outline = u.outline) : t.exported = u.exported := by
  rw [exported, exported, members_congr h, kind?_congr h]

theorem imports_congr (h : t.outline = u.outline) : t.imports = u.imports := by
  rw [imports, imports, children_congr h, kind?_congr h]

theorem listedSymbols_congr (h : t.outline = u.outline) : t.listedSymbols = u.listedSymbols := by
  funext directive
  rw [listedSymbols, listedSymbols, children_congr h, kind?_congr h]

/-- A node of one of two trees of the same outline is the same, links aside, in the other. -/
theorem symbol?_congr (h : t.outline = u.outline) (id : NodeId) :
    Option.Rel (fun s v => s.bare = v.bare) (t.symbol? id) (u.symbol? id) := by
  have hid : (t.symbol? id).map Symbol.bare = (u.symbol? id).map Symbol.bare := by
    rw [← symbol?_outline, h, symbol?_outline]
  cases hs : t.symbol? id <;> cases hv : u.symbol? id <;> rw [hs, hv] at hid
  · exact .none
  · cases hid
  · cases hid
  · exact .some (Option.some.inj hid)

theorem name?_congr (h : t.outline = u.outline) (id : NodeId) :
    (t.symbol? id).bind Symbol.name = (u.symbol? id).bind Symbol.name := by
  have hid := symbol?_congr h id
  generalize t.symbol? id = s at hid
  generalize u.symbol? id = v at hid
  cases hid with
  | none => rfl
  | some hsv => rw [Option.bind_some, Option.bind_some, Symbol.name_congr hsv]

theorem localName?_congr (h : t.outline = u.outline) (id : NodeId) :
    (t.symbol? id).bind Symbol.localName = (u.symbol? id).bind Symbol.localName := by
  have hid := symbol?_congr h id
  generalize t.symbol? id = s at hid
  generalize u.symbol? id = v at hid
  cases hid with
  | none => rfl
  | some hsv => rw [Option.bind_some, Option.bind_some, Symbol.localName_congr hsv]

theorem detail?_congr (h : t.outline = u.outline) (id : NodeId) :
    (t.symbol? id).map Symbol.detail = (u.symbol? id).map Symbol.detail := by
  have hid := symbol?_congr h id
  generalize t.symbol? id = s at hid
  generalize u.symbol? id = v at hid
  cases hid with
  | none => rfl
  | some hsv => rw [Option.map_some, Option.map_some, Symbol.detail_congr hsv]

theorem fileAlias?_congr (h : t.outline = u.outline) : t.fileAlias? = u.fileAlias? := by
  funext directive
  rw [fileAlias?, fileAlias?, detail?_congr h]

/-! ### Links leave the outline as it is -/

/-- Changes to links, wherever they are made, are not seen in the bare nodes. -/
theorem map_bare_foldl_modify {f : Symbol → Symbol} (hf : ∀ s, (f s).bare = s.bare)
    (ids : List NodeId) (nodes : Array Symbol) :
    (ids.foldl (fun ns id => ns.modify id f) nodes).map Symbol.bare = nodes.map Symbol.bare := by
  induction ids generalizing nodes with
  | nil => rfl
  | cons id ids ih => rw [List.foldl_cons, ih, array_map_modify_of_forall hf]

variable (t)

/-- A change to links is not seen in the outline. -/
theorem outline_modify {f : Symbol → Symbol} (hf : ∀ s, (f s).bare = s.bare) (id : NodeId) :
    (t.modify id f).outline = t.outline := by
  simp only [outline, modify, array_map_modify_of_forall hf]

@[simp] theorem outline_link (usage : NodeId) (d : Handle) :
    (t.link usage d).outline = t.outline :=
  t.outline_modify (Symbol.bare_linkTo d) usage

@[simp] theorem outline_addReference (d : NodeId) (usage : Handle) :
    (t.addReference d usage).outline = t.outline :=
  t.outline_modify (Symbol.bare_addReference usage) d

@[simp] theorem outline_linkExternal (usage : NodeId) (d : Handle) :
    (t.linkExternal usage d).outline = t.outline :=
  t.outline_link usage d

@[simp] theorem outline_enqueue (usage : NodeId) : (t.enqueue usage).outline = t.outline := rfl

@[simp] theorem outline_dropReferencesFrom (file : FileId) :
    (t.dropReferencesFrom file).outline = t.outline := by
  have hnodes : (t.nodes.map (Symbol.dropReferencesFrom file)).map Symbol.bare =
      t.nodes.map Symbol.bare := by
    rw [Array.map_map]
    rfl
  simp only [outline, dropReferencesFrom, hnodes]

/-- Taking back external links is not seen in the outline. -/
@[simp] theorem outline_unlinkExternal : t.unlinkExternal.outline = t.outline := by
  simp only [outline, unlinkExternal, map_bare_foldl_modify Symbol.bare_unlink]

end SymbolTree

end SolidityAtlas

import SolidityAtlas.Proofs.Symbol.Outline

/-!
# Symbols without places

Where a symbol and its name stand in the text plays no part in how names are looked up. A tree that
has all its places taken away is *unplaced*, and every look-up in it finds what it finds in the
tree.

## Main Definitions

* `Symbol.unplaced`, `SymbolTree.unplaced`, `Forest.unplaced`: symbols without their places

## Main Results

* `Forest.inherited?_unplaced`, `Forest.resolveAccess?_unplaced`, `Forest.dottedTarget?_unplaced`,
  `Forest.target_unplaced`: places play no part in look-ups
-/

namespace SolidityAtlas

/-! ## Symbols -/

namespace Symbol

/-- The symbol without the places of the node and of its name. -/
def unplaced (s : Symbol) : Symbol :=
  { s with range := default, label := s.label.map fun l => { l with range := default } }

variable (s : Symbol)

@[simp] theorem detail_unplaced : s.unplaced.detail = s.detail := rfl

@[simp] theorem kind_unplaced : s.unplaced.kind = s.kind := rfl

@[simp] theorem parent_unplaced : s.unplaced.parent = s.parent := rfl

@[simp] theorem children_unplaced : s.unplaced.children = s.children := rfl

@[simp] theorem context_unplaced : s.unplaced.context = s.context := rfl

@[simp] theorem declaration_unplaced : s.unplaced.declaration = s.declaration := rfl

@[simp] theorem isSome_label_unplaced : s.unplaced.label.isSome = s.label.isSome :=
  Option.isSome_map

/-- A name stays when the place of its label goes. -/
@[simp] theorem name_unplaced : s.unplaced.name = s.name := by
  rw [name, name, unplaced, Option.map_map]
  rfl

@[simp] theorem isUsage_unplaced : s.unplaced.isUsage = s.isUsage := by
  simp [isUsage]

@[simp] theorem isDeclaration_unplaced : s.unplaced.isDeclaration = s.isDeclaration := by
  simp [isDeclaration]

@[simp] theorem isQualified_unplaced : s.unplaced.isQualified = s.isQualified := rfl

@[simp] theorem isByName_unplaced : s.unplaced.isByName = s.isByName := rfl

/-- What a use means does not depend on where it stands. -/
@[simp] theorem accepts_unplaced (usage : Symbol) :
    s.unplaced.accepts usage.unplaced = s.accepts usage := by
  simp [accepts, acceptsKind]

end Symbol

/-! ## Trees -/

namespace SymbolTree

/-- The tree without the places of its symbols. -/
def unplaced (t : SymbolTree) : SymbolTree :=
  { t with nodes := t.nodes.map Symbol.unplaced }

variable (t : SymbolTree)

@[simp] theorem file_unplaced : t.unplaced.file = t.file := rfl

@[simp] theorem pending_unplaced : t.unplaced.pending = t.pending := rfl

@[simp] theorem handle_unplaced (id : NodeId) : t.unplaced.handle id = t.handle id := rfl

/-- Leaving out places leaves out no node. -/
@[simp] theorem size_unplaced : t.unplaced.size = t.size := by
  simp [size, unplaced]

@[simp] theorem symbol?_unplaced (id : NodeId) :
    t.unplaced.symbol? id = (t.symbol? id).map Symbol.unplaced := by
  simp [symbol?, unplaced]

@[simp] theorem owns_unplaced (h : Handle) : t.unplaced.owns h = t.owns h := by
  rw [owns, owns, size_unplaced]
  rfl

@[simp] theorem lookup?_unplaced (h : Handle) :
    t.unplaced.lookup? h = (t.lookup? h).map Symbol.unplaced := by
  rw [lookup?, lookup?, owns_unplaced, symbol?_unplaced]
  split <;> rfl

@[simp] theorem kind?_unplaced (id : NodeId) : t.unplaced.kind? id = t.kind? id := by
  simp [kind?, Function.comp_def]

@[simp] theorem parent?_unplaced (id : NodeId) : t.unplaced.parent? id = t.parent? id := by
  simp [parent?, Option.bind_map, Function.comp_def]

@[simp] theorem children_unplaced (id : NodeId) : t.unplaced.children id = t.children id := by
  unfold children
  rw [symbol?_unplaced, size_unplaced]
  cases t.symbol? id <;> rfl

@[simp] theorem firstChild?_unplaced (id : NodeId) :
    t.unplaced.firstChild? id = t.firstChild? id := by
  rw [firstChild?, firstChild?, children_unplaced]

@[simp] theorem ancestors_unplaced (id : NodeId) : t.unplaced.ancestors id = t.ancestors id := by
  fun_induction ancestors t id with
  | case1 id p hp ih => rw [ancestors_of_parent _ (by rw [parent?_unplaced, hp]), ih]
  | case2 id hp => rw [ancestors_of_root _ (by rw [parent?_unplaced, hp])]

@[simp] theorem spine_unplaced (id : NodeId) : t.unplaced.spine id = t.spine id := by
  fun_induction spine t id with
  | case1 id c hc ih => rw [spine_of_firstChild _ (by rw [firstChild?_unplaced, hc]), ih]
  | case2 id hc => rw [spine_of_leaf _ (by rw [firstChild?_unplaced, hc])]

/-- The members of a scope do not depend on places, but on the order of the nodes. -/
@[simp] theorem members_unplaced (scope : NodeId) :
    t.unplaced.members scope = t.members scope := by
  induction scope using (measure fun id => t.size - id).wf.induction with
  | h scope ih =>
      rw [members_eq, members_eq, children_unplaced, List.flatMap_def, List.flatMap_def]
      refine congrArg List.flatten (List.map_congr_left fun c hc => ?_)
      unfold membersBy
      rw [symbol?_unplaced, ih c (sub_lt_of_mem_children hc)]
      cases t.symbol? c with
      | none => rfl
      | some s => simp

@[simp] theorem isInside_unplaced (id outer : NodeId) :
    t.unplaced.isInside id outer = t.isInside id outer := by
  simp [isInside]

@[simp] theorem enclosing?_unplaced (k : NodeKind) (id : NodeId) :
    t.unplaced.enclosing? k id = t.enclosing? k id := by
  simp [enclosing?]

@[simp] theorem enclosingScope?_unplaced (id : NodeId) :
    t.unplaced.enclosingScope? id = t.enclosingScope? id := by
  simp [enclosingScope?]

end SymbolTree

/-! ## Forests -/

namespace Forest

/-- The forest without the places of its symbols. -/
def unplaced (f : Forest) : Forest :=
  { f with tree := fun file => (f.tree file).map SymbolTree.unplaced }

variable (f : Forest)

@[simp] theorem imported_unplaced (directive : Handle) (name : String) :
    f.unplaced.imported directive name = f.imported directive name := rfl

theorem tree_unplaced (file : FileId) :
    f.unplaced.tree file = (f.tree file).map SymbolTree.unplaced := rfl

@[simp] theorem home?_unplaced (h : Handle) :
    f.unplaced.home? h = (f.home? h).map SymbolTree.unplaced := by
  rw [home?, home?, tree_unplaced]
  cases f.tree h.file with
  | none => rfl
  | some t => by_cases howns : t.owns h = true <;> simp [Option.filter, howns]

@[simp] theorem symbol?_unplaced (h : Handle) :
    f.unplaced.symbol? h = (f.symbol? h).map Symbol.unplaced := by
  rw [symbol?, symbol?, tree_unplaced]
  cases f.tree h.file with
  | none => rfl
  | some t => exact t.lookup?_unplaced h

@[simp] theorem kind?_unplaced (h : Handle) : f.unplaced.kind? h = f.kind? h := by
  simp [kind?, Function.comp_def]

@[simp] theorem name?_unplaced (h : Handle) : f.unplaced.name? h = f.name? h := by
  rw [name?, name?, symbol?_unplaced, Option.bind_map]
  exact congrArg _ (funext Symbol.name_unplaced)

/-- Links do not depend on places. -/
@[simp] theorem declaration?_unplaced (h : Handle) :
    f.unplaced.declaration? h = f.declaration? h := by
  simp [declaration?, Option.bind_map, Function.comp_def]

@[simp] theorem detail?_unplaced (h : Handle) :
    (f.unplaced.symbol? h).map Symbol.detail = (f.symbol? h).map Symbol.detail := by
  simp [Function.comp_def]

@[simp] theorem children_unplaced (h : Handle) : f.unplaced.children h = f.children h := by
  unfold children
  rw [home?_unplaced]
  cases f.home? h <;> simp

@[simp] theorem firstChild?_unplaced (h : Handle) : f.unplaced.firstChild? h = f.firstChild? h := by
  simp [firstChild?]

@[simp] theorem spine_unplaced (h : Handle) : f.unplaced.spine h = f.spine h := by
  unfold spine
  rw [home?_unplaced]
  cases f.home? h <;> simp

@[simp] theorem members_unplaced (h : Handle) : f.unplaced.members h = f.members h := by
  unfold members
  rw [home?_unplaced]
  cases f.home? h <;> simp

@[simp] theorem enclosing?_unplaced (k : NodeKind) (h : Handle) :
    f.unplaced.enclosing? k h = f.enclosing? k h := by
  unfold enclosing?
  rw [home?_unplaced]
  cases f.home? h <;> simp

@[simp] theorem ancestors_unplaced (h : Handle) : f.unplaced.ancestors h = f.ancestors h := by
  unfold ancestors
  rw [home?_unplaced]
  cases f.home? h <;> simp

@[simp] theorem memberNamed?_unplaced (name : String) (h : Handle) :
    f.unplaced.memberNamed? name h = f.memberNamed? name h := by
  simp [memberNamed?]

@[simp] theorem memberAccepting?_unplaced (usage : Symbol) (h : Handle) :
    f.unplaced.memberAccepting? usage.unplaced h = f.memberAccepting? usage h := by
  simp [memberAccepting?, Option.any_map]

/-! ### Inheritance -/

/-- The bases of a contract do not depend on places. -/
@[simp] theorem bases_unplaced (contract : Handle) :
    f.unplaced.bases contract = f.bases contract := by
  have hfirst : f.unplaced.firstChild? = f.firstChild? := funext f.firstChild?_unplaced
  have hdeclaration : f.unplaced.declaration? = f.declaration? := funext f.declaration?_unplaced
  simp only [bases, children_unplaced, kind?_unplaced, hfirst, hdeclaration]

@[simp] theorem linearizeWithin_unplaced (steps : Nat) (path : List Handle) (contract : Handle) :
    f.unplaced.linearizeWithin steps path contract = f.linearizeWithin steps path contract := by
  induction steps generalizing path contract with
  | zero => rfl
  | succ steps ih => simp [linearizeWithin, funext (ih _)]

variable (maxDepth : Nat)

/-- The linearization of a contract does not depend on places. -/
@[simp] theorem linearize_unplaced (contract : Handle) :
    f.unplaced.linearize maxDepth contract = f.linearize maxDepth contract :=
  f.linearizeWithin_unplaced maxDepth [] contract

@[simp] theorem inherited?_unplaced (contract : Handle) (usage : Symbol) :
    f.unplaced.inherited? maxDepth contract usage.unplaced = f.inherited? maxDepth contract usage := by
  have haccepting : f.unplaced.memberAccepting? usage.unplaced = f.memberAccepting? usage :=
    funext fun h => f.memberAccepting?_unplaced usage h
  rw [inherited?, inherited?, linearize_unplaced, haccepting]

/-! ### Members -/

@[simp] theorem findMember?_unplaced (container : Handle) (name : String) :
    f.unplaced.findMember? maxDepth container name = f.findMember? maxDepth container name := by
  have hnamed : f.unplaced.memberNamed? name = f.memberNamed? name :=
    funext fun h => f.memberNamed?_unplaced name h
  simp [findMember?, hnamed]

@[simp] theorem containerOfType?_unplaced (typeName : Handle) :
    f.unplaced.containerOfType? typeName = f.containerOfType? typeName := by
  simp [containerOfType?]

@[simp] theorem containerOfDeclaration?_unplaced (declaration : Handle) :
    f.unplaced.containerOfDeclaration? declaration = f.containerOfDeclaration? declaration := by
  simp only [containerOfDeclaration?, kind?_unplaced, firstChild?_unplaced,
    funext f.containerOfType?_unplaced]

@[simp] theorem callee?_unplaced (call : Handle) : f.unplaced.callee? call = f.callee? call := by
  simp [callee?]

@[simp] theorem resultType?_unplaced (function : Handle) :
    f.unplaced.resultType? function = f.resultType? function := by
  simp [resultType?]

@[simp] theorem typeOfCall?_unplaced (call : Handle) :
    f.unplaced.typeOfCall? call = f.typeOfCall? call := by
  simp only [typeOfCall?, callee?_unplaced, kind?_unplaced, firstChild?_unplaced,
    declaration?_unplaced, funext f.resultType?_unplaced]

@[simp] theorem typeOfVariable?_unplaced (declaration : Handle) :
    f.unplaced.typeOfVariable? declaration = f.typeOfVariable? declaration := by
  simp [typeOfVariable?]

@[simp] theorem elementType?_unplaced (typeName : Handle) :
    f.unplaced.elementType? typeName = f.elementType? typeName := by
  simp [elementType?]

@[simp] theorem hasOneChild_unplaced (h : Handle) :
    f.unplaced.hasOneChild h = f.hasOneChild h := by
  simp [hasOneChild]

@[simp] theorem typeOfSpine?_unplaced (es : List Handle) :
    f.unplaced.typeOfSpine? es = f.typeOfSpine? es := by
  induction es with
  | nil => rfl
  | cons e inner ih =>
      simp only [typeOfSpine?, kind?_unplaced, declaration?_unplaced, typeOfCall?_unplaced,
        hasOneChild_unplaced, ih, funext f.typeOfVariable?_unplaced, funext f.elementType?_unplaced]

/-- The type of an expression does not depend on places. -/
@[simp] theorem typeOfExpression?_unplaced (e : Handle) :
    f.unplaced.typeOfExpression? e = f.typeOfExpression? e := by
  simp [typeOfExpression?]

@[simp] theorem containerOfCall?_unplaced (call : Handle) :
    f.unplaced.containerOfCall? call = f.containerOfCall? call := by
  simp only [containerOfCall?, callee?_unplaced, declaration?_unplaced, kind?_unplaced,
    typeOfExpression?_unplaced, funext f.containerOfType?_unplaced]

@[simp] theorem containerOfSpine?_unplaced (es : List Handle) :
    f.unplaced.containerOfSpine? es = f.containerOfSpine? es := by
  induction es with
  | nil => rfl
  | cons e inner ih =>
      simp only [containerOfSpine?, kind?_unplaced, name?_unplaced, enclosing?_unplaced,
        declaration?_unplaced, containerOfCall?_unplaced, typeOfExpression?_unplaced,
        hasOneChild_unplaced, ih, funext f.containerOfType?_unplaced,
        funext f.containerOfDeclaration?_unplaced]

/-- Which container an expression leads to does not depend on places. -/
@[simp] theorem container?_unplaced (e : Handle) : f.unplaced.container? e = f.container? e := by
  simp [container?]

/-! ### Accesses and dotted types -/

@[simp] theorem attachedLibraries_unplaced (h : Handle) :
    f.unplaced.attachedLibraries h = f.attachedLibraries h := by
  have hchildren : f.unplaced.children = f.children := funext f.children_unplaced
  have hdeclaration : f.unplaced.declaration? = f.declaration? := funext f.declaration?_unplaced
  simp only [attachedLibraries, enclosing?_unplaced, kind?_unplaced, detail?_unplaced, hchildren,
    hdeclaration]

@[simp] theorem superMember?_unplaced (h : Handle) (name : String) :
    f.unplaced.superMember? maxDepth h name = f.superMember? maxDepth h name := by
  have hnamed : f.unplaced.memberNamed? name = f.memberNamed? name :=
    funext fun h => f.memberNamed?_unplaced name h
  simp [superMember?, hnamed]

@[simp] theorem memberOf?_unplaced (h base : Handle) (name : String) :
    f.unplaced.memberOf? maxDepth h base name = f.memberOf? maxDepth h base name := by
  simp [memberOf?]

@[simp] theorem isSuper_unplaced (h : Handle) : f.unplaced.isSuper h = f.isSuper h := by
  simp [isSuper]

/-- What an access is resolved to does not depend on places. -/
@[simp] theorem resolveAccess?_unplaced (access : Handle) :
    f.unplaced.resolveAccess? maxDepth access = f.resolveAccess? maxDepth access := by
  unfold resolveAccess?
  cases hs : f.symbol? access with
  | none => simp [hs]
  | some s => by_cases hk : s.kind = .memberAccess <;> simp [hs, hk, Option.filter]

@[simp] theorem resolvePath?_unplaced (first : Handle) (rest : List String) :
    f.unplaced.resolvePath? maxDepth first rest = f.resolvePath? maxDepth first rest := by
  simp [resolvePath?]

@[simp] theorem scopesAt_unplaced (h : Handle) :
    f.unplaced.scopesAt maxDepth h = f.scopesAt maxDepth h := by
  simp [scopesAt]

@[simp] theorem namedContainer?_unplaced (usage : Handle) (name : String) :
    f.unplaced.namedContainer? maxDepth usage name = f.namedContainer? maxDepth usage name := by
  simp [namedContainer?]

/-- What a dotted type is resolved to does not depend on places. -/
@[simp] theorem dottedTarget?_unplaced (beyond : String → Option Handle) (usage : Handle)
    (path : String) :
    f.unplaced.dottedTarget? maxDepth beyond usage path =
      f.dottedTarget? maxDepth beyond usage path := by
  simp [dottedTarget?]

@[simp] theorem constructor?_unplaced (contract : Handle) :
    f.unplaced.constructor? contract = f.constructor? contract := by
  simp only [constructor?, children_unplaced, detail?_unplaced]

/-- What a use is linked to, once its declaration is found, does not depend on places. -/
@[simp] theorem target_unplaced (usage : Symbol) (declaration : Handle) :
    f.unplaced.target usage.unplaced declaration = f.target usage declaration := by
  simp [target]

end Forest

end SolidityAtlas

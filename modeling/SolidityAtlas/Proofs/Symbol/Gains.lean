import SolidityAtlas.Proofs.Symbol.Growing

/-!
# What links add to a forest

A forest *gains* links when uses are linked that were not, and nothing else changes: the trees
keep their shapes, and a use that was linked keeps its declaration. What is known of the type of
an expression then stays known. More may become known, but never something else.

With the contracts that inherit from each other it is different, because a new base may come
before those that were known. But if none of the links that are gained leads to a contract, then
the contracts stay as they are, and so do the libraries that are attached.

## Main Definitions

* `Forest.Gains`: a forest has the shape of another one and all its links

## Main Results

* `Forest.Gains.container?`: what has the members of an expression stays known
* `Forest.Gains.bases_eq`, `Forest.Gains.findMember?_eq`
* `Forest.Gains.attachedLibraries_eq`
-/

namespace SolidityAtlas.Forest

/-- The forest `g` has the shape of `f` and all its links. -/
structure Gains (f g : Forest) : Prop where
  home : ∀ h, (g.home? h).map SymbolTree.outline = (f.home? h).map SymbolTree.outline
  declaration : ∀ h d, f.declaration? h = some d → g.declaration? h = some d

/-- A node is looked up in the tree that is its home. -/
theorem symbol?_eq_home? (f : Forest) (h : Handle) :
    f.symbol? h = (f.home? h).bind (·.symbol? h.node) := by
  rw [symbol?, home?]
  cases f.tree h.file with
  | none => rfl
  | some t =>
      rw [Option.bind_some, Option.filter_some, SymbolTree.lookup?]
      split <;> rfl

/-- A spine begins with the expression. -/
theorem exists_spine_eq (f : Forest) (e : Handle) : ∃ inner, f.spine e = e :: inner := by
  unfold spine
  split
  · rename_i t _
    cases hc : t.firstChild? e.node with
    | none =>
        rw [SymbolTree.spine_of_leaf t hc]
        exact ⟨[], rfl⟩
    | some c =>
        rw [SymbolTree.spine_of_firstChild t hc]
        exact ⟨_, rfl⟩
  · exact ⟨[], rfl⟩

namespace Gains

variable {f g : Forest} {maxDepth : Nat} {a b c d : Handle} {name : String}

section Shape

variable (h : Gains f g)

include h

/-! ## The shape -/

/-- A node stands in trees of one outline, or in none. -/
theorem home_cases (a : Handle) : f.home? a = none ∧ g.home? a = none ∨
    ∃ t t', f.home? a = some t ∧ g.home? a = some t' ∧ t'.outline = t.outline := by
  have hhome := h.home a
  cases hf : f.home? a with
  | none =>
      rw [hf, Option.map_none, Option.map_eq_none_iff] at hhome
      exact .inl ⟨rfl, hhome⟩
  | some t =>
      rw [hf, Option.map_some] at hhome
      obtain ⟨t', ht', houtline⟩ := Option.map_eq_some_iff.1 hhome
      exact .inr ⟨t, t', rfl, ht', houtline⟩

/-- Nodes differ in their links at most. -/
theorem symbol?_rel (a : Handle) :
    Option.Rel (fun s v => s.bare = v.bare) (g.symbol? a) (f.symbol? a) := by
  rw [symbol?_eq_home?, symbol?_eq_home?]
  rcases h.home_cases a with ⟨hf, hg⟩ | ⟨t, t', hf, hg, houtline⟩
  · rw [hf, hg]
    exact .none
  · rw [hf, hg, Option.bind_some, Option.bind_some]
    exact SymbolTree.symbol?_congr houtline a.node

/-- What the bare symbol of a node decides. -/
theorem map_symbol?_eq {α : Type} {k : Symbol → α} (hk : ∀ s v : Symbol, s.bare = v.bare → k s = k v)
    (a : Handle) : (g.symbol? a).map k = (f.symbol? a).map k := by
  have hrel := h.symbol?_rel a
  generalize g.symbol? a = s at hrel
  generalize f.symbol? a = v at hrel
  cases hrel with
  | none => rfl
  | some hsv => rw [Option.map_some, Option.map_some, hk _ _ hsv]

/-- The kinds are the same. -/
theorem kind?_eq : g.kind? = f.kind? :=
  funext fun a => h.map_symbol?_eq (fun _ _ => Symbol.kind_congr) a

theorem name?_eq : g.name? = f.name? := by
  funext a
  rw [name?, name?]
  have hrel := h.symbol?_rel a
  generalize g.symbol? a = s at hrel
  generalize f.symbol? a = v at hrel
  cases hrel with
  | none => rfl
  | some hsv => rw [Option.bind_some, Option.bind_some, Symbol.name_congr hsv]

theorem detail?_eq (a : Handle) : (g.symbol? a).map Symbol.detail = (f.symbol? a).map Symbol.detail :=
  h.map_symbol?_eq (fun _ _ => Symbol.detail_congr) a

/-- The children are the same, and so is what is read off them below. -/
theorem children_eq : g.children = f.children := by
  funext a
  rcases h.home_cases a with ⟨hf, hg⟩ | ⟨t, t', hf, hg, houtline⟩
  · rw [children, children, hf, hg]
  · simp only [children, hf, hg, SymbolTree.children_congr houtline]

theorem firstChild?_eq : g.firstChild? = f.firstChild? := by
  funext a
  rw [firstChild?, firstChild?, h.children_eq]

theorem spine_eq : g.spine = f.spine := by
  funext a
  rcases h.home_cases a with ⟨hf, hg⟩ | ⟨t, t', hf, hg, houtline⟩
  · rw [spine, spine, hf, hg]
  · simp only [spine, hf, hg, SymbolTree.spine_congr houtline]

/-- Scopes have the same members. -/
theorem members_eq : g.members = f.members := by
  funext a
  rcases h.home_cases a with ⟨hf, hg⟩ | ⟨t, t', hf, hg, houtline⟩
  · rw [members, members, hf, hg]
  · simp only [members, hf, hg, SymbolTree.members_congr houtline]

theorem enclosing?_eq : g.enclosing? = f.enclosing? := by
  funext k a
  rcases h.home_cases a with ⟨hf, hg⟩ | ⟨t, t', hf, hg, houtline⟩
  · rw [enclosing?, enclosing?, hf, hg]
  · rw [enclosing?, enclosing?, hf, hg, Option.bind_some, Option.bind_some,
      SymbolTree.enclosing?_congr houtline]

/-- A name means the same in a scope. -/
theorem memberNamed?_eq (name : String) : g.memberNamed? name = f.memberNamed? name := by
  funext a
  rw [memberNamed?, memberNamed?, h.members_eq, h.name?_eq]

theorem memberAccepting?_eq (usage : Symbol) : g.memberAccepting? usage = f.memberAccepting? usage := by
  funext a
  have haccepts : (fun m => (g.symbol? m).any (·.accepts usage)) =
      fun m => (f.symbol? m).any (·.accepts usage) := by
    funext m
    exact (h.symbol?_rel m).any_eq fun _ _ hsv => Symbol.accepts_congr hsv rfl
  rw [memberAccepting?, memberAccepting?, h.members_eq, haccepts]

/-- Where a use is linked to depends on the shape only. -/
theorem target_eq (usage : Symbol) (a : Handle) : g.target usage a = f.target usage a := by
  have hconstructor : g.constructor? a = f.constructor? a := by
    rw [constructor?, constructor?, h.children_eq]
    simp only [h.detail?_eq]
  rw [target, target, h.kind?_eq, hconstructor]

theorem isSuper_eq : g.isSuper = f.isSuper := by
  funext a
  rw [isSuper, isSuper, h.kind?_eq, h.name?_eq]

/-! ## Types of expressions -/

/-- A type that leads to a contract leads to it still. -/
theorem containerOfType? (hc : f.containerOfType? a = some c) : g.containerOfType? a = some c := by
  unfold Forest.containerOfType? at hc ⊢
  rw [h.kind?_eq]
  split at hc
  · rename_i hk
    obtain ⟨hd, hmembers⟩ := Option.filter_eq_some_iff.1 hc
    rw [if_pos hk, h.declaration _ _ hd, Option.filter_some, if_pos hmembers]
  · cases hc

theorem containerOfDeclaration? (hc : f.containerOfDeclaration? a = some c) :
    g.containerOfDeclaration? a = some c := by
  unfold Forest.containerOfDeclaration? at hc ⊢
  rw [h.kind?_eq, h.firstChild?_eq]
  split at hc
  · obtain ⟨typeName, htype, hc⟩ := Option.bind_eq_some_iff.1 hc
    rw [htype, Option.bind_some, h.containerOfType? hc]
  · exact hc
  · cases hc

theorem callee?_eq : g.callee? = f.callee? := by
  funext a
  rw [callee?, callee?, h.firstChild?_eq, h.kind?_eq]

theorem resultType?_eq : g.resultType? = f.resultType? := by
  funext a
  rw [resultType?, resultType?, h.kind?_eq, h.children_eq, h.firstChild?_eq]

theorem typeOfVariable?_eq : g.typeOfVariable? = f.typeOfVariable? := by
  funext a
  rw [typeOfVariable?, typeOfVariable?, h.kind?_eq, h.firstChild?_eq]

theorem elementType?_eq : g.elementType? = f.elementType? := by
  funext a
  rw [elementType?, elementType?, h.kind?_eq, h.children_eq, h.firstChild?_eq]

/-- The type of a call is the same once it is known. -/
theorem typeOfCall? (hb : f.typeOfCall? a = some b) : g.typeOfCall? a = some b := by
  obtain ⟨callee, hcallee, hb⟩ := Option.bind_eq_some_iff.1 hb
  rw [Forest.typeOfCall?, h.callee?_eq, hcallee, Option.bind_some, h.kind?_eq, h.firstChild?_eq,
    h.resultType?_eq]
  split at hb
  · exact hb
  · obtain ⟨d, hd, hb⟩ := Option.bind_eq_some_iff.1 hb
    rw [h.declaration _ _ hd, Option.bind_some, hb]
  · cases hb

theorem typeOfSpine? {es : List Handle} (hb : f.typeOfSpine? es = some b) :
    g.typeOfSpine? es = some b := by
  induction es generalizing b with
  | nil => cases hb
  | cons e inner ih =>
      unfold Forest.typeOfSpine? at hb ⊢
      rw [h.kind?_eq, h.typeOfVariable?_eq, h.elementType?_eq, hasOneChild, h.children_eq]
      have hvariable : (f.declaration? e).bind f.typeOfVariable? = some b →
          (g.declaration? e).bind f.typeOfVariable? = some b := fun hb => by
        obtain ⟨d, hd, hb⟩ := Option.bind_eq_some_iff.1 hb
        rw [h.declaration _ _ hd, Option.bind_some, hb]
      split at hb
      · exact hvariable hb
      · exact hvariable hb
      · obtain ⟨c, hc, hb⟩ := Option.bind_eq_some_iff.1 hb
        rw [ih hc, Option.bind_some, hb]
      · exact h.typeOfCall? hb
      · split at hb
        · rename_i hone
          exact (if_pos hone).trans (ih hb)
        · cases hb
      · cases hb

theorem typeOfExpression? (hb : f.typeOfExpression? a = some b) : g.typeOfExpression? a = some b := by
  rw [Forest.typeOfExpression?, h.spine_eq]
  exact h.typeOfSpine? hb

section Members

variable (hnew : ∀ a, g.kind? a = some .newExpression → g.declaration? a = none)

include hnew

/-- The contract or struct that is called comes before the type of the call. But a call that has a type
calls something that is linked already, or something new. -/
theorem containerOfCall? (hk : f.kind? a = some .functionCall) (hc : f.containerOfCall? a = some c) :
    g.containerOfCall? a = some c := by
  obtain ⟨callee, hcallee, hc⟩ := Option.bind_eq_some_iff.1 hc
  rw [Forest.containerOfCall?, h.callee?_eq, hcallee, h.kind?_eq]
  refine Option.or_eq_some_iff.2 ?_
  rcases Option.or_eq_some_iff.1 hc with hnamed | ⟨hnamed, htype⟩
  · obtain ⟨hd, hkind⟩ := Option.filter_eq_some_iff.1 hnamed
    exact .inl (Option.filter_eq_some_iff.2 ⟨h.declaration _ _ hd, hkind⟩)
  · obtain ⟨typeName, htype, hc⟩ := Option.bind_eq_some_iff.1 htype
    refine .inr ⟨?_, Option.bind_eq_some_iff.2 ⟨typeName, h.typeOfExpression? htype,
      h.containerOfType? hc⟩⟩
    cases hd : f.declaration? callee with
    | some d =>
        rw [hd] at hnamed
        rw [h.declaration _ _ hd, hnamed]
    | none =>
        obtain ⟨inner, hspine⟩ := f.exists_spine_eq a
        rw [Forest.typeOfExpression?, hspine, Forest.typeOfSpine?, hk] at htype
        obtain ⟨callee', hcallee', htype⟩ := Option.bind_eq_some_iff.1 htype
        obtain rfl : callee = callee' := Option.some.inj (hcallee.symm.trans hcallee')
        split at htype
        · rename_i hk'
          rw [hnew callee (by rw [h.kind?_eq, hk'])]
          rfl
        · rw [hd] at htype
          cases htype
        · cases htype

/-- The container that a spine leads to is the same once it is known. -/
theorem containerOfSpine? {es : List Handle} (hc : f.containerOfSpine? es = some c) :
    g.containerOfSpine? es = some c := by
  induction es generalizing c with
  | nil => cases hc
  | cons e inner ih =>
      unfold Forest.containerOfSpine? at hc ⊢
      rw [h.kind?_eq, h.name?_eq, h.enclosing?_eq, hasOneChild, h.children_eq]
      have hlinked : (f.declaration? e).bind f.containerOfDeclaration? = some c →
          (g.declaration? e).bind g.containerOfDeclaration? = some c := fun hc => by
        obtain ⟨d, hd, hc⟩ := Option.bind_eq_some_iff.1 hc
        rw [h.declaration _ _ hd, Option.bind_some, h.containerOfDeclaration? hc]
      split at hc
      · split at hc
        · rename_i hthis
          exact (if_pos hthis).trans hc
        · rename_i hthis
          exact (if_neg hthis).trans (hlinked hc)
      · exact hlinked hc
      · rename_i hk
        exact h.containerOfCall? hnew hk hc
      · obtain ⟨typeName, htype, hc⟩ := Option.bind_eq_some_iff.1 hc
        rw [h.typeOfExpression? htype, Option.bind_some, h.containerOfType? hc]
      · split at hc
        · rename_i hone
          exact (if_pos hone).trans (ih hc)
        · cases hc
      · cases hc

/-- What has the members of an expression stays known. -/
theorem container? (hc : f.container? a = some c) : g.container? a = some c := by
  rw [Forest.container?, h.spine_eq]
  exact h.containerOfSpine? hnew hc

end Members

/-! ## Contracts -/

/-- Of what a use refers to, the contracts with some property are the same if the use has not been
linked to a contract. -/
theorem filter_declaration?_eq {p : Handle → Bool} (hp : ∀ d, p d = true → g.kind? d = some .contractDefinition)
    (hplain : f.declaration? a = none → ∀ d, g.declaration? a = some d →
      g.kind? d ≠ some .contractDefinition) :
    (g.declaration? a).filter p = (f.declaration? a).filter p := by
  cases hf : f.declaration? a with
  | some d => rw [h.declaration _ _ hf]
  | none =>
      cases hg : g.declaration? a with
      | none => rfl
      | some d =>
          rw [Option.filter_some, if_neg fun hd => hplain hf d hg (hp d hd)]
          rfl

/-- A contract keeps its bases if no name of a base has been linked to a contract. -/
theorem bases_eq (hnames : ∀ specifier ∈ f.children c, f.kind? specifier = some .inheritanceSpecifier →
      ∀ name, f.firstChild? specifier = some name → f.declaration? name = none →
        ∀ d, g.declaration? name = some d → g.kind? d ≠ some .contractDefinition) :
    g.bases c = f.bases c := by
  have hkinds : ∀ d, (f.kind? d == some .contractDefinition) = true →
      g.kind? d = some .contractDefinition := fun d hd => by
    rw [h.kind?_eq]
    exact eq_of_beq hd
  rw [bases, bases, h.children_eq, h.firstChild?_eq, h.kind?_eq]
  simp only [List.filter_filterMap]
  refine List.filterMap_congr fun name hname => ?_
  obtain ⟨specifier, hspecifier, hname⟩ := List.mem_filterMap.1 hname
  obtain ⟨hspecifier, hk⟩ := List.mem_filter.1 hspecifier
  exact h.filter_declaration?_eq hkinds (hnames specifier hspecifier (eq_of_beq hk) name hname)

section Plain

variable (hplain : ∀ a d, f.declaration? a = none → g.declaration? a = some d →
  g.kind? d ≠ some .contractDefinition)

include hplain

/-- Where all bases have been linked, hierarchies are the same. -/
theorem linearize_eq (maxDepth : Nat) : g.linearize maxDepth = f.linearize maxDepth :=
  funext fun _ => linearize_congr fun _ _ => h.bases_eq fun _ _ _ name _ hname d =>
    hplain name d hname

/-- Where all bases have been linked, members are found alike. -/
theorem findMember?_eq (himported : g.imported = f.imported) (maxDepth : Nat) :
    g.findMember? maxDepth = f.findMember? maxDepth := by
  funext c name
  rw [findMember?, findMember?, h.kind?_eq, h.children_eq, h.name?_eq, h.linearize_eq hplain,
    h.memberNamed?_eq, himported]

theorem superMember?_eq (maxDepth : Nat) : g.superMember? maxDepth = f.superMember? maxDepth := by
  funext a name
  rw [superMember?, superMember?, h.enclosing?_eq, h.linearize_eq hplain, h.memberNamed?_eq]

/-- Where all targets have been linked, the same libraries are attached. -/
theorem attachedLibraries_eq : g.attachedLibraries = f.attachedLibraries := by
  funext a
  rw [attachedLibraries, attachedLibraries, h.enclosing?_eq, h.children_eq, h.kind?_eq]
  simp only [List.filter_filterMap, h.detail?_eq]
  refine List.filterMap_congr fun name _ => ?_
  refine h.filter_declaration?_eq (fun d hd => ?_) fun hname d => hplain name d hname
  rw [h.kind?_eq, kind?]
  split at hd
  · rename_i hdetail
    obtain ⟨s, hs, hdetail⟩ := Option.map_eq_some_iff.1 hdetail
    rw [hs, Option.map_some, Symbol.kind, hdetail]
    rfl
  · cases hd

end Plain

end Shape

end Gains

end SolidityAtlas.Forest

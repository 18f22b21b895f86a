import SolidityAtlas.Proofs.Symbol.Agreement

/-!
# Look-ups in forests that agree

Every look-up of `SolidityAtlas.Symbol.Inheritance` and `SolidityAtlas.Symbol.Member`
answers with counterparts when it is started at counterparts. The proofs follow the
definitions step by step: a step through a tree or along a link goes to a counterpart,
a test on kinds, names or details has one outcome in both forests, and a search
through related rows finds related things.

## Main Results

* `Forest.Agree.inherited?_rel`: what the bases of a contract declare
* `Forest.Agree.resolveAccess?_rel`: what an access refers to
* `Forest.Agree.dottedTarget?_rel`: where a dotted type leads
* `Forest.Agree.target_rel`: where a use that refers to a declaration is linked to
-/

namespace SolidityAtlas.Forest.Agree

variable {K : FileId → Prop} {f g : Forest} {a b : Handle} (h : Agree K f g) (maxDepth : Nat)

include h

/-! ## Inheritance -/

/-- Counterparts have counterparts as bases, in order. -/
theorem bases_rel (hab : Counterpart K f g a b) :
    List.Forall₂ (Counterpart K f g) (f.bases a) (g.bases b) := by
  have hspecifiers := (h.children_rel hab).filter_rel
    (p := fun c => f.kind? c == some .inheritanceSpecifier)
    (q := fun c => g.kind? c == some .inheritanceSpecifier)
    fun _ _ hcd => by rw [h.kind?_eq hcd]
  have hnamed := List.rel_filterMap (fun _ _ hcd => h.declaration?_rel hcd)
    (List.rel_filterMap (fun _ _ hcd => h.firstChild?_rel hcd) hspecifiers)
  exact hnamed.filter_rel fun _ _ hcd => by rw [h.kind?_eq hcd]

/-- A linearization lists counterparts, as far as it has gone. -/
theorem linearizeWithin_rel (steps : Nat) {path path' : List Handle}
    (hpath : List.Forall₂ (Counterpart K f g) path path') (hab : Counterpart K f g a b) :
    List.Forall₂ (Counterpart K f g) (f.linearizeWithin steps path a)
      (g.linearizeWithin steps path' b) := by
  induction steps generalizing a b path path' with
  | zero => exact .cons hab .nil
  | succ steps ih =>
      unfold linearizeWithin
      rw [hpath.contains_eq biUnique_counterpart hab]
      split
      · exact .cons hab .nil
      · have hbases := List.rel_reverse (h.bases_rel hab)
        have hrows := List.rel_map (fun _ _ hcd => ih (.cons hab hpath) hcd) hbases
        exact related_mergeOrders biUnique_counterpart _ _
          (List.rel_append hrows (.cons hbases .nil)) (.cons hab .nil)

/-- The linearizations of counterparts list counterparts, in order. -/
theorem linearize_rel (hab : Counterpart K f g a b) :
    List.Forall₂ (Counterpart K f g) (f.linearize maxDepth a) (g.linearize maxDepth b) :=
  h.linearizeWithin_rel maxDepth .nil hab

/-- What a use finds in the bases of a contract has its counterpart in the bases of the other
one. -/
theorem inherited?_rel {s v : Symbol} (hsv : s.bare = v.bare) (hab : Counterpart K f g a b) :
    Option.Rel (Counterpart K f g) (f.inherited? maxDepth a s) (g.inherited? maxDepth b v) :=
  (h.linearize_rel maxDepth hab).tail_rel.findSome?_rel fun _ _ hcd =>
    h.memberAccepting?_rel hsv hcd

/-! ## Members -/

/-- A member that is found by its name, in a contract or its bases, has its counterpart. -/
theorem findMember?_rel (name : String) (hab : Counterpart K f g a b) :
    Option.Rel (Counterpart K f g) (f.findMember? maxDepth a name)
      (g.findMember? maxDepth b name) := by
  have hchildren : Option.Rel (Counterpart K f g)
      ((f.children a).find? fun c => f.name? c == some name)
      ((g.children b).find? fun c => g.name? c == some name) :=
    (h.children_rel hab).find?_rel fun _ _ hcd => by rw [h.name?_eq hcd]
  unfold findMember?
  rw [← h.kind?_eq hab]
  split
  · exact hchildren
  · exact hchildren
  · exact (h.linearize_rel maxDepth hab).findSome?_rel fun _ _ hcd => h.memberNamed?_rel name hcd
  · exact h.imported a b hab name
  · exact .none

/-- The types of counterparts lead to counterparts. -/
theorem containerOfType?_rel (hab : Counterpart K f g a b) :
    Option.Rel (Counterpart K f g) (f.containerOfType? a) (g.containerOfType? b) := by
  unfold containerOfType?
  rw [← h.kind?_eq hab]
  split
  · exact (h.declaration?_rel hab).filter fun _ _ hcd => by rw [h.kind?_eq hcd]
  · exact .none

/-- Counterparts are, or have types that lead to, containers that are counterparts. -/
theorem containerOfDeclaration?_rel (hab : Counterpart K f g a b) :
    Option.Rel (Counterpart K f g) (f.containerOfDeclaration? a)
      (g.containerOfDeclaration? b) := by
  unfold containerOfDeclaration?
  rw [← h.kind?_eq hab]
  split
  · exact (h.firstChild?_rel hab).bind fun _ _ hcd => h.containerOfType?_rel hcd
  · split
    · exact .some hab
    · exact .none
  · exact .none

/-- What is called is the same on both sides. -/
theorem callee?_rel (hab : Counterpart K f g a b) :
    Option.Rel (Counterpart K f g) (f.callee? a) (g.callee? b) := by
  unfold callee?
  refine (h.firstChild?_rel hab).bind fun c d hcd => ?_
  rw [← h.kind?_eq hcd]
  split
  · exact h.firstChild?_rel hcd
  · exact .some hcd
  · exact .none

/-- The result of a function has its counterpart as its type. -/
theorem resultType?_rel (hab : Counterpart K f g a b) :
    Option.Rel (Counterpart K f g) (f.resultType? a) (g.resultType? b) := by
  have hreturned : Option.Rel (Counterpart K f g)
      ((f.children a).find? fun c => f.kind? c == some .returnParameters)
      ((g.children b).find? fun c => g.kind? c == some .returnParameters) :=
    (h.children_rel hab).find?_rel fun _ _ hcd => by rw [h.kind?_eq hcd]
  unfold resultType?
  rw [← h.kind?_eq hab]
  split
  · refine hreturned.bind fun _ _ hreturned => ?_
    refine (h.firstChild?_rel hreturned).bind fun _ _ hparameters => ?_
    exact (h.firstChild?_rel hparameters).bind fun _ _ hvalue => h.firstChild?_rel hvalue
  · exact .none

/-- The types of calls are counterparts. -/
theorem typeOfCall?_rel (hab : Counterpart K f g a b) :
    Option.Rel (Counterpart K f g) (f.typeOfCall? a) (g.typeOfCall? b) := by
  unfold typeOfCall?
  refine (h.callee?_rel hab).bind fun c d hcd => ?_
  rw [← h.kind?_eq hcd]
  split
  · exact h.firstChild?_rel hcd
  · exact (h.declaration?_rel hcd).bind fun _ _ hd => h.resultType?_rel hd
  · exact .none

/-- The types of variables are counterparts. -/
theorem typeOfVariable?_rel (hab : Counterpart K f g a b) :
    Option.Rel (Counterpart K f g) (f.typeOfVariable? a) (g.typeOfVariable? b) := by
  unfold typeOfVariable?
  rw [← h.kind?_eq hab]
  split
  · exact h.firstChild?_rel hab
  · exact .none

/-- The types of elements are counterparts. -/
theorem elementType?_rel (hab : Counterpart K f g a b) :
    Option.Rel (Counterpart K f g) (f.elementType? a) (g.elementType? b) := by
  unfold elementType?
  rw [← h.kind?_eq hab]
  split
  · exact (h.children_rel hab).getElem?_rel 1
  · exact h.firstChild?_rel hab
  · exact .none

/-- Counterparts have equally many children. -/
theorem hasOneChild_eq (hab : Counterpart K f g a b) : f.hasOneChild a = g.hasOneChild b := by
  rw [hasOneChild, hasOneChild, (h.children_rel hab).length_eq]

/-- Spines through counterparts have types that are counterparts. -/
theorem typeOfSpine?_rel {es es' : List Handle} (hes : List.Forall₂ (Counterpart K f g) es es') :
    Option.Rel (Counterpart K f g) (f.typeOfSpine? es) (g.typeOfSpine? es') := by
  induction hes with
  | nil => exact .none
  | @cons c d inner inner' hcd _ ih =>
      unfold typeOfSpine?
      have hvariable := (h.declaration?_rel hcd).bind fun _ _ hd => h.typeOfVariable?_rel hd
      rw [← h.kind?_eq hcd]
      split
      · exact hvariable
      · exact hvariable
      · exact ih.bind fun _ _ ht => h.elementType?_rel ht
      · exact h.typeOfCall?_rel hcd
      · rw [← h.hasOneChild_eq hcd]
        split
        · exact ih
        · exact .none
      · exact .none

/-- Expressions that are counterparts have types that are counterparts. -/
theorem typeOfExpression?_rel (hab : Counterpart K f g a b) :
    Option.Rel (Counterpart K f g) (f.typeOfExpression? a) (g.typeOfExpression? b) :=
  h.typeOfSpine?_rel (h.spine_rel hab)

/-- The containers that calls lead to are counterparts. -/
theorem containerOfCall?_rel (hab : Counterpart K f g a b) :
    Option.Rel (Counterpart K f g) (f.containerOfCall? a) (g.containerOfCall? b) := by
  unfold containerOfCall?
  refine (h.callee?_rel hab).bind fun c d hcd => ?_
  refine ((h.declaration?_rel hcd).filter fun _ _ hd => by rw [h.kind?_eq hd]).or ?_
  exact (h.typeOfExpression?_rel hab).bind fun _ _ ht => h.containerOfType?_rel ht

/-- The containers that spines lead to are counterparts. -/
theorem containerOfSpine?_rel {es es' : List Handle}
    (hes : List.Forall₂ (Counterpart K f g) es es') :
    Option.Rel (Counterpart K f g) (f.containerOfSpine? es) (g.containerOfSpine? es') := by
  induction hes with
  | nil => exact .none
  | @cons c d inner inner' hcd _ ih =>
      unfold containerOfSpine?
      have hlinked := (h.declaration?_rel hcd).bind fun _ _ hd => h.containerOfDeclaration?_rel hd
      rw [← h.kind?_eq hcd, ← h.name?_eq hcd]
      split
      · split
        · exact h.enclosing?_rel .contractDefinition hcd
        · exact hlinked
      · exact hlinked
      · exact h.containerOfCall?_rel hcd
      · exact (h.typeOfExpression?_rel hcd).bind fun _ _ ht => h.containerOfType?_rel ht
      · rw [← h.hasOneChild_eq hcd]
        split
        · exact ih
        · exact .none
      · exact .none

/-- The containers that expressions lead to are counterparts. -/
theorem container?_rel (hab : Counterpart K f g a b) :
    Option.Rel (Counterpart K f g) (f.container? a) (g.container? b) :=
  h.containerOfSpine?_rel (h.spine_rel hab)

/-! ## Accesses and dotted types -/

/-- To types that are counterparts, counterparts are attached, in order. -/
theorem attachedLibraries_rel (hab : Counterpart K f g a b) :
    List.Forall₂ (Counterpart K f g) (f.attachedLibraries a) (g.attachedLibraries b) := by
  have hscopes := List.rel_append (h.enclosing?_rel .contractDefinition hab).toList
    (h.enclosing?_rel .sourceUnit hab).toList
  have hchildren := List.rel_flatMap hscopes fun _ _ hcd => h.children_rel hcd
  have husings := hchildren.filter_rel (p := fun c => f.kind? c == some .usingForDeclaration)
    (q := fun c => g.kind? c == some .usingForDeclaration) fun _ _ hcd => by rw [h.kind?_eq hcd]
  have hnames := List.rel_flatMap husings fun _ _ hcd => h.children_rel hcd
  refine (List.rel_filterMap (fun _ _ hcd => h.declaration?_rel hcd) hnames).filter_rel ?_
  intro c d hcd
  rw [h.detail?_eq hcd]

/-- The member that `super` leads to has its counterpart. -/
theorem superMember?_rel (name : String) (hab : Counterpart K f g a b) :
    Option.Rel (Counterpart K f g) (f.superMember? maxDepth a name)
      (g.superMember? maxDepth b name) :=
  (h.enclosing?_rel .contractDefinition hab).bind fun _ _ hcd =>
    (h.linearize_rel maxDepth hcd).tail_rel.findSome?_rel fun _ _ hm => h.memberNamed?_rel name hm

/-- The member of a container that an access means has its counterpart. -/
theorem memberOf?_rel {base base' : Handle} (name : String) (hab : Counterpart K f g a b)
    (hbase : Counterpart K f g base base') :
    Option.Rel (Counterpart K f g) (f.memberOf? maxDepth a base name)
      (g.memberOf? maxDepth b base' name) := by
  refine ((h.container?_rel hbase).bind fun _ _ hcd => h.findMember?_rel maxDepth name hcd).or ?_
  exact (h.attachedLibraries_rel hab).findSome?_rel fun _ _ hl => h.findMember?_rel maxDepth name hl

/-- `super` stands on both sides or on none. -/
theorem isSuper_eq (hab : Counterpart K f g a b) : f.isSuper a = g.isSuper b := by
  rw [isSuper, isSuper, h.kind?_eq hab, h.name?_eq hab]

/-- What accesses are resolved to are counterparts: members first, what is attached last. -/
theorem resolveAccess?_rel (hab : Counterpart K f g a b) :
    Option.Rel (Counterpart K f g) (f.resolveAccess? maxDepth a) (g.resolveAccess? maxDepth b) := by
  unfold resolveAccess?
  refine ((h.symbol?_rel hab).filter fun _ _ hsv => by rw [Symbol.kind_congr hsv]).bind
    fun s v hsv => ?_
  rw [Symbol.name_congr hsv]
  cases v.name with
  | none => exact .none
  | some name =>
      refine (h.firstChild?_rel hab).bind fun base base' hbase => ?_
      rw [← h.isSuper_eq hbase]
      split
      · exact h.superMember?_rel maxDepth name hab
      · exact h.memberOf?_rel maxDepth name hab hbase

/-- The segments of a path lead to counterparts. -/
theorem resolvePath?_rel (rest : List String) (hab : Counterpart K f g a b) :
    Option.Rel (Counterpart K f g) (f.resolvePath? maxDepth a rest)
      (g.resolvePath? maxDepth b rest) := by
  unfold resolvePath?
  induction rest generalizing a b with
  | nil => exact .some hab
  | cons name rest ih =>
      rw [List.foldlM_cons, List.foldlM_cons]
      refine Option.Rel.bind ?_ fun c d hcd => ih hcd
      exact (h.containerOfDeclaration?_rel hab).bind fun _ _ hcd => h.findMember?_rel maxDepth name hcd

/-- The scopes that are visible at counterparts are counterparts, from the inside out. -/
theorem scopesAt_rel (hab : Counterpart K f g a b) :
    List.Forall₂ (Counterpart K f g) (f.scopesAt maxDepth a) (g.scopesAt maxDepth b) := by
  unfold scopesAt
  rw [← h.kind?_eq hab]
  split
  · exact h.linearize_rel maxDepth hab
  · exact .cons hab .nil

/-- The containers of a name in the scopes around are counterparts. -/
theorem namedContainer?_rel (name : String) (hab : Counterpart K f g a b) :
    Option.Rel (Counterpart K f g) (f.namedContainer? maxDepth a name)
      (g.namedContainer? maxDepth b name) :=
  (h.ancestors_rel hab).findSome?_rel fun _ _ houter =>
    (h.scopesAt_rel maxDepth houter).findSome?_rel fun _ _ hscope =>
      (h.members_rel hscope).find?_rel fun _ _ hm => by rw [h.name?_eq hm, h.kind?_eq hm]

/-- What dotted types are resolved to are counterparts, if what is found beyond the file is. -/
theorem dottedTarget?_rel {beyond beyond' : String → Option Handle}
    (hbeyond : ∀ name, Option.Rel (Counterpart K f g) (beyond name) (beyond' name))
    (path : String) (hab : Counterpart K f g a b) :
    Option.Rel (Counterpart K f g) (f.dottedTarget? maxDepth beyond a path)
      (g.dottedTarget? maxDepth beyond' b path) := by
  unfold dottedTarget?
  split
  · exact .none
  · rename_i first rest _
    refine ((h.namedContainer?_rel maxDepth first hab).or (hbeyond first)).bind fun _ _ hcd => ?_
    exact h.resolvePath?_rel maxDepth rest hcd

/-- Contracts that are counterparts have constructors that are. -/
theorem constructor?_rel (hab : Counterpart K f g a b) :
    Option.Rel (Counterpart K f g) (f.constructor? a) (g.constructor? b) :=
  (h.children_rel hab).find?_rel fun _ _ hcd => by rw [h.detail?_eq hcd]

/-- A use is linked to counterparts: a contract, or its constructor where that is meant. -/
theorem target_rel {s v : Symbol} (hsv : s.bare = v.bare) (hab : Counterpart K f g a b) :
    Counterpart K f g (f.target s a) (g.target v b) := by
  unfold target
  rw [← h.kind?_eq hab, Symbol.kind_congr hsv]
  split
  · exact (h.constructor?_rel hab).getD hab
  · exact hab

end SolidityAtlas.Forest.Agree

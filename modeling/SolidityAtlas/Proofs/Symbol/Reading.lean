import SolidityAtlas.Proofs.Symbol.LinkEnds
import SolidityAtlas.Proofs.Symbol.LookUp
import SolidityAtlas.Symbol.Growth

/-!
# The links of one reading

What a text is grown into is linked within itself: every declaration lists exactly
the uses that are linked to it, and all of them stand in the same file (`Grown`). And
the generation that a reading has is nothing but a label: two readings of one text are
*twins*, with the same outline, the same uses pending, and links between the same
nodes (`twin_grow`).

Both are shown at once, by following two readings side by side through all that is
done while a tree grows. Each link is made by `connect`, for a use that has no
declaration yet, so one lemma about `connect` carries the whole proof; what else
changes while a tree grows are children and the types of declarations. With one
reading on both sides the same lemmas say that what a search finds exists.

A use is settled when its turn comes. Until then it is neither pending nor linked; the
nodes `rest` are those that are still to come.

## Main Definitions

* `SymbolTree.Grown`: what holds of the links of a tree that grows or has grown
* `SymbolTree.Twin`, `Growth.Twin`: two readings of one text

## Main Results

* `SymbolTree.twin_grow`: two readings of one text are twins
* `SymbolTree.grown_grow`
-/

namespace SolidityAtlas

namespace SymbolTree

variable {t u : SymbolTree}

/-! ## The forest of one tree -/

/-- A tree by itself is the only one of its forest. -/
theorem tree_alone (t : SymbolTree) (file : FileId) :
    t.alone.tree file = if file = t.file then some t else none := rfl

/-- A tree by itself looks up its own nodes. -/
theorem symbol?_alone (t : SymbolTree) (h : Handle) : t.alone.symbol? h = t.lookup? h := by
  rw [Forest.symbol?, tree_alone]
  by_cases hfile : h.file = t.file
  · rw [if_pos hfile, Option.bind_some]
  · rw [if_neg hfile, Option.bind_none, lookup?, if_neg]
    simp [owns, hfile]

/-- The handles of a tree by itself are those of its nodes. -/
theorem isSome_symbol?_alone {h : Handle} :
    (t.alone.symbol? h).isSome = true ↔ ∃ id, id < t.size ∧ h = t.handle id := by
  rw [symbol?_alone, isSome_lookup?_iff]

/-- The handles of a tree are told apart by their nodes. -/
theorem handle_inj {a b : NodeId} : t.handle a = t.handle b ↔ a = b :=
  ⟨fun h => congrArg Handle.node h, fun h => congrArg t.handle h⟩

/-- What holds of the links of a tree that grows or has grown. -/
structure Grown (rest : NodeId → Prop) (t : SymbolTree) : Prop where
  tidy : t.Tidy
  exact : t.alone.Exact
  external : t.external = []
  unsettled : ∀ id, rest id → id ∉ t.pending ∧ ∀ s, t.symbol? id = some s → s.declaration = none

/-- Two readings of one text. -/
structure Twin (rest : NodeId → Prop) (t u : SymbolTree) : Prop extends Grown rest t where
  agree : t.Agree (Forest.Counterpart (fun _ => True) t.alone u.alone) u
  pending : t.pending = u.pending

namespace Twin

variable {rest : NodeId → Prop} (h : Twin rest t u)

include h

theorem size_eq : t.size = u.size := size_congr h.agree.outline

/-- Trees that agree make forests that agree. -/
theorem forest : Forest.Agree (fun _ => True) t.alone u.alone where
  tree file _ := by
    have hfile := file_congr h.agree.outline
    rw [tree_alone, tree_alone, ← hfile]
    split
    · rename_i heq
      exact .some ⟨heq.symm, h.agree⟩
    · exact .none
  imported _ _ _ _ := .none

/-- Nodes with one number are counterparts in trees that agree. -/
theorem counterpart {id : NodeId} (hid : id < t.size) :
    Forest.Counterpart (fun _ => True) t.alone u.alone (t.handle id) (u.handle id) where
  within := trivial
  file := file_congr h.agree.outline
  node := rfl
  left := isSome_symbol?_alone.2 ⟨id, hid, rfl⟩
  right := isSome_symbol?_alone.2 ⟨id, h.size_eq ▸ hid, rfl⟩

theorem exists_symbol? {id : NodeId} {s : Symbol} (hs : t.symbol? id = some s) :
    ∃ v, u.symbol? id = some v ∧ s.bare = v.bare :=
  (symbol?_congr h.agree.outline id).exists_right hs

/-- What does not depend on links is the same of nodes with one number. -/
theorem any_eq (id : NodeId) {p q : Symbol → Bool} (hpq : ∀ s v : Symbol, s.bare = v.bare → p s = q v) :
    (t.symbol? id).any p = (u.symbol? id).any q :=
  (symbol?_congr h.agree.outline id).any_eq hpq

/-! ## Searches -/

/-- The same uses are pending by name. -/
theorem pendingByName_eq (outer : NodeId) : t.pendingByName outer = u.pendingByName outer := by
  rw [pendingByName, pendingByName, ← h.pending, isInside_congr h.agree.outline]
  refine List.filter_congr fun usage _ => ?_
  rw [h.any_eq usage fun _ _ hsv => Symbol.isByName_congr hsv]

theorem meantAt?_eq {s v : Symbol} (hsv : s.bare = v.bare) (outer : NodeId) :
    t.meantAt? s outer = u.meantAt? v outer := by
  rw [meantAt?, meantAt?, memberAccepting?, memberAccepting?, members_congr h.agree.outline,
    h.any_eq outer fun _ _ hdc => Symbol.accepts_congr hdc hsv]
  have hmember : (fun m => (t.symbol? m).any (·.accepts s)) =
      fun m => (u.symbol? m).any (·.accepts v) := by
    funext m
    exact h.any_eq m fun _ _ hdc => Symbol.accepts_congr hdc hsv
  rw [hmember]

theorem meantAround?_eq {s v : Symbol} (hsv : s.bare = v.bare) (id : NodeId) :
    t.meantAround? s id = u.meantAround? v id := by
  have hmeant : t.meantAt? s = u.meantAt? v := funext (h.meantAt?_eq hsv)
  rw [meantAround?, meantAround?, ancestors_congr h.agree.outline, hmeant]

/-- A use means the same in the scopes of its contract. -/
theorem meantInContract?_eq {s v : Symbol} (hsv : s.bare = v.bare) (id : NodeId) :
    t.meantInContract? s id = u.meantInContract? v id := by
  have hmeant : t.meantAt? s = u.meantAt? v := funext (h.meantAt?_eq hsv)
  rw [meantInContract?, meantInContract?, ancestorsInContract_congr h.agree.outline, hmeant]

end Twin

theorem lt_of_meantAt? {s : Symbol} {outer d : NodeId} (h : t.meantAt? s outer = some d) :
    d < t.size := by
  unfold meantAt? at h
  split at h
  · rename_i hany
    cases h
    obtain ⟨x, hx, -⟩ := (Option.any_eq_true _ _).1 hany
    exact lt_size_of_symbol? hx
  · exact lt_of_mem_members (List.mem_of_find?_eq_some h)

theorem lt_of_meantAround? {s : Symbol} {id d : NodeId} (h : t.meantAround? s id = some d) :
    d < t.size := by
  obtain ⟨_, -, hd⟩ := List.exists_of_findSome?_eq_some h
  exact lt_of_meantAt? hd

/-- What is meant in the contract around a node is a node. -/
theorem lt_of_meantInContract? {s : Symbol} {id d : NodeId} (h : t.meantInContract? s id = some d) :
    d < t.size := by
  obtain ⟨_, -, hd⟩ := List.exists_of_findSome?_eq_some h
  exact lt_of_meantAt? hd

/-! ## One link -/

/-- A use is connected by a link and a back link. -/
theorem connect_eq {usage : NodeId} {s : Symbol} (hs : t.symbol? usage = some s) (d : Handle) :
    t.connect usage d = (t.link usage (t.alone.target s d)).addReference
      (t.alone.target s d).node (t.handle usage) := by
  rw [connect, hs]

/-- Connecting a use is not seen in the outline. -/
@[simp] theorem outline_connect (t : SymbolTree) (usage : NodeId) (d : Handle) :
    (t.connect usage d).outline = t.outline := by
  unfold connect
  split
  · rfl
  · rw [outline_addReference, outline_link]

theorem generation_connect (t : SymbolTree) (usage : NodeId) (d : Handle) :
    (t.connect usage d).generation = t.generation := by
  unfold connect
  split <;> rfl

/-- A use that is connected leaves the pool. -/
theorem pending_connect {usage : NodeId} {s : Symbol} (hs : t.symbol? usage = some s) (d : Handle) :
    (t.connect usage d).pending = t.pending.erase usage := by
  rw [connect_eq hs, pending_addReference, pending_link]

/-- Connecting a use is seen at its two ends only. -/
theorem symbol?_alone_connect {usage : NodeId} {s : Symbol} (hs : t.symbol? usage = some s)
    {d : Handle} (hd : (t.alone.symbol? (t.alone.target s d)).isSome = true) (h : Handle) :
    (t.connect usage d).alone.symbol? h =
      (t.alone.symbol? h).map (Symbol.linkedAt (t.handle usage) (t.alone.target s d) h) := by
  obtain ⟨target, -, htarget⟩ := isSome_symbol?_alone.1 hd
  rw [connect_eq hs, htarget, symbol?_alone, symbol?_alone]
  have hsymbol : ∀ id, ((t.link usage (t.handle target)).addReference target
      (t.handle usage)).symbol? id = (t.symbol? id).map fun s =>
        let s := if id = usage then s.linkTo (t.handle target) else s
        if id = target then s.addReference (t.handle usage) else s := by
    intro id
    rw [symbol?_addReference, symbol?_link, Option.map_map]
    rfl
  change ((t.link usage (t.handle target)).addReference target (t.handle usage)).lookup? h = _
  rw [lookup?_of_symbol? hsymbol rfl rfl (by simp [addReference])]
  cases hx : t.lookup? h with
  | none => rfl
  | some x =>
      obtain ⟨id, -, rfl⟩ := isSome_lookup?_iff.1 (by rw [hx]; rfl : (t.lookup? h).isSome = true)
      simp only [Option.map_some, Symbol.linkedAt, handle_inj]
      rfl

/-- Only the use that is linked gets another declaration. -/
theorem declaration_connect {usage id : NodeId} {s x : Symbol} {d : Handle}
    (hs : t.symbol? usage = some s) (hx : (t.connect usage d).symbol? id = some x) :
    ∃ y, t.symbol? id = some y ∧
      x.declaration = if id = usage then some (t.alone.target s d) else y.declaration := by
  rw [connect_eq hs, symbol?_addReference, symbol?_link, Option.map_map] at hx
  obtain ⟨y, hy, rfl⟩ := Option.map_eq_some_iff.1 hx
  refine ⟨y, hy, ?_⟩
  simp only [Function.comp_apply]
  split <;> split <;> rfl

/-- A tree that has grown so far has grown a link further. -/
theorem Grown.connect {rest : NodeId → Prop} (h : Grown rest t) {usage : NodeId} {s : Symbol}
    (hs : t.symbol? usage = some s) (hnone : s.declaration = none) (hrest : ¬ rest usage) {d : Handle}
    (hd : (t.alone.symbol? (t.alone.target s d)).isSome = true) : Grown rest (t.connect usage d) := by
  have husage : (t.alone.symbol? (t.handle usage)).isSome = true :=
    isSome_symbol?_alone.2 ⟨usage, lt_size_of_symbol? hs, rfl⟩
  have hunlinked : t.alone.declaration? (t.handle usage) = none := by
    rw [Forest.declaration?, symbol?_alone, lookup?_handle, hs, Option.bind_some, hnone]
  have hfile : (t.alone.target s d).file = t.file := by
    obtain ⟨_, -, heq⟩ := isSome_symbol?_alone.1 hd
    rw [heq]
    rfl
  refine ⟨?_, h.exact.link (symbol?_alone_connect hs hd) husage hunlinked hd, ?_, ?_⟩
  · rw [connect_eq hs]
    exact (h.tidy.link hs hnone hfile).addReference _ _
  · rw [connect_eq hs]
    exact h.external
  · intro id hid
    rw [pending_connect hs]
    refine ⟨fun hmem => (h.unsettled id hid).1 (List.mem_of_mem_erase hmem), fun v hv => ?_⟩
    have hne : id ≠ usage := fun heq => hrest (heq ▸ hid)
    obtain ⟨x, hx, hdeclaration⟩ := declaration_connect hs hv
    rw [hdeclaration, if_neg hne]
    exact (h.unsettled id hid).2 x hx

namespace Twin

variable {rest : NodeId → Prop}

/-- Counterparts stay counterparts when the outlines of the trees stay as they are. -/
theorem counterpart_of_outline {t' u' : SymbolTree} {a b : Handle}
    (hab : Forest.Counterpart (fun _ => True) t.alone u.alone a b) (ht : t'.outline = t.outline)
    (ht' : t'.generation = t.generation) (hu : u'.outline = u.outline)
    (hu' : u'.generation = u.generation) :
    Forest.Counterpart (fun _ => True) t'.alone u'.alone a b := by
  refine ⟨trivial, hab.file, hab.node, ?_, ?_⟩
  · obtain ⟨id, hid, heq⟩ := isSome_symbol?_alone.1 hab.left
    exact isSome_symbol?_alone.2
      ⟨id, size_congr ht ▸ hid, by rw [heq, handle, handle, file_congr ht, ht']⟩
  · obtain ⟨id, hid, heq⟩ := isSome_symbol?_alone.1 hab.right
    exact isSome_symbol?_alone.2
      ⟨id, size_congr hu ▸ hid, by rw [heq, handle, handle, file_congr hu, hu']⟩

/-- Two readings stay twins if the same use is linked to the same node in both. -/
theorem connect (h : Twin rest t u) {usage : NodeId} {s : Symbol} (hs : t.symbol? usage = some s)
    (hnone : s.declaration = none) (hrest : ¬ rest usage) {d d' : Handle}
    (hdd' : Forest.Counterpart (fun _ => True) t.alone u.alone d d') :
    Twin rest (t.connect usage d) (u.connect usage d') := by
  obtain ⟨v, hv, hsv⟩ := h.exists_symbol? hs
  have htarget := h.forest.target_rel hsv hdd'
  refine ⟨h.toGrown.connect hs hnone hrest htarget.left, ⟨?_, ?_⟩, ?_⟩
  · rw [outline_connect, outline_connect, h.agree.outline]
  · intro id x y hx hy
    have hmono : ∀ a b, Forest.Counterpart (fun _ => True) t.alone u.alone a b →
        Forest.Counterpart (fun _ => True) (t.connect usage d).alone (u.connect usage d').alone a b := by
      intro a b hab
      exact counterpart_of_outline hab (outline_connect _ _ _) (generation_connect _ _ _)
        (outline_connect _ _ _) (generation_connect _ _ _)
    obtain ⟨x₀, hx₀, hxd⟩ := declaration_connect hs hx
    obtain ⟨y₀, hy₀, hyd⟩ := declaration_connect hv hy
    rw [hxd, hyd]
    split
    · exact .some (hmono _ _ htarget)
    · exact (h.agree.declaration id x₀ y₀ hx₀ hy₀).imp hmono
  · rw [pending_connect hs, pending_connect hv, h.pending]

/-- A pending use is connected alike on both sides. -/
theorem connect_of_pending (h : Twin rest t u) {usage : NodeId} (husage : usage ∈ t.pending)
    {d d' : Handle} (hdd' : Forest.Counterpart (fun _ => True) t.alone u.alone d d') :
    Twin rest (t.connect usage d) (u.connect usage d') := by
  obtain ⟨s, hs, hnone⟩ := h.tidy.pending usage husage
  exact h.connect hs hnone (fun hrest => (h.unsettled usage hrest).1 husage) hdd'

end Twin

/-! ## Rows of links -/

/-- Connecting a use leaves the others pending. -/
theorem mem_pending_connect {usage v : NodeId} {d : Handle} (hne : v ≠ usage) (hv : v ∈ t.pending) :
    v ∈ (t.connect usage d).pending := by
  cases hs : t.symbol? usage with
  | none =>
      rw [connect, hs]
      exact hv
  | some s =>
      rw [pending_connect hs]
      exact (List.mem_erase_of_ne hne).2 hv

theorem outline_connectFound (search : SymbolTree → Symbol → Option NodeId) (t : SymbolTree)
    (uses : List NodeId) : (connectFound search t uses).1.outline = t.outline := by
  induction uses generalizing t with
  | nil => rfl
  | cons usage uses ih =>
      unfold connectFound
      split
      · rw [ih, connectTo, outline_connect]
      · exact ih t

/-- The uses that find nothing are kept in their order. -/
theorem sublist_connectFound (search : SymbolTree → Symbol → Option NodeId) (t : SymbolTree)
    (uses : List NodeId) : (connectFound search t uses).2.Sublist uses := by
  induction uses generalizing t with
  | nil => exact List.Sublist.refl _
  | cons usage uses ih =>
      unfold connectFound
      split
      · exact (ih _).cons _
      · exact (ih t).cons_cons _

/-- Uses that are not among those looked up stay pending. -/
theorem mem_pending_connectFound (search : SymbolTree → Symbol → Option NodeId) (t : SymbolTree)
    {uses : List NodeId} {v : NodeId} (hv : v ∈ t.pending) (hnot : v ∉ uses) :
    v ∈ (connectFound search t uses).1.pending := by
  induction uses generalizing t with
  | nil => exact hv
  | cons usage uses ih =>
      have htail : v ∉ uses := List.not_mem_of_not_mem_cons hnot
      unfold connectFound
      split
      · exact ih _ (mem_pending_connect (List.ne_of_not_mem_cons hnot) hv) htail
      · exact ih t hv htail

/-- Uses for which nothing has been found stay pending. -/
theorem mem_pending_of_mem_connectFound (search : SymbolTree → Symbol → Option NodeId)
    (t : SymbolTree) {uses : List NodeId} (hnodup : uses.Nodup) (huses : ∀ v ∈ uses, v ∈ t.pending) :
    ∀ v ∈ (connectFound search t uses).2, v ∈ (connectFound search t uses).1.pending := by
  induction uses generalizing t with
  | nil => exact fun v hv => absurd hv List.not_mem_nil
  | cons usage uses ih =>
      obtain ⟨husage, hnodup⟩ := List.nodup_cons.1 hnodup
      unfold connectFound
      split
      · refine ih _ hnodup fun v hv => ?_
        exact mem_pending_connect (fun heq => husage (heq ▸ hv))
          (huses v (List.mem_cons_of_mem _ hv))
      · intro v hv
        rcases List.mem_cons.1 hv with rfl | hv
        · exact mem_pending_connectFound search t (huses v List.mem_cons_self) husage
        · exact ih t hnodup (fun v hv => huses v (List.mem_cons_of_mem _ hv)) v hv

namespace Twin

variable {rest : NodeId → Prop}

/-- The same pending uses are linked to the same declaration. -/
theorem foldl_connectTo (h : Twin rest t u) {uses : List NodeId} (hnodup : uses.Nodup)
    (huses : ∀ v ∈ uses, v ∈ t.pending) {d : NodeId} (hd : d < t.size) :
    Twin rest (uses.foldl (·.connectTo · d) t) (uses.foldl (·.connectTo · d) u) := by
  induction uses generalizing t u with
  | nil => exact h
  | cons usage uses ih =>
      obtain ⟨husage, hnodup⟩ := List.nodup_cons.1 hnodup
      refine ih (h.connect_of_pending (huses usage List.mem_cons_self) (h.counterpart hd)) hnodup
        (fun v hv => ?_) (size_congr (t.outline_connect usage (t.handle d)) ▸ hd)
      exact mem_pending_connect (fun heq => husage (heq ▸ hv)) (huses v (List.mem_cons_of_mem _ hv))

/-- The same pending uses are linked if a search finds the same in both readings. -/
theorem connectFound (h : Twin rest t u) (search : SymbolTree → Symbol → Option NodeId)
    (hsearch : ∀ t' u', Twin rest t' u' → t'.size = t.size → ∀ s v : Symbol, s.bare = v.bare →
      search t' s = search u' v ∧ ∀ d, search t' s = some d → d < t'.size)
    {uses : List NodeId} (hnodup : uses.Nodup) (huses : ∀ v ∈ uses, v ∈ t.pending) :
    Twin rest (connectFound search t uses).1 (connectFound search u uses).1 ∧
      (connectFound search t uses).2 = (connectFound search u uses).2 := by
  induction uses generalizing t u with
  | nil => exact ⟨h, rfl⟩
  | cons usage uses ih =>
      obtain ⟨husage, hnodup⟩ := List.nodup_cons.1 hnodup
      obtain ⟨s, hs, hnone⟩ := h.tidy.pending usage (huses usage List.mem_cons_self)
      obtain ⟨v, hv, hsv⟩ := h.exists_symbol? hs
      obtain ⟨heq, hlt⟩ := hsearch t u h rfl s v hsv
      have htail : ∀ v ∈ uses, v ∈ t.pending := fun v hv => huses v (List.mem_cons_of_mem _ hv)
      simp only [SymbolTree.connectFound, hs, hv, Option.bind_some, ← heq]
      cases hd : search t s with
      | none =>
          obtain ⟨htwin, hleft⟩ := ih h hsearch hnodup htail
          exact ⟨htwin, congrArg (usage :: ·) hleft⟩
      | some d =>
          have hsize : (t.connectTo usage d).size = t.size :=
            size_congr (t.outline_connect usage (t.handle d))
          refine ih (h.connect_of_pending (huses usage List.mem_cons_self) (h.counterpart (hlt d hd)))
            (fun t' u' h' hsize' => hsearch t' u' h' (hsize'.trans hsize)) hnodup fun v hv => ?_
          exact mem_pending_connect (fun heq => husage (heq ▸ hv)) (htail v hv)

/-! ## Accesses and dotted types -/

/-- Accesses and dotted types find counterparts on both sides. -/
theorem memberTarget?_rel (h : Twin rest t u) (maxDepth : Nat) (usage : NodeId) :
    Option.Rel (Forest.Counterpart (fun _ => True) t.alone u.alone) (t.memberTarget? maxDepth usage)
      (u.memberTarget? maxDepth usage) := by
  have husage := symbol?_congr h.agree.outline usage
  unfold memberTarget?
  cases hs : t.symbol? usage with
  | none =>
      rw [hs] at husage
      rw [husage.eq_none]
      exact .none
  | some s =>
      obtain ⟨v, hv, hsv⟩ := husage.exists_right hs
      have hhandle := h.counterpart (lt_size_of_symbol? hs)
      rw [hv, Option.bind_some, Option.bind_some, ← Symbol.detail_congr hsv,
        ← Symbol.isQualified_congr hsv]
      split
      · exact h.forest.resolveAccess?_rel maxDepth hhandle
      · split
        · exact h.forest.dottedTarget?_rel maxDepth (fun _ => .none) _ hhandle
        · exact .none
      · exact .none

theorem memberTargets_rel (h : Twin rest t u) (maxDepth : Nat) :
    List.Forall₂ (fun l l' => l.1 = l'.1 ∧
        Forest.Counterpart (fun _ => True) t.alone u.alone l.2 l'.2)
      (t.memberTargets maxDepth) (u.memberTargets maxDepth) := by
  rw [memberTargets, memberTargets, ← h.pending]
  exact List.Forall₂.filterMap_rel
    (fun usage => (h.memberTarget?_rel maxDepth usage).map fun _ _ hdd' => ⟨rfl, hdd'⟩) t.pending

/-- The same uses are connected on both sides. -/
theorem connectAll (h : Twin rest t u) {links links' : List (NodeId × Handle)}
    (hlinks : List.Forall₂ (fun l l' => l.1 = l'.1 ∧
      Forest.Counterpart (fun _ => True) t.alone u.alone l.2 l'.2) links links')
    (hnodup : (links.map (·.1)).Nodup) (hpending : ∀ v ∈ links.map (·.1), v ∈ t.pending) :
    Twin rest (t.connectAll links) (u.connectAll links') := by
  induction links generalizing t u links' with
  | nil =>
      cases hlinks
      exact h
  | cons l links ih =>
      cases hlinks with
      | @cons _ l' _ links' hl hlinks =>
          obtain ⟨husage, hnodup⟩ := List.nodup_cons.1 hnodup
          have hl' : u.connect l'.1 l'.2 = u.connect l.1 l'.2 := by rw [hl.1]
          have htwin := h.connect_of_pending (hpending l.1 List.mem_cons_self) hl.2
          rw [SymbolTree.connectAll, SymbolTree.connectAll, List.foldl_cons, List.foldl_cons, hl']
          refine ih htwin (hlinks.imp ?_) hnodup ?_
          · intro a b hab
            exact ⟨hab.1, counterpart_of_outline hab.2 (outline_connect _ _ _)
              (generation_connect _ _ _) (outline_connect _ _ _) (generation_connect _ _ _)⟩
          · intro v hv
            refine mem_pending_connect (fun heq => husage ?_) (hpending v (List.mem_cons_of_mem _ hv))
            rw [heq] at hv
            exact hv

/-- Accesses and dotted types are connected alike on both sides. -/
theorem connectMembers (h : Twin rest t u) (maxDepth : Nat) :
    Twin rest (t.connectMembers maxDepth) (u.connectMembers maxDepth) := by
  fun_induction SymbolTree.connectMembers maxDepth t generalizing u with
  | case1 t hnil =>
      have hnil' : u.memberTargets maxDepth = [] := by
        have hrel := h.memberTargets_rel maxDepth
        rw [hnil] at hrel
        exact List.forall₂_nil_left_iff.1 hrel
      rw [SymbolTree.connectMembers, dif_pos hnil']
      exact h
  | case2 t hne ih =>
      have hrel := h.memberTargets_rel maxDepth
      have hne' : u.memberTargets maxDepth ≠ [] := fun hnil => by
        rw [hnil] at hrel
        exact hne (List.forall₂_nil_right_iff.1 hrel)
      have hsub : ((t.memberTargets maxDepth).map (·.1)).Sublist t.pending := by
        refine List.map_fst_filterMap_sublist (fun a b hb => ?_) t.pending
        obtain ⟨d, -, rfl⟩ := Option.map_eq_some_iff.1 hb
        rfl
      rw [SymbolTree.connectMembers.eq_def maxDepth u, dif_neg hne']
      exact ih (h.connectAll hrel (h.tidy.nodup_pending.sublist hsub) fun v hv => hsub.subset hv)

end Twin

end SymbolTree

end SolidityAtlas

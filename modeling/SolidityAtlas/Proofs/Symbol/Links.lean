import SolidityAtlas.Proofs.Symbol.Grown
import SolidityAtlas.Proofs.Symbol.Stem

/-!
# What is linked while a tree grows

Apart from the look-up of a use when its turn comes, all links of a file are made for uses
that are pending. `SymbolTree.Links why t t'` says that `t'` is `t` with pending uses
linked, one after the other, each for a reason `why`. Every part of settling a node is of
this kind, with a reason of its own, and what links keep is shown once.

What an operation has left is known as well: a use that a search was tried for and that is
still pending is one for which the search found nothing.

## Main Definitions

* `SymbolTree.Links`: pending uses are linked, each for a reason
* `Growth.Claims`: a declaration takes a use

## Main Results

* `Growth.accept_cases`: all that dealing with a node does
* `Growth.links_claim`, `SymbolTree.links_closeBases`, `SymbolTree.links_closeUses`,
  `SymbolTree.links_connectMembers`: the links that are made, and the reasons
-/

namespace SolidityAtlas

namespace SymbolTree

variable {t t' t'' : SymbolTree}

/-! ## One link -/

/-- What a link does to the symbols. -/
theorem exists_of_symbol?_connect {usage id : NodeId} {s x : Symbol} {d : Handle}
    (hs : t.symbol? usage = some s) (hx : (t.connect usage d).symbol? id = some x) :
    ∃ y, t.symbol? id = some y ∧ x.bare = y.bare ∧
      x.declaration = (if id = usage then some (t.alone.target s d) else y.declaration) ∧
      x.declaredType =
        if id = usage then y.declaredType ++ [t.alone.target s d] else y.declaredType := by
  rw [connect_eq hs, symbol?_addReference, symbol?_link, Option.map_map] at hx
  obtain ⟨y, hy, rfl⟩ := Option.map_eq_some_iff.1 hx
  refine ⟨y, hy, ?_⟩
  simp only [Function.comp_apply]
  split <;> split <;> exact ⟨rfl, rfl, rfl⟩

/-- A link does not change the outline. -/
theorem outline_connectTo (t : SymbolTree) (usage d : NodeId) :
    (t.connectTo usage d).outline = t.outline :=
  t.outline_connect usage (t.handle d)

theorem handle_connect (t : SymbolTree) (usage : NodeId) (d : Handle) :
    (t.connect usage d).handle = t.handle := by
  funext id
  have hfile := file_congr (t.outline_connect usage d)
  rw [handle, handle, hfile, generation_connect]

/-- A link makes no use pending. -/
theorem mem_pending_of_connect {usage v : NodeId} {d : Handle} (h : v ∈ (t.connect usage d).pending) :
    v ∈ t.pending := by
  unfold SymbolTree.connect at h
  split at h
  · exact h
  · exact List.mem_of_mem_erase h

/-! ## Links for a reason -/

/-- One tree is another one with pending uses linked one after the other, each for a reason. -/
inductive Links (why : SymbolTree → NodeId → Symbol → Handle → Prop) (t : SymbolTree) :
    SymbolTree → Prop where
  | refl : Links why t t
  | link {t' usage s d} : Links why t t' → usage ∈ t'.pending → t'.symbol? usage = some s →
      why t' usage s d → Links why t (t'.connect usage d)

variable {why why' : SymbolTree → NodeId → Symbol → Handle → Prop}

namespace Links

/-- Links after links are links. -/
theorem trans (h : Links why t t') (h' : Links why t' t'') : Links why t t'' := by
  induction h' with
  | refl => exact h
  | link _ hu hs hwhy ih => exact .link ih hu hs hwhy

/-- Links for one reason are links for another one, if the reason follows while they are made. -/
theorem mono (h : Links why t t')
    (hmono : ∀ t'' usage s d, Links why t t'' → usage ∈ t''.pending → t''.symbol? usage = some s →
      why t'' usage s d → why' t'' usage s d) : Links why' t t' := by
  induction h with
  | refl => exact .refl
  | link hlinks hu hs hwhy ih => exact .link ih hu hs (hmono _ _ _ _ hlinks hu hs hwhy)

/-- Links do not change the outline. -/
theorem outline_eq (h : Links why t t') : t'.outline = t.outline := by
  induction h with
  | refl => rfl
  | link _ _ _ _ ih => rw [outline_connect, ih]

/-- Links do not change the file and the generation. -/
theorem handle_eq (h : Links why t t') : t'.handle = t.handle := by
  induction h with
  | refl => rfl
  | link _ _ _ _ ih => rw [handle_connect, ih]

/-- Links take uses from the pool and leave the others in their order. -/
theorem pending_sublist (h : Links why t t') : t'.pending.Sublist t.pending := by
  induction h with
  | refl => exact List.Sublist.refl _
  | link _ _ hs _ ih =>
      rw [pending_connect hs]
      exact List.erase_sublist.trans ih

/-- What is pending after links was pending before. -/
theorem mem_pending_of_mem (h : Links why t t') {v : NodeId} (hv : v ∈ t'.pending) :
    v ∈ t.pending :=
  h.pending_sublist.subset hv

/-- Links make no use pending twice. -/
theorem nodup_pending (h : Links why t t') (hnodup : t.pending.Nodup) : t'.pending.Nodup :=
  hnodup.sublist h.pending_sublist

/-- A use that no link is for stays pending. -/
theorem mem_pending (h : Links why t t') {v : NodeId} (hv : v ∈ t.pending)
    (hnot : ∀ t'' s d, Links why t t'' → v ∈ t''.pending → t''.symbol? v = some s →
      ¬ why t'' v s d) : v ∈ t'.pending := by
  induction h with
  | refl => exact hv
  | @link t'' usage s d hlinks hu hs hwhy ih =>
      refine mem_pending_connect (fun heq => ?_) ih
      subst heq
      exact hnot t'' s d hlinks hu hs hwhy

end Links

/-! ## Rows of links -/

/-- The same declaration for a row of pending uses. -/
theorem links_foldl_connectTo {uses : List NodeId} (hnodup : uses.Nodup)
    (huses : ∀ v ∈ uses, v ∈ t.pending) (hsymbols : ∀ v ∈ uses, ∃ s, t.symbol? v = some s)
    (d : NodeId) : Links (fun t u _ h => u ∈ uses ∧ h = t.handle d) t
      (uses.foldl (·.connectTo · d) t) := by
  suffices hsuffix : ∀ (row : List NodeId) (t' : SymbolTree), row.Nodup → (∀ v ∈ row, v ∈ uses) →
      (∀ v ∈ row, v ∈ t'.pending) → Links (fun t u _ h => u ∈ uses ∧ h = t.handle d) t t' →
      Links (fun t u _ h => u ∈ uses ∧ h = t.handle d) t (row.foldl (·.connectTo · d) t') from
    hsuffix uses t hnodup (fun _ hv => hv) huses .refl
  intro row
  induction row with
  | nil => exact fun _ _ _ _ h => h
  | cons usage row ih =>
      intro t' hnodup hrow hpending h
      obtain ⟨husage, hnodup⟩ := List.nodup_cons.1 hnodup
      have hmem := hrow usage List.mem_cons_self
      obtain ⟨s, hs⟩ := hsymbols usage hmem
      obtain ⟨s', hs'⟩ := exists_symbol?_of_lt (show usage < t'.size by
        rw [size_congr h.outline_eq]
        exact lt_size_of_symbol? hs)
      refine ih (t'.connectTo usage d) hnodup (fun v hv => hrow v (List.mem_cons_of_mem _ hv))
        (fun v hv => ?_) (.link h (hpending usage List.mem_cons_self) hs' ⟨hmem, rfl⟩)
      exact mem_pending_connect (fun heq => husage (heq ▸ hv))
        (hpending v (List.mem_cons_of_mem _ hv))

/-- None of these uses is pending any longer. -/
theorem not_mem_pending_foldl_connectTo {uses : List NodeId} (hnodup : t.pending.Nodup)
    (hsymbols : ∀ v ∈ uses, ∃ s, t.symbol? v = some s) (d : NodeId) {v : NodeId} (hv : v ∈ uses) :
    v ∉ (uses.foldl (·.connectTo · d) t).pending := by
  induction uses generalizing t with
  | nil => exact absurd hv List.not_mem_nil
  | cons usage uses ih =>
      obtain ⟨s, hs⟩ := hsymbols usage List.mem_cons_self
      have hpending : (t.connectTo usage d).pending = t.pending.erase usage := pending_connect hs _
      have hnodup' : (t.connectTo usage d).pending.Nodup := by
        rw [hpending]
        exact hnodup.erase usage
      have hsymbols' : ∀ v ∈ uses, ∃ s, (t.connectTo usage d).symbol? v = some s := fun v hv => by
        obtain ⟨x, hx⟩ := hsymbols v (List.mem_cons_of_mem _ hv)
        refine exists_symbol?_of_lt ?_
        rw [size_congr (outline_connectTo _ _ _)]
        exact lt_size_of_symbol? hx
      have hsub : ∀ w, w ∈ (uses.foldl (·.connectTo · d) (t.connectTo usage d)).pending →
          w ∈ (t.connectTo usage d).pending := by
        exact foldl_connectTo_kept (P := fun t' => ∀ w, w ∈ t'.pending →
          w ∈ (t.connectTo usage d).pending) (fun t' u e h w hw => h w (mem_pending_of_connect hw))
          uses d fun _ hw => hw
      rcases List.mem_cons.1 hv with rfl | hv
      · intro hmem
        have hmem := hsub v hmem
        rw [hpending, hnodup.mem_erase_iff] at hmem
        exact hmem.1 rfl
      · exact ih hnodup' hsymbols' hv

/-- What a search finds for a row of pending uses. -/
theorem links_connectFound (search : SymbolTree → Symbol → Option NodeId) {uses : List NodeId}
    (hnodup : uses.Nodup) (huses : ∀ v ∈ uses, v ∈ t.pending) :
    Links (fun t u s h => u ∈ uses ∧ ∃ d, search t s = some d ∧ h = t.handle d) t
      (connectFound search t uses).1 := by
  suffices hsuffix : ∀ (row : List NodeId) (t' : SymbolTree), row.Nodup → (∀ v ∈ row, v ∈ uses) →
      (∀ v ∈ row, v ∈ t'.pending) →
      Links (fun t u s h => u ∈ uses ∧ ∃ d, search t s = some d ∧ h = t.handle d) t t' →
      Links (fun t u s h => u ∈ uses ∧ ∃ d, search t s = some d ∧ h = t.handle d) t
        (connectFound search t' row).1 from hsuffix uses t hnodup (fun _ hv => hv) huses .refl
  intro row
  induction row with
  | nil => exact fun _ _ _ _ h => h
  | cons usage row ih =>
      intro t' hnodup hrow hpending h
      obtain ⟨husage, hnodup⟩ := List.nodup_cons.1 hnodup
      have htail : ∀ v ∈ row, v ∈ uses := fun v hv => hrow v (List.mem_cons_of_mem _ hv)
      unfold connectFound
      cases hd : (t'.symbol? usage).bind (search t') with
      | none => exact ih t' hnodup htail (fun v hv => hpending v (List.mem_cons_of_mem _ hv)) h
      | some d =>
          obtain ⟨s, hs, hsd⟩ := Option.bind_eq_some_iff.1 hd
          refine ih _ hnodup htail (fun v hv => ?_) (.link h (hpending usage List.mem_cons_self) hs
            ⟨hrow usage List.mem_cons_self, d, hsd, rfl⟩)
          exact mem_pending_connect (fun heq => husage (heq ▸ hv))
            (hpending v (List.mem_cons_of_mem _ hv))

/-- Of the uses that a search was tried for, those that are pending still are left. -/
theorem mem_left_of_mem_pending (search : SymbolTree → Symbol → Option NodeId) {uses : List NodeId}
    (hnodup : t.pending.Nodup) {v : NodeId} (hv : v ∈ uses)
    (hpending : v ∈ (connectFound search t uses).1.pending) : v ∈ (connectFound search t uses).2 := by
  induction uses generalizing t with
  | nil => exact absurd hv List.not_mem_nil
  | cons usage uses ih =>
      unfold connectFound at hpending ⊢
      cases hd : (t.symbol? usage).bind (search t) with
      | none =>
          simp only [hd] at hpending ⊢
          rcases List.mem_cons.1 hv with rfl | hv
          · exact List.mem_cons_self
          · exact List.mem_cons_of_mem _ (ih hnodup hv hpending)
      | some d =>
          simp only [hd] at hpending ⊢
          obtain ⟨s, hs, -⟩ := Option.bind_eq_some_iff.1 hd
          have herase : (t.connectTo usage d).pending = t.pending.erase usage := pending_connect hs _
          have hnodup' : (t.connectTo usage d).pending.Nodup := by
            rw [herase]
            exact hnodup.erase usage
          rcases List.mem_cons.1 hv with rfl | hv
          · have hsub : ∀ w, w ∈ (connectFound search (t.connectTo v d) uses).1.pending →
                w ∈ (t.connectTo v d).pending := by
              exact connectFound_kept (P := fun t' => ∀ w, w ∈ t'.pending →
                w ∈ (t.connectTo v d).pending) (fun t' u e h w hw => h w (mem_pending_of_connect hw))
                search uses fun _ hw => hw
            have hmem := hsub v hpending
            rw [herase, hnodup.mem_erase_iff] at hmem
            exact absurd rfl hmem.1
          · exact ih hnodup' hv hpending

/-- For a use that is left, the search found nothing when it was tried. -/
theorem exists_of_mem_left (search : SymbolTree → Symbol → Option NodeId) {uses : List NodeId}
    (hnodup : uses.Nodup) (huses : ∀ v ∈ uses, v ∈ t.pending) {v : NodeId}
    (hv : v ∈ (connectFound search t uses).2) : v ∈ uses ∧ ∃ t',
      Links (fun t u s h => u ∈ uses ∧ ∃ d, search t s = some d ∧ h = t.handle d) t t' ∧
        Links (fun t u s h => u ∈ uses ∧ ∃ d, search t s = some d ∧ h = t.handle d) t'
          (connectFound search t uses).1 ∧
        v ∈ t'.pending ∧ ∀ s, t'.symbol? v = some s → search t' s = none := by
  suffices hsuffix : ∀ (row : List NodeId) (t' : SymbolTree), row.Nodup → (∀ v ∈ row, v ∈ uses) →
      (∀ v ∈ row, v ∈ t'.pending) →
      Links (fun t u s h => u ∈ uses ∧ ∃ d, search t s = some d ∧ h = t.handle d) t t' →
      v ∈ (connectFound search t' row).2 → v ∈ uses ∧ ∃ τ,
        Links (fun t u s h => u ∈ uses ∧ ∃ d, search t s = some d ∧ h = t.handle d) t τ ∧
          Links (fun t u s h => u ∈ uses ∧ ∃ d, search t s = some d ∧ h = t.handle d) τ
            (connectFound search t' row).1 ∧
          v ∈ τ.pending ∧ ∀ s, τ.symbol? v = some s → search τ s = none from
    hsuffix uses t hnodup (fun _ hv => hv) huses .refl hv
  intro row
  induction row with
  | nil => exact fun _ _ _ _ _ hv => absurd hv List.not_mem_nil
  | cons usage row ih =>
      intro t' hnodup hrow hpending h hv
      obtain ⟨husage, hrow'⟩ := List.nodup_cons.1 hnodup
      have htail : ∀ v ∈ row, v ∈ uses := fun v hv => hrow v (List.mem_cons_of_mem _ hv)
      have hpend := hpending usage List.mem_cons_self
      have hrest : ∀ v ∈ row, v ∈ t'.pending := fun v hv => hpending v (List.mem_cons_of_mem _ hv)
      unfold connectFound at hv ⊢
      cases hd : (t'.symbol? usage).bind (search t') with
      | none =>
          simp only [hd] at hv ⊢
          rcases List.mem_cons.1 hv with rfl | hv
          · have hlinks := links_connectFound search hrow' hrest
            refine ⟨hrow v List.mem_cons_self, t', h, ?_, hpend, fun s hs => ?_⟩
            · exact hlinks.mono fun _ _ _ _ _ _ _ hand => ⟨htail _ hand.1, hand.2⟩
            · rw [hs] at hd
              exact hd
          · exact ih t' hrow' htail hrest h hv
      | some d =>
          simp only [hd] at hv ⊢
          obtain ⟨s, hs, hsd⟩ := Option.bind_eq_some_iff.1 hd
          refine ih _ hrow' htail (fun v hv => ?_) (.link h hpend hs
            ⟨hrow usage List.mem_cons_self, d, hsd, rfl⟩) hv
          exact mem_pending_connect (fun heq => husage (heq ▸ hv)) (hrest v hv)

end SymbolTree

end SolidityAtlas

import SolidityAtlas.Proofs.Symbol.Agreement
import SolidityAtlas.Symbol.Link

/-!
# The two ends of a link

What a change of links does to the symbols of a tree is said here once for each of
the operations on trees, as an equation for `symbol?`. Everything that is to be kept
of the links follows from these equations.

Two kinds of things are kept. A tree is *tidy* if its own records about links agree:
what is pending has no declaration, what is linked into another file is recorded as
external, what a node has as its type is itself or its declaration, and no use is
listed twice. The links of a forest are *paired* if every declaration lists the uses
that are linked to it, and lists no others, as far as these stand in other files. A
use of the same file can be listed too long: when its link is taken back only the
files that it leads into are told, and its own file is not one of them.

## Main Definitions

* `SymbolTree.Tidy`: the records of a tree about its links agree
* `Forest.Lists`: a declaration lists a use
* `Forest.Paired`: declarations list the uses linked to them
-/

namespace SolidityAtlas

/-! ## Symbols -/

namespace Symbol

/-- The symbol behind the handle `h` when the use behind `u` is linked to the declaration behind
`d`. -/
def linkedAt (u d h : Handle) (s : Symbol) : Symbol :=
  let s := if h = u then s.linkTo d else s
  if h = d then s.addReference u else s

/-- Only the use itself gets a declaration. -/
theorem declaration_linkedAt (u d h : Handle) (s : Symbol) :
    (s.linkedAt u d h).declaration = if h = u then some d else s.declaration := by
  unfold linkedAt
  split <;> split <;> rfl

/-- Only the declaration itself gets a back link. -/
theorem references_linkedAt (u d h : Handle) (s : Symbol) :
    (s.linkedAt u d h).references = if h = d then appendNew s.references u else s.references := by
  unfold linkedAt
  split <;> split <;> rfl

/-- A use that is unlinked has no declaration. -/
@[simp] theorem declaration_unlink (s : Symbol) : s.unlink.declaration = none := by
  unfold unlink
  split
  · assumption
  · rfl

@[simp] theorem references_unlink (s : Symbol) : s.unlink.references = s.references := by
  unfold unlink
  split <;> rfl

/-- A type that came with the link goes with it. -/
theorem mem_declaredType_unlink {s : Symbol} {x : Handle} (hx : x ∈ s.unlink.declaredType) :
    x ∈ s.declaredType ∧ s.declaration ≠ some x := by
  unfold unlink at hx
  split at hx
  · rename_i hnone
    exact ⟨hx, by rw [hnone]; exact nofun⟩
  · rename_i d hd
    obtain ⟨hmem, hne⟩ := List.mem_filter.1 hx
    refine ⟨hmem, fun heq => ?_⟩
    rw [hd] at heq
    simp [Option.some.inj heq] at hne

/-- What is not linked stays as it is. -/
theorem unlink_of_declaration_eq_none {s : Symbol} (h : s.declaration = none) : s.unlink = s := by
  unfold unlink
  rw [h]

/-- Unlinking twice is unlinking once. -/
@[simp] theorem unlink_unlink (s : Symbol) : s.unlink.unlink = s.unlink :=
  unlink_of_declaration_eq_none (declaration_unlink s)

end Symbol

/-! ## Trees -/

namespace SymbolTree

variable (t : SymbolTree)

/-- Only the node that is changed is found changed. -/
theorem symbol?_modify (id : NodeId) (f : Symbol → Symbol) (other : NodeId) :
    (t.modify id f).symbol? other =
      (t.symbol? other).map fun s => if other = id then f s else s := by
  simp only [symbol?, modify, Array.getElem?_modify, eq_comm (a := id)]
  split
  · simp_all
  · simp_all

theorem symbol?_link (usage : NodeId) (d : Handle) (id : NodeId) :
    (t.link usage d).symbol? id =
      (t.symbol? id).map fun s => if id = usage then s.linkTo d else s :=
  t.symbol?_modify usage (Symbol.linkTo d) id

/-- A link into another file is seen at the use only. -/
theorem symbol?_linkExternal (usage : NodeId) (d : Handle) (id : NodeId) :
    (t.linkExternal usage d).symbol? id =
      (t.symbol? id).map fun s => if id = usage then s.linkTo d else s :=
  t.symbol?_link usage d id

/-- A back link is seen at the declaration only. -/
theorem symbol?_addReference (declaration : NodeId) (usage : Handle) (id : NodeId) :
    (t.addReference declaration usage).symbol? id =
      (t.symbol? id).map fun s => if id = declaration then s.addReference usage else s :=
  t.symbol?_modify declaration (Symbol.addReference usage) id

/-- Every node loses its back links from the file. -/
theorem symbol?_dropReferencesFrom (file : FileId) (id : NodeId) :
    (t.dropReferencesFrom file).symbol? id =
      (t.symbol? id).map (Symbol.dropReferencesFrom file) := by
  simp [symbol?, dropReferencesFrom]

/-- The uses that were linked into other files are found unlinked. -/
theorem symbol?_unlinkExternal (id : NodeId) :
    t.unlinkExternal.symbol? id =
      (t.symbol? id).map fun s => if id ∈ t.external then s.unlink else s := by
  have hfold : ∀ (external : List NodeId) (nodes : Array Symbol),
      (external.foldl (fun ns usage => ns.modify usage Symbol.unlink) nodes)[id]? =
        (nodes[id]?).map fun s => if id ∈ external then s.unlink else s := by
    intro external
    induction external with
    | nil => simp
    | cons usage external ih =>
        intro nodes
        rw [List.foldl_cons, ih, Array.getElem?_modify]
        by_cases hid : id = usage
        · simp [hid, Option.map_map, Function.comp_def]
        · simp [hid, Ne.symm hid]
  exact hfold t.external t.nodes

/-- What was linked into other files is pending again. -/
theorem mem_pending_unlinkExternal {id : NodeId} :
    id ∈ t.unlinkExternal.pending ↔ id ∈ t.pending ∨ id ∈ t.external := by
  rw [unlinkExternal, mem_ascending, mem_foldl_appendNew, or_comm]

/-- Taking back external links leaves the pool in the order of the text. -/
theorem pairwise_pending_unlinkExternal (h : t.pending.Nodup) :
    t.unlinkExternal.pending.Pairwise (· < ·) :=
  pairwise_lt_ascending (nodup_foldl_appendNew t.external h)

/-- Taking back external links makes no use pending twice. -/
theorem nodup_pending_unlinkExternal (h : t.pending.Nodup) : t.unlinkExternal.pending.Nodup :=
  (t.pairwise_pending_unlinkExternal h).imp Nat.ne_of_lt

variable {t} in
/-- When links from outside have been taken back, it makes no difference which of the pending uses
were linked before. -/
theorem pending_unlinkExternal_congr {u : SymbolTree} (ht : t.pending.Nodup) (hu : u.pending.Nodup)
    (h : ∀ id, (id ∈ t.pending ∨ id ∈ t.external) ↔ (id ∈ u.pending ∨ id ∈ u.external)) :
    t.unlinkExternal.pending = u.unlinkExternal.pending := by
  have hperm : t.unlinkExternal.pending.Perm u.unlinkExternal.pending := by
    refine (List.perm_ext_iff_of_nodup (t.nodup_pending_unlinkExternal ht)
      (u.nodup_pending_unlinkExternal hu)).2 fun id => ?_
    rw [mem_pending_unlinkExternal, mem_pending_unlinkExternal, h]
  exact hperm.eq_of_pairwise (fun _ _ _ _ hlt hgt => absurd hgt (Nat.lt_asymm hlt))
    (t.pairwise_pending_unlinkExternal ht) (u.pairwise_pending_unlinkExternal hu)

/-! ## Tidy trees -/

/-- What a tree records about its links agrees. -/
structure Tidy : Prop where
  nodup_pending : t.pending.Nodup
  pending : ∀ u ∈ t.pending, ∃ s, t.symbol? u = some s ∧ s.declaration = none
  external : ∀ u ∈ t.external, ∃ s d, t.symbol? u = some s ∧ s.declaration = some d
  outside : ∀ id s d, t.symbol? id = some s → s.declaration = some d → d.file ≠ t.file →
    id ∈ t.external
  declaredType : ∀ id s, t.symbol? id = some s → ∀ x ∈ s.declaredType,
    x = t.handle id ∨ s.declaration = some x
  nodup_references : ∀ id s, t.symbol? id = some s → s.references.Nodup

namespace Tidy

variable {t} {t' : SymbolTree} (h : t.Tidy)

include h

/-- A change that leaves the links of the uses alone keeps a tree tidy. -/
theorem map {f : NodeId → Symbol → Symbol}
    (hsymbol : ∀ id, t'.symbol? id = (t.symbol? id).map (f id)) (hfile : t'.file = t.file)
    (hgeneration : t'.generation = t.generation) (hpending : t'.pending = t.pending)
    (hexternal : t'.external = t.external)
    (hdeclaration : ∀ id s, (f id s).declaration = s.declaration)
    (htype : ∀ id s, ∀ x ∈ (f id s).declaredType, x ∈ s.declaredType ∨ x = t.handle id)
    (hreferences : ∀ id s, s.references.Nodup → (f id s).references.Nodup) : t'.Tidy := by
  have hhandle : t'.handle = t.handle := by
    funext id
    rw [handle, handle, hfile, hgeneration]
  refine ⟨by rw [hpending]; exact h.nodup_pending, ?_, ?_, ?_, ?_, ?_⟩
  · intro u hu
    rw [hpending] at hu
    obtain ⟨s, hs, hnone⟩ := h.pending u hu
    exact ⟨f u s, by rw [hsymbol, hs]; rfl, by rw [hdeclaration, hnone]⟩
  · intro u hu
    rw [hexternal] at hu
    obtain ⟨s, d, hs, hd⟩ := h.external u hu
    exact ⟨f u s, d, by rw [hsymbol, hs]; rfl, by rw [hdeclaration, hd]⟩
  · intro id v d hv hd hout
    obtain ⟨s, hs, rfl⟩ := Option.map_eq_some_iff.1 ((hsymbol id).symm.trans hv)
    rw [hexternal]
    exact h.outside id s d hs (by rw [← hd, hdeclaration]) (by rw [← hfile]; exact hout)
  · intro id v hv x hx
    obtain ⟨s, hs, rfl⟩ := Option.map_eq_some_iff.1 ((hsymbol id).symm.trans hv)
    rw [hhandle, hdeclaration]
    rcases htype id s x hx with hx | hx
    · exact h.declaredType id s hs x hx
    · exact .inl hx
  · intro id v hv
    obtain ⟨s, hs, rfl⟩ := Option.map_eq_some_iff.1 ((hsymbol id).symm.trans hv)
    exact hreferences id s (h.nodup_references id s hs)

theorem addReference (declaration : NodeId) (usage : Handle) :
    (t.addReference declaration usage).Tidy := by
  refine h.map (t.symbol?_addReference declaration usage) rfl rfl rfl rfl ?_ ?_ ?_
  · intro id s
    split <;> rfl
  · intro id s x hx
    left
    split at hx <;> exact hx
  · intro id s hs
    split
    · exact nodup_appendNew usage hs
    · exact hs

theorem dropReferencesFrom (file : FileId) : (t.dropReferencesFrom file).Tidy :=
  h.map (t.symbol?_dropReferencesFrom file) rfl rfl rfl rfl (fun _ _ => rfl)
    (fun _ _ _ hx => .inl hx) fun _ _ hs => hs.filter _

/-- A use that is linked stays on record if its declaration is in another file. -/
theorem link_of {u : NodeId} {s : Symbol} {d : Handle} (hs : t.symbol? u = some s)
    (hnone : s.declaration = none) {external : List NodeId}
    (hsub : ∀ id ∈ t.external, id ∈ external) (hnew : ∀ id ∈ external, id ∈ t.external ∨ id = u)
    (hout : d.file ≠ t.file → u ∈ external) :
    ({ t.link u d with external := external } : SymbolTree).Tidy := by
  have hsymbol : ∀ id, (t.link u d).symbol? id =
      (t.symbol? id).map fun s => if id = u then s.linkTo d else s := t.symbol?_link u d
  refine ⟨h.nodup_pending.erase u, ?_, ?_, ?_, ?_, ?_⟩
  · intro v hv
    obtain ⟨hne, hv⟩ := h.nodup_pending.mem_erase_iff.1 hv
    obtain ⟨x, hx, hxnone⟩ := h.pending v hv
    refine ⟨x, (hsymbol v).trans ?_, hxnone⟩
    rw [hx, Option.map_some, if_neg hne]
  · intro id hid
    by_cases heq : id = u
    · exact ⟨s.linkTo d, d, (hsymbol id).trans (by rw [heq, hs, Option.map_some, if_pos rfl]), rfl⟩
    · obtain ⟨x, e, hx, he⟩ := h.external id ((hnew id hid).resolve_right heq)
      exact ⟨x, e, (hsymbol id).trans (by rw [hx, Option.map_some, if_neg heq]), he⟩
  · intro id v e hv he hfile
    obtain ⟨x, hx, rfl⟩ := Option.map_eq_some_iff.1 ((hsymbol id).symm.trans hv)
    by_cases hid : id = u
    · rw [if_pos hid] at he
      rw [hid]
      exact hout (by rw [Option.some.inj he]; exact hfile)
    · rw [if_neg hid] at he
      exact hsub id (h.outside id x e hx he hfile)
  · intro id v hv y hy
    obtain ⟨x, hx, rfl⟩ := Option.map_eq_some_iff.1 ((hsymbol id).symm.trans hv)
    by_cases hid : id = u
    · subst hid
      rw [hs] at hx
      cases hx
      rw [if_pos rfl] at hy ⊢
      rcases List.mem_append.1 hy with hy | hy
      · refine .inl ((h.declaredType id s hs y hy).resolve_right ?_)
        rw [hnone]
        exact nofun
      · rw [List.mem_singleton.1 hy]
        exact .inr rfl
    · rw [if_neg hid] at hy ⊢
      exact h.declaredType id x hx y hy
  · intro id v hv
    obtain ⟨x, hx, rfl⟩ := Option.map_eq_some_iff.1 ((hsymbol id).symm.trans hv)
    split
    · exact h.nodup_references id x hx
    · exact h.nodup_references id x hx

/-- A use that is linked inside its file is not counted among the external ones. -/
theorem link {u : NodeId} {s : Symbol} {d : Handle} (hs : t.symbol? u = some s)
    (hnone : s.declaration = none) (hfile : d.file = t.file) : (t.link u d).Tidy :=
  h.link_of hs hnone (fun _ hid => hid) (fun _ hid => .inl hid) fun hne => absurd hfile hne

/-- A use that is linked into another file is counted among the external ones. -/
theorem linkExternal {u : NodeId} (hu : u ∈ t.pending) (d : Handle) :
    (t.linkExternal u d).Tidy := by
  obtain ⟨s, hs, hnone⟩ := h.pending u hu
  exact h.link_of hs hnone (fun id hid => mem_appendNew.2 (.inl hid))
    (fun id hid => mem_appendNew.1 hid) fun _ => mem_appendNew.2 (.inr rfl)

/-- A use that is not linked may become pending. -/
theorem enqueue {u : NodeId} {s : Symbol} (hs : t.symbol? u = some s)
    (hnone : s.declaration = none) : (t.enqueue u).Tidy := by
  refine ⟨nodup_appendNew u h.nodup_pending, ?_, h.external, h.outside, h.declaredType,
    h.nodup_references⟩
  intro v hv
  rcases mem_appendNew.1 hv with hv | rfl
  · exact h.pending v hv
  · exact ⟨s, hs, hnone⟩

/-- A tree whose links from outside are taken back has no link into another file. -/
theorem file_eq_of_unlinkExternal {id : NodeId} {s : Symbol} {d : Handle}
    (hs : t.unlinkExternal.symbol? id = some s) (hd : s.declaration = some d) :
    d.file = t.file := by
  obtain ⟨x, hx, rfl⟩ := Option.map_eq_some_iff.1 ((t.symbol?_unlinkExternal id).symm.trans hs)
  split at hd
  · rw [Symbol.declaration_unlink] at hd
    cases hd
  · rename_i hmem
    exact Decidable.byContradiction fun hfile => hmem (h.outside id x d hx hd hfile)

/-- Taking back the external links keeps a tree tidy. -/
theorem unlinkExternal : t.unlinkExternal.Tidy := by
  refine ⟨t.nodup_pending_unlinkExternal h.nodup_pending, ?_, ?_, ?_, ?_, ?_⟩
  · intro u hu
    rcases t.mem_pending_unlinkExternal.1 hu with hu | hu
    · obtain ⟨s, hs, hnone⟩ := h.pending u hu
      refine ⟨_, by rw [symbol?_unlinkExternal, hs, Option.map_some], ?_⟩
      split
      · exact Symbol.declaration_unlink s
      · exact hnone
    · obtain ⟨s, -, hs, -⟩ := h.external u hu
      refine ⟨_, by rw [symbol?_unlinkExternal, hs, Option.map_some], ?_⟩
      rw [if_pos hu]
      exact Symbol.declaration_unlink s
  · exact fun u hu => absurd hu List.not_mem_nil
  · exact fun id s d hs hd hfile => absurd (h.file_eq_of_unlinkExternal hs hd) hfile
  · intro id v hv x hx
    obtain ⟨s, hs, rfl⟩ := Option.map_eq_some_iff.1 ((t.symbol?_unlinkExternal id).symm.trans hv)
    split at hx
    · obtain ⟨hx, hne⟩ := Symbol.mem_declaredType_unlink hx
      exact .inl ((h.declaredType id s hs x hx).resolve_right hne)
    · rename_i hmem
      rw [if_neg hmem]
      exact h.declaredType id s hs x hx
  · intro id v hv
    obtain ⟨s, hs, rfl⟩ := Option.map_eq_some_iff.1 ((t.symbol?_unlinkExternal id).symm.trans hv)
    split
    · rw [Symbol.references_unlink]
      exact h.nodup_references id s hs
    · exact h.nodup_references id s hs

end Tidy

variable {t}

/-- A change of the symbols behind good handles that leaves file, generation and size as they
are. -/
theorem lookup?_of_symbol? {t' : SymbolTree} {f : NodeId → Symbol → Symbol}
    (hsymbol : ∀ id, t'.symbol? id = (t.symbol? id).map (f id)) (hfile : t'.file = t.file)
    (hgeneration : t'.generation = t.generation) (hsize : t'.size = t.size) (h : Handle) :
    t'.lookup? h = (t.lookup? h).map (f h.node) := by
  rw [lookup?, lookup?, owns, owns, hfile, hgeneration, hsize]
  split
  · exact hsymbol h.node
  · rfl

end SymbolTree

/-! ## Forests -/

namespace Forest

variable (f : Forest)

/-- A declaration lists a use. -/
def Lists (d u : Handle) : Prop :=
  ∃ s, f.symbol? d = some s ∧ u ∈ s.references

/-- Declarations list the uses that are linked to them, and no others, as far as these stand in
other files. -/
structure Paired : Prop where
  listed : ∀ u d, f.declaration? u = some d → f.Lists d u
  found : ∀ d u, f.Lists d u → (f.symbol? u).isSome = true
  linked : ∀ d u, f.Lists d u → u.file ≠ d.file → f.declaration? u = some d

/-- Declarations list exactly the uses that are linked to them. -/
def Exact : Prop :=
  ∀ u d, f.Lists d u ↔ f.declaration? u = some d

variable {f} {f' : Forest} {u d : Handle}

/-- What lists a use is a node. -/
theorem isSome_of_lists (h : f.Lists d u) : (f.symbol? d).isSome = true := by
  obtain ⟨s, hs, -⟩ := h
  rw [hs]
  rfl

/-- What has a declaration is a node. -/
theorem isSome_of_declaration? (h : f.declaration? u = some d) : (f.symbol? u).isSome = true := by
  cases hs : f.symbol? u with
  | none => simp [declaration?, hs] at h
  | some s => rfl

/-- What is linked finds its declaration. -/
theorem Paired.isSome_declaration (h : f.Paired) (hu : f.declaration? u = some d) :
    (f.symbol? d).isSome = true :=
  isSome_of_lists (h.listed u d hu)

/-! ### One more link -/

section Link

variable (hlink : ∀ h, f'.symbol? h = (f.symbol? h).map (Symbol.linkedAt u d h))

include hlink

/-- A link brings in no node and takes none away. -/
theorem isSome_symbol?_link (h : Handle) : (f'.symbol? h).isSome = (f.symbol? h).isSome := by
  rw [hlink, Option.isSome_map]

/-- Besides the use nothing gets another declaration. -/
theorem declaration?_link (hu : (f.symbol? u).isSome = true) (h : Handle) :
    f'.declaration? h = if h = u then some d else f.declaration? h := by
  rw [declaration?, declaration?, hlink]
  cases hs : f.symbol? h with
  | none =>
      rw [if_neg (fun heq => by rw [heq, ← Option.not_isSome_iff_eq_none] at hs; exact hs hu)]
      rfl
  | some s => simp only [Option.map_some, Option.bind_some, Symbol.declaration_linkedAt]

/-- Besides the declaration nothing gets another back link. -/
theorem lists_link_iff (hd : (f.symbol? d).isSome = true) (h v : Handle) :
    f'.Lists h v ↔ f.Lists h v ∨ h = d ∧ v = u := by
  unfold Lists
  rw [hlink]
  cases hs : f.symbol? h with
  | none =>
      have hne : h ≠ d := fun heq => by
        rw [heq, ← Option.not_isSome_iff_eq_none] at hs
        exact hs hd
      simp [hne]
  | some s =>
      simp only [Option.map_some, Option.some.injEq, exists_eq_left', Symbol.references_linkedAt]
      split
      · rename_i heq
        rw [mem_appendNew]
        simp [heq]
      · rename_i hne
        simp [hne]

/-- Links stay paired when a use that has no declaration is linked. -/
theorem Paired.link (h : f.Paired) (hu : (f.symbol? u).isSome = true)
    (hnone : f.declaration? u = none) (hd : (f.symbol? d).isSome = true) : f'.Paired := by
  refine ⟨fun v e hv => ?_, fun e v hlists => ?_, fun e v hlists hfile => ?_⟩
  · rw [declaration?_link hlink hu] at hv
    rw [lists_link_iff hlink hd]
    split at hv
    · rename_i heq
      exact .inr ⟨(Option.some.inj hv).symm, heq⟩
    · exact .inl (h.listed v e hv)
  · rw [isSome_symbol?_link hlink]
    rcases (lists_link_iff hlink hd e v).1 hlists with hlists | ⟨-, rfl⟩
    · exact h.found e v hlists
    · exact hu
  · rw [declaration?_link hlink hu]
    rcases (lists_link_iff hlink hd e v).1 hlists with hlists | ⟨rfl, rfl⟩
    · have hv := h.linked e v hlists hfile
      rw [if_neg (fun heq => by rw [heq, hnone] at hv; cases hv)]
      exact hv
    · rw [if_pos rfl]

/-- A use that is linked first and listed then is listed where it is linked to. -/
theorem Exact.link (h : f.Exact) (hu : (f.symbol? u).isSome = true)
    (hnone : f.declaration? u = none) (hd : (f.symbol? d).isSome = true) : f'.Exact := by
  intro v e
  rw [lists_link_iff hlink hd, declaration?_link hlink hu, h v e]
  constructor
  · rintro (hv | ⟨rfl, rfl⟩)
    · rw [if_neg (fun heq => by rw [heq, hnone] at hv; cases hv)]
      exact hv
    · rw [if_pos rfl]
  · intro hv
    split at hv
    · rename_i heq
      exact .inr ⟨(Option.some.inj hv).symm, heq⟩
    · exact .inl hv

end Link

end Forest

end SolidityAtlas

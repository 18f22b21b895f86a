import SolidityAtlas.Proofs.Symbol.Grown
import SolidityAtlas.Proofs.Workspace.Agreement
import SolidityAtlas.Proofs.Workspace.LinkGraph

/-!
# Sound snapshots

A snapshot is *sound* if its trees are tidy and its links are paired. This file says
what the changes of a snapshot that links and unlinks do to the symbols behind
handles, and that each of them keeps a snapshot sound:

* one more link (`Sound.addLink`),
* the links of a file taken back (`Sound.unlinkIn`),
* another tree for a file that no link leads into or out of (`Sound.swap`).

Only the last of these needs a premise about other files, and the workspace provides
it by taking back links before it makes new ones.

## Main Definitions

* `Snapshot.Sound`
* `Snapshot.LinksInto`: a file has a use that is linked into another file
-/

namespace SolidityAtlas

namespace SymbolTree

variable {t t' : SymbolTree}

/-- Trees with symbols at the same places have the same number of nodes. -/
theorem size_eq_of_symbol? {f : NodeId → Symbol → Symbol}
    (hsymbol : ∀ id, t'.symbol? id = (t.symbol? id).map (f id)) : t'.size = t.size := by
  have hlt : ∀ id, id < t'.size ↔ id < t.size := by
    intro id
    constructor
    · intro hid
      obtain ⟨s, hs⟩ := exists_symbol?_of_lt hid
      rw [hsymbol] at hs
      obtain ⟨x, hx, -⟩ := Option.map_eq_some_iff.1 hs
      exact lt_size_of_symbol? hx
    · intro hid
      obtain ⟨s, hs⟩ := exists_symbol?_of_lt hid
      exact lt_size_of_symbol? (s := f id s) (by rw [hsymbol, hs]; rfl)
  have h₁ := hlt t.size
  have h₂ := hlt t'.size
  omega

/-- One tree is another one with its symbols changed. -/
structure Changed (f : NodeId → Symbol → Symbol) (t t' : SymbolTree) : Prop where
  file : t'.file = t.file
  generation : t'.generation = t.generation
  symbol : ∀ id, t'.symbol? id = (t.symbol? id).map (f id)

/-- A handle leads to the node that is changed. -/
theorem Changed.lookup? {f : NodeId → Symbol → Symbol} (h : Changed f t t') (a : Handle) :
    t'.lookup? a = (t.lookup? a).map (f a.node) :=
  lookup?_of_symbol? h.symbol h.file h.generation (size_eq_of_symbol? h.symbol) a

theorem Changed.refl (t : SymbolTree) : Changed (fun _ s => s) t t :=
  ⟨rfl, rfl, fun _ => by rw [Option.map_id']⟩

end SymbolTree

namespace Snapshot

variable {s s' : Snapshot}

/-- A file has a use that is linked into another file. -/
def LinksInto (s : Snapshot) (source target : FileId) : Prop :=
  ∃ t, s.tree? source = some t ∧ t.LinksTo target

/-- Trees are tidy and links are paired. -/
structure Sound (s : Snapshot) : Prop where
  home : ∀ file t, s.tree? file = some t → t.file = file
  tidy : ∀ file t, s.tree? file = some t → t.Tidy
  paired : s.forest.Paired

/-! ## Symbols behind handles -/

/-- The tree of its file decides where a handle leads. -/
theorem symbol?_eq_of_tree? {a : Handle} {t : SymbolTree} (ht : s.tree? a.file = some t) :
    s.symbol? a = t.lookup? a := by
  rw [symbol?, ht, Option.bind_some]

/-- A good handle names a node of an installed tree. -/
theorem exists_tree?_of_symbol? {a : Handle} {x : Symbol} (hx : s.symbol? a = some x) :
    ∃ t id, s.tree? a.file = some t ∧ t.symbol? id = some x ∧ a = t.handle id := by
  obtain ⟨t, ht, hlookup⟩ := Option.bind_eq_some_iff.1 hx
  obtain ⟨id, -, heq⟩ := SymbolTree.isSome_lookup?_iff.1 (by rw [hlookup]; rfl : Option.isSome _ = true)
  rw [heq, SymbolTree.lookup?_handle] at hlookup
  exact ⟨t, id, ht, hlookup, heq⟩

/-- A handle of a node of an installed tree leads to it. -/
theorem Sound.symbol?_handle (h : s.Sound) {file : FileId} {t : SymbolTree}
    (ht : s.tree? file = some t) (id : NodeId) : s.symbol? (t.handle id) = t.symbol? id := by
  have hfile : s.tree? (t.handle id).file = some t := by
    rw [SymbolTree.handle, h.home file t ht, ht]
  rw [symbol?_eq_of_tree? hfile, SymbolTree.lookup?_handle]

/-- What happens to all trees happens to the symbols behind handles. -/
theorem symbol?_of_changed {k : FileId → NodeId → Symbol → Symbol}
    (htrees : ∀ file, Option.Rel (SymbolTree.Changed (k file)) (s.tree? file) (s'.tree? file))
    (a : Handle) : s'.symbol? a = (s.symbol? a).map (k a.file a.node) := by
  have htree := htrees a.file
  rw [symbol?, symbol?]
  cases ht : s.tree? a.file with
  | none =>
      rw [ht] at htree
      rw [htree.eq_none]
      rfl
  | some t =>
      obtain ⟨t', ht', hchanged⟩ := htree.exists_right ht
      rw [ht', Option.bind_some, Option.bind_some, hchanged.lookup?]

/-- Who links into whom, by handles. -/
theorem Sound.linksInto_iff (h : s.Sound) {source target : FileId} :
    s.LinksInto source target ↔
      target ≠ source ∧ ∃ u d, s.forest.declaration? u = some d ∧ u.file = source ∧
        d.file = target := by
  constructor
  · rintro ⟨t, ht, hne, id, x, d, hx, hd, hfile⟩
    refine ⟨by rw [← h.home source t ht]; exact hne, t.handle id, d, ?_, h.home source t ht, hfile⟩
    rw [Forest.declaration?, symbol?_forest, h.symbol?_handle ht, hx, Option.bind_some, hd]
  · rintro ⟨hne, u, d, hd, rfl, hfile⟩
    obtain ⟨x, hx, hd⟩ := Option.bind_eq_some_iff.1 hd
    obtain ⟨t, id, ht, hid, -⟩ := exists_tree?_of_symbol? hx
    exact ⟨t, ht, by rw [h.home _ t ht]; exact hne, id, x, d, hid, hd, hfile⟩

/-- Links between files are links between two of them. -/
theorem LinksInto.ne {source target : FileId} (hlinks : s.LinksInto source target)
    (hhome : ∀ file t, s.tree? file = some t → t.file = file) : target ≠ source := by
  obtain ⟨t, ht, hne, -⟩ := hlinks
  rwa [hhome source t ht] at hne

/-- A change in one tree is seen by the handles of that file only. -/
theorem symbol?_modifyTree {file : FileId} {f : SymbolTree → SymbolTree}
    {k : NodeId → Symbol → Symbol}
    (hf : ∀ t, s.tree? file = some t → SymbolTree.Changed k t (f t)) (a : Handle) :
    (s.modifyTree file f).symbol? a =
      (s.symbol? a).map fun x => if a.file = file then k a.node x else x := by
  refine symbol?_of_changed (k := fun other id x => if other = file then k id x else x)
    (fun other => ?_) a
  rw [tree?_modifyTree]
  by_cases hother : other = file
  · rw [if_pos hother, hother]
    cases ht : s.tree? file with
    | none => exact .none
    | some t => exact .some (by simpa using hf t ht)
  · rw [if_neg hother]
    cases s.tree? other with
    | none => exact .none
    | some t => exact .some (by simpa [hother] using SymbolTree.Changed.refl t)

/-- Changes add no node and take none away. -/
theorem isSome_symbol?_modifyTree {file : FileId} {f : SymbolTree → SymbolTree}
    {k : NodeId → Symbol → Symbol}
    (hf : ∀ t, s.tree? file = some t → SymbolTree.Changed k t (f t)) (a : Handle) :
    ((s.modifyTree file f).symbol? a).isSome = (s.symbol? a).isSome := by
  rw [symbol?_modifyTree hf, Option.isSome_map]

/-! ## One more link -/

theorem changed_linkExternal (t : SymbolTree) (u : NodeId) (d : Handle) :
    SymbolTree.Changed (fun id x => if id = u then x.linkTo d else x) t (t.linkExternal u d) :=
  ⟨rfl, rfl, t.symbol?_linkExternal u d⟩

theorem changed_addReference (t : SymbolTree) (d : NodeId) (u : Handle) :
    SymbolTree.Changed (fun id x => if id = d then x.addReference u else x) t
      (t.addReference d u) :=
  ⟨rfl, rfl, t.symbol?_addReference d u⟩

/-- Both ends of a link that is found exist, so both are noted. -/
theorem addLink_eq {file : FileId} {t : SymbolTree} {u : NodeId} {d : Handle}
    (ht : s.tree? file = some t) (hd : (s.symbol? d).isSome = true) :
    s.addLink file (u, d) = (s.modifyTree file (·.linkExternal u d)).modifyTree d.file
      (·.addReference d.node (t.handle u)) := by
  rw [addLink, ht]
  refine if_pos ?_
  rw [isSome_symbol?_modifyTree fun t _ => changed_linkExternal t u d]
  exact hd

/-- A link changes the tree of its use and that of its declaration. -/
theorem tree?_addLink {file : FileId} {t : SymbolTree} {u : NodeId} {d : Handle}
    (ht : s.tree? file = some t) (hd : (s.symbol? d).isSome = true) (other : FileId) :
    (s.addLink file (u, d)).tree? other = (s.tree? other).map fun v =>
      let v := if other = file then v.linkExternal u d else v
      if other = d.file then v.addReference d.node (t.handle u) else v := by
  rw [addLink_eq ht hd, tree?_modifyTree, tree?_modifyTree, tree?_modifyTree]
  by_cases hd : other = d.file <;> by_cases hfile : other = file
  · subst hd
    subst hfile
    simp [Function.comp_def]
  · subst hd
    simp [hfile]
  · subst hfile
    simp [hd]
  · simp [hd, hfile]

namespace Sound

variable (h : s.Sound) {file : FileId} {t : SymbolTree} (ht : s.tree? file = some t)

include h

/-- A good handle stands for a node of the file exactly if it is the handle that the tree of the
file gives that node. -/
theorem eq_handle_iff {a : Handle} (ha : (s.symbol? a).isSome = true) {id : NodeId}
    (ht : s.tree? file = some t) : a = t.handle id ↔ a.file = file ∧ a.node = id := by
  constructor
  · rintro rfl
    exact ⟨h.home file t ht, rfl⟩
  · rintro ⟨hfile, rfl⟩
    obtain ⟨x, hx⟩ := Option.isSome_iff_exists.1 ha
    obtain ⟨v, id, hv, -, heq⟩ := exists_tree?_of_symbol? hx
    rw [hfile, ht] at hv
    cases hv
    rw [heq]
    rfl

include ht

/-- A link is seen at its two ends only. -/
theorem symbol?_addLink {u : NodeId} {d : Handle} (hd : (s.symbol? d).isSome = true) (a : Handle) :
    (s.addLink file (u, d)).symbol? a =
      (s.symbol? a).map (Symbol.linkedAt (t.handle u) d a) := by
  rw [addLink_eq ht hd, symbol?_modifyTree fun v _ => changed_addReference v d.node (t.handle u),
    symbol?_modifyTree fun v _ => changed_linkExternal v u d, Option.map_map]
  cases hx : s.symbol? a with
  | none => rfl
  | some x =>
      have ha : (s.symbol? a).isSome = true := by rw [hx]; rfl
      have hu : a = t.handle u ↔ a.file = file ∧ a.node = u := h.eq_handle_iff ha ht
      have had : a = d ↔ a.file = d.file ∧ a.node = d.node :=
        ⟨fun heq => heq ▸ ⟨rfl, rfl⟩, fun heq =>
          Forest.eq_of_isSome_symbol? (f := s.forest) ha hd heq.1 heq.2⟩
      simp only [Option.map_some, Function.comp_apply, Symbol.linkedAt, hu, had, ite_and]

theorem forest_addLink {u : NodeId} {d : Handle} (hd : (s.symbol? d).isSome = true) (a : Handle) :
    (s.addLink file (u, d)).forest.symbol? a =
      (s.forest.symbol? a).map (Symbol.linkedAt (t.handle u) d a) :=
  h.symbol?_addLink ht hd a

/-- A pending use is a node without a declaration. -/
theorem declaration?_of_pending {u : NodeId} (hu : u ∈ t.pending) :
    (s.forest.symbol? (t.handle u)).isSome = true ∧ s.forest.declaration? (t.handle u) = none := by
  obtain ⟨x, hx, hnone⟩ := (h.tidy file t ht).pending u hu
  rw [Forest.declaration?, symbol?_forest, h.symbol?_handle ht, hx]
  exact ⟨rfl, hnone⟩

/-- A pending use is linked. -/
theorem addLink {u : NodeId} {d : Handle} (hu : u ∈ t.pending) (hd : (s.symbol? d).isSome = true) :
    (s.addLink file (u, d)).Sound := by
  obtain ⟨husage, hnone⟩ := h.declaration?_of_pending ht hu
  refine ⟨fun other v' hv' => ?_, fun other v' hv' => ?_,
    h.paired.link (h.forest_addLink ht hd) husage hnone hd⟩
  · rw [tree?_addLink ht hd] at hv'
    obtain ⟨v, hv, rfl⟩ := Option.map_eq_some_iff.1 hv'
    have hfile := h.home other v hv
    simp only
    split <;> split <;> exact hfile
  · rw [tree?_addLink ht hd] at hv'
    obtain ⟨v, hv, rfl⟩ := Option.map_eq_some_iff.1 hv'
    have htidy : (if other = file then v.linkExternal u d else v).Tidy := by
      split
      · rename_i heq
        rw [heq, ht] at hv
        cases hv
        exact (h.tidy file t ht).linkExternal hu d
      · exact h.tidy other v hv
    simp only
    split
    · exact htidy.addReference _ _
    · exact htidy

end Sound

/-! ## Links taken back -/

theorem dropReferencesFrom_idem (t : SymbolTree) (file : FileId) :
    (t.dropReferencesFrom file).dropReferencesFrom file = t.dropReferencesFrom file := by
  have hsymbol : Symbol.dropReferencesFrom file ∘ Symbol.dropReferencesFrom file =
      Symbol.dropReferencesFrom file := by
    funext x
    simp [Symbol.dropReferencesFrom]
  simp only [SymbolTree.dropReferencesFrom, Array.map_map, hsymbol]

variable {g : LinkGraph} {file : FileId}

/-- Taking back the links of a file changes its own tree and those it is linked into. -/
theorem tree?_unlinkIn (g : LinkGraph) (file : FileId) (s : Snapshot) (other : FileId) :
    (g.unlinkIn file s).tree? other = (s.tree? other).map fun t =>
      let t := if other = file then t.unlinkExternal else t
      if other ∈ g.targets file then t.dropReferencesFrom file else t := by
  have hfold : ∀ (targets : List FileId) (s : Snapshot),
      (targets.foldl (fun s target => s.modifyTree target (·.dropReferencesFrom file)) s).tree? other =
        (s.tree? other).map fun t => if other ∈ targets then t.dropReferencesFrom file else t := by
    intro targets
    induction targets with
    | nil => simp
    | cons first targets ih =>
        intro s
        rw [List.foldl_cons, ih, tree?_modifyTree]
        by_cases heq : other = first
        · subst heq
          cases s.tree? other with
          | none => simp
          | some t => simp [dropReferencesFrom_idem]
        · simp [heq]
  rw [LinkGraph.unlinkIn, hfold, tree?_modifyTree]
  by_cases heq : other = file
  · subst heq
    simp [Option.map_map, Function.comp_def]
  · simp [heq]

/-- The uses of a file that are linked from outside. -/
def externalUses (s : Snapshot) (file : FileId) : List NodeId :=
  ((s.tree? file).map SymbolTree.external).getD []

/-- The external uses of an installed file are those of its tree. -/
theorem externalUses_of_tree? {t : SymbolTree} (ht : s.tree? file = some t) :
    s.externalUses file = t.external := by
  rw [externalUses, ht]
  rfl

/-- What taking back the links of a file does to the symbols behind handles. -/
theorem symbol?_unlinkIn (a : Handle) :
    (g.unlinkIn file s).symbol? a = (s.symbol? a).map fun x =>
      let x := if a.file = file ∧ a.node ∈ s.externalUses file then x.unlink else x
      if a.file ∈ g.targets file then x.dropReferencesFrom file else x := by
  refine symbol?_of_changed (k := fun other id x =>
    let x := if other = file ∧ id ∈ s.externalUses file then x.unlink else x
    if other ∈ g.targets file then x.dropReferencesFrom file else x) (fun other => ?_) a
  rw [tree?_unlinkIn]
  cases ht : s.tree? other with
  | none => exact .none
  | some t =>
      have hunlink : SymbolTree.Changed
          (fun id x => if other = file ∧ id ∈ s.externalUses file then x.unlink else x) t
          (if other = file then t.unlinkExternal else t) := by
        by_cases heq : other = file
        · rw [heq] at ht
          simp only [heq, true_and, if_true, externalUses_of_tree? ht]
          exact ⟨rfl, rfl, t.symbol?_unlinkExternal⟩
        · simp only [heq, false_and, if_false]
          exact SymbolTree.Changed.refl t
      refine .some ?_
      simp only
      split
      · refine ⟨hunlink.file, hunlink.generation, fun id => ?_⟩
        rw [SymbolTree.symbol?_dropReferencesFrom, hunlink.symbol, Option.map_map]
        rfl
      · exact hunlink

theorem isSome_symbol?_unlinkIn (a : Handle) :
    ((g.unlinkIn file s).symbol? a).isSome = (s.symbol? a).isSome := by
  rw [symbol?_unlinkIn, Option.isSome_map]

/-- Taking back the links of a file takes the declarations of its external uses. -/
theorem declaration?_unlinkIn (u : Handle) :
    (g.unlinkIn file s).forest.declaration? u =
      if u.file = file ∧ u.node ∈ s.externalUses file then none else s.forest.declaration? u := by
  rw [Forest.declaration?, Forest.declaration?, symbol?_forest, symbol?_forest, symbol?_unlinkIn]
  cases s.symbol? u with
  | none => simp
  | some x =>
      simp only [Option.map_some, Option.bind_some]
      by_cases hu : u.file = file ∧ u.node ∈ s.externalUses file
      · rw [if_pos hu, if_pos hu]
        split <;> exact Symbol.declaration_unlink x
      · rw [if_neg hu, if_neg hu]
        split <;> rfl

theorem declaration?_unlinkIn_of_ne {u : Handle} (hu : u.file ≠ file) :
    (g.unlinkIn file s).forest.declaration? u = s.forest.declaration? u := by
  rw [declaration?_unlinkIn, if_neg fun hand => hu hand.1]

/-- Taking back the links of a file takes its back links in the files it is noted to link into. -/
theorem lists_unlinkIn_iff (d u : Handle) :
    (g.unlinkIn file s).forest.Lists d u ↔
      s.forest.Lists d u ∧ ¬ (d.file ∈ g.targets file ∧ u.file = file) := by
  unfold Forest.Lists
  rw [symbol?_forest, symbol?_forest, symbol?_unlinkIn]
  cases s.symbol? d with
  | none => simp
  | some x =>
      have hreferences : (if d.file = file ∧ d.node ∈ s.externalUses file then x.unlink
          else x).references = x.references := by
        split
        · exact Symbol.references_unlink x
        · rfl
      simp only [Option.map_some, Option.some.injEq, exists_eq_left']
      split
      · rename_i htarget
        simp [Symbol.dropReferencesFrom, hreferences, htarget]
      · rename_i htarget
        simp [hreferences, htarget]

namespace Sound

variable (h : s.Sound) (htargets : ∀ target, target ∈ g.targets file ↔ s.LinksInto file target)

include h

/-- Taking back the links of a file takes nothing else back. -/
theorem declaration?_of_unlinkIn {u d : Handle}
    (hd : (g.unlinkIn file s).forest.declaration? u = some d) :
    s.forest.declaration? u = some d ∧ (u.file = file → d.file = file) := by
  rw [declaration?_unlinkIn] at hd
  split at hd
  · cases hd
  · rename_i hnot
    refine ⟨hd, fun hfile => Decidable.byContradiction fun hne => hnot ⟨hfile, ?_⟩⟩
    obtain ⟨x, hx, hxd⟩ := Option.bind_eq_some_iff.1 hd
    obtain ⟨t, id, ht, hid, heq⟩ := exists_tree?_of_symbol? hx
    have hnode : u.node = id := by rw [heq]; rfl
    have htfile := h.home _ t ht
    rw [hfile] at ht htfile
    rw [externalUses_of_tree? ht, hnode]
    exact (h.tidy _ t ht).outside id x d hid hxd fun heqfile => hne (heqfile.trans htfile)

include htargets

/-- Taking back the links of a file leaves a snapshot sound. -/
theorem unlinkIn : (g.unlinkIn file s).Sound := by
  have hnot : file ∉ g.targets file := fun hmem => ((htargets file).1 hmem).ne h.home rfl
  refine ⟨fun other v hv => ?_, fun other v hv => ?_, ⟨fun u d hd => ?_, fun d u hlists => ?_,
    fun d u hlists hfile => ?_⟩⟩
  · rw [tree?_unlinkIn] at hv
    obtain ⟨t, ht, rfl⟩ := Option.map_eq_some_iff.1 hv
    have hfile := h.home other t ht
    simp only
    split <;> split <;> exact hfile
  · rw [tree?_unlinkIn] at hv
    obtain ⟨t, ht, rfl⟩ := Option.map_eq_some_iff.1 hv
    have htidy : (if other = file then t.unlinkExternal else t).Tidy := by
      split
      · exact (h.tidy other t ht).unlinkExternal
      · exact h.tidy other t ht
    simp only
    split
    · exact htidy.dropReferencesFrom file
    · exact htidy
  · obtain ⟨hold, hown⟩ := h.declaration?_of_unlinkIn hd
    refine (lists_unlinkIn_iff d u).2 ⟨h.paired.listed u d hold, fun hand => ?_⟩
    rw [hown hand.2] at hand
    exact hnot hand.1
  · rw [symbol?_forest, isSome_symbol?_unlinkIn]
    exact h.paired.found d u ((lists_unlinkIn_iff d u).1 hlists).1
  · obtain ⟨hlists, hkept⟩ := (lists_unlinkIn_iff d u).1 hlists
    have hlinked := h.paired.linked d u hlists hfile
    have hne : u.file ≠ file := fun heq => hkept ⟨(htargets d.file).2
      (h.linksInto_iff.2 ⟨heq ▸ fun heq => hfile heq.symm, u, d, hlinked, heq, rfl⟩), heq⟩
    rw [declaration?_unlinkIn_of_ne hne, hlinked]

/-- A file whose links are taken back links into no other; the others do as before. -/
theorem linksInto_unlinkIn_iff (source target : FileId) :
    (g.unlinkIn file s).LinksInto source target ↔ source ≠ file ∧ s.LinksInto source target := by
  rw [(h.unlinkIn htargets).linksInto_iff, h.linksInto_iff]
  constructor
  · rintro ⟨hne, u, d, hd, rfl, hfile⟩
    obtain ⟨hold, hown⟩ := h.declaration?_of_unlinkIn hd
    exact ⟨fun heq => hne (by rw [← hfile, hown heq, heq]), hne, u, d, hold, rfl, hfile⟩
  · rintro ⟨hsource, hne, u, d, hd, rfl, hfile⟩
    exact ⟨hne, u, d, by rw [declaration?_unlinkIn_of_ne hsource, hd], rfl, hfile⟩

end Sound

/-! ## Another tree for a file -/

end Snapshot

namespace SymbolTree

variable {t : SymbolTree} {rest : NodeId → Prop}

/-- A tree by itself lists its own uses only. -/
theorem Grown.eq_handle_of_lists (h : t.Grown rest) {d u : Handle} (hlists : t.alone.Lists d u) :
    ∃ i j, d = t.handle i ∧ u = t.handle j := by
  obtain ⟨i, -, hi⟩ := isSome_symbol?_alone.1 (Forest.isSome_of_lists hlists)
  obtain ⟨j, -, hj⟩ := isSome_symbol?_alone.1
    (Forest.isSome_of_declaration? ((h.exact u d).1 hlists))
  exact ⟨i, j, hi, hj⟩

/-- A tree that has grown links into no other file. -/
theorem Grown.not_linksTo (h : t.Grown rest) (file : FileId) : ¬ t.LinksTo file := by
  rintro ⟨hne, id, s, d, hs, hd, rfl⟩
  have hlinked : t.alone.declaration? (t.handle id) = some d := by
    rw [Forest.declaration?, symbol?_alone, lookup?_handle, hs, Option.bind_some, hd]
  obtain ⟨i, j, hi, -⟩ := h.eq_handle_of_lists ((h.exact _ _).2 hlinked)
  exact hne (by rw [hi]; rfl)

/-- Before a tree is linked to others there is nothing in it to be taken back. -/
theorem Grown.symbol?_unlinkExternal (h : t.Grown rest) (id : NodeId) :
    t.unlinkExternal.symbol? id = t.symbol? id := by
  rw [SymbolTree.symbol?_unlinkExternal, h.external]
  simp

/-- In a tree by itself there are no back links from another file. -/
theorem Grown.symbol?_dropReferencesFrom (h : t.Grown rest) {file : FileId} (hne : file ≠ t.file)
    (id : NodeId) : (t.dropReferencesFrom file).symbol? id = t.symbol? id := by
  rw [SymbolTree.symbol?_dropReferencesFrom]
  cases hs : t.symbol? id with
  | none => rfl
  | some s =>
      have hown : ∀ u ∈ s.references, u.file ≠ file := by
        intro u hu heq
        obtain ⟨i, j, -, hj⟩ := h.eq_handle_of_lists (d := t.handle id)
          ⟨s, by rw [symbol?_alone, lookup?_handle, hs], hu⟩
        rw [hj] at heq
        exact hne heq.symm
      have hreferences : s.references.filter (·.file != file) = s.references :=
        List.filter_eq_self.2 fun u hu => bne_iff_ne.2 (hown u hu)
      rw [Option.map_some, Symbol.dropReferencesFrom, hreferences]

/-- What holds of a tree that has grown holds of every tree with the same symbols, the same uses
pending, and nothing external. -/
theorem Grown.of_symbol? (h : t.Grown rest) {t' : SymbolTree} (htidy : t'.Tidy)
    (hexternal : t'.external = []) (hfile : t'.file = t.file)
    (hgeneration : t'.generation = t.generation)
    (hsymbol : ∀ id, t'.symbol? id = t.symbol? id) : t'.Grown fun _ => False := by
  refine ⟨htidy, h.exact.of_symbol? (k := fun _ s => s) (fun a => ?_) (fun _ _ => rfl)
    fun _ _ => rfl, hexternal, fun _ hid => hid.elim⟩
  have hchanged : Changed (fun _ s => s) t t' :=
    ⟨hfile, hgeneration, fun id => by rw [hsymbol, Option.map_id']⟩
  rw [symbol?_alone, symbol?_alone, hchanged.lookup?]

/-- A tree that has grown is still one when its external links are taken back. -/
theorem Grown.unlinkExternal (h : t.Grown rest) : t.unlinkExternal.Grown fun _ => False :=
  h.of_symbol? h.tidy.unlinkExternal rfl rfl rfl h.symbol?_unlinkExternal

/-- A tree that has grown is still one when back links from another file are dropped. -/
theorem Grown.dropReferencesFrom (h : t.Grown rest) {file : FileId} (hne : file ≠ t.file) :
    (t.dropReferencesFrom file).Grown fun _ => False :=
  h.of_symbol? (h.tidy.dropReferencesFrom file) h.external rfl rfl
    (h.symbol?_dropReferencesFrom hne)

end SymbolTree

namespace Snapshot

namespace Sound

variable {s s' : Snapshot} (h : s.Sound) {file : FileId}
variable (hothers : ∀ other, other ≠ file → s'.tree? other = s.tree? other)
variable (hnew : ∀ t, s'.tree? file = some t → t.Grown (fun _ => False) ∧ t.file = file)

theorem symbol?_of_tree?_eq {a : Handle} (ha : s'.tree? a.file = s.tree? a.file) :
    s'.symbol? a = s.symbol? a := by
  rw [symbol?, symbol?, ha]

/-- Handles into a new tree lead to its own nodes. -/
theorem symbol?_new {a : Handle} {t : SymbolTree} (ht : s'.tree? file = some t)
    (ha : a.file = file) : s'.forest.symbol? a = t.alone.symbol? a := by
  rw [symbol?_forest, SymbolTree.symbol?_alone, symbol?_eq_of_tree? (by rw [ha, ht])]

include h hothers hnew

/-- A file that no link leads into or out of can get another tree. -/
theorem swap (hin : ∀ source, ¬ s.LinksInto source file)
    (hout : ∀ target, ¬ s.LinksInto file target) : s'.Sound := by
  have hsame : ∀ {a : Handle}, a.file ≠ file → s'.forest.symbol? a = s.forest.symbol? a :=
    fun ha => symbol?_of_tree?_eq (hothers _ ha)
  have hdeclaration : ∀ {u : Handle}, u.file ≠ file →
      s'.forest.declaration? u = s.forest.declaration? u := fun hu => by
    rw [Forest.declaration?, Forest.declaration?, hsame hu]
  have hlists : ∀ {d u : Handle}, d.file ≠ file → (s'.forest.Lists d u ↔ s.forest.Lists d u) :=
    fun hd => by rw [Forest.Lists, Forest.Lists, hsame hd]
  -- Links of the file itself are those of its tree alone.
  have halone : ∀ {a : Handle}, a.file = file → (s'.forest.symbol? a).isSome = true →
      ∃ t, s'.tree? file = some t := by
    intro a ha hsome
    obtain ⟨x, hx⟩ := Option.isSome_iff_exists.1 hsome
    obtain ⟨t, id, ht, -⟩ := exists_tree?_of_symbol? hx
    exact ⟨t, by rw [← ha, ht]⟩
  refine ⟨fun other t ht => ?_, fun other t ht => ?_, ⟨fun u d hd => ?_, fun d u hd => ?_,
    fun d u hd hfile => ?_⟩⟩
  · by_cases heq : other = file
    · rw [heq] at ht ⊢
      exact (hnew t ht).2
    · exact h.home other t (hothers other heq ▸ ht)
  · by_cases heq : other = file
    · rw [heq] at ht
      exact (hnew t ht).1.tidy
    · exact h.tidy other t (hothers other heq ▸ ht)
  · by_cases hu : u.file = file
    · obtain ⟨t, ht⟩ := halone hu (Forest.isSome_of_declaration? hd)
      have hlinked : t.alone.declaration? u = some d := by
        rw [Forest.declaration?, ← symbol?_new ht hu]
        exact hd
      have hlisted := ((hnew t ht).1.exact u d).2 hlinked
      obtain ⟨i, -, hi, -⟩ := (hnew t ht).1.eq_handle_of_lists hlisted
      have hdfile : d.file = file := by rw [hi, ← (hnew t ht).2]; rfl
      rw [Forest.Lists, symbol?_new ht hdfile]
      exact hlisted
    · rw [hdeclaration hu] at hd
      have hdfile : d.file ≠ file := fun heq =>
        hin u.file (h.linksInto_iff.2 ⟨fun hfile => hu hfile.symm, u, d, hd, rfl, heq⟩)
      exact (hlists hdfile).2 (h.paired.listed u d hd)
  · by_cases hdfile : d.file = file
    · obtain ⟨t, ht⟩ := halone hdfile (Forest.isSome_of_lists hd)
      rw [Forest.Lists, symbol?_new ht hdfile] at hd
      obtain ⟨-, j, -, hj⟩ := (hnew t ht).1.eq_handle_of_lists hd
      have hu : u.file = file := by rw [hj, ← (hnew t ht).2]; rfl
      rw [symbol?_new ht hu]
      exact Forest.isSome_of_declaration? (((hnew t ht).1.exact u d).1 hd)
    · rw [hlists hdfile] at hd
      by_cases hu : u.file = file
      · have hlinked := h.paired.linked d u hd fun heq => hdfile (heq ▸ hu)
        exact absurd (h.linksInto_iff.2 ⟨hdfile, u, d, hlinked, hu, rfl⟩) (hout d.file)
      · rw [hsame hu]
        exact h.paired.found d u hd
  · by_cases hdfile : d.file = file
    · obtain ⟨t, ht⟩ := halone hdfile (Forest.isSome_of_lists hd)
      rw [Forest.Lists, symbol?_new ht hdfile] at hd
      obtain ⟨i, j, hi, hj⟩ := (hnew t ht).1.eq_handle_of_lists hd
      exact absurd (by rw [hi, hj]; rfl) hfile
    · rw [hlists hdfile] at hd
      have hlinked := h.paired.linked d u hd hfile
      have hu : u.file ≠ file := fun heq =>
        hout d.file (h.linksInto_iff.2 ⟨hdfile, u, d, hlinked, heq, rfl⟩)
      rw [hdeclaration hu, hlinked]

omit h in
/-- A file with a new tree links into no other yet. -/
theorem linksInto_swap_iff (hout : ∀ target, ¬ s.LinksInto file target) (source target : FileId) :
    s'.LinksInto source target ↔ s.LinksInto source target := by
  by_cases heq : source = file
  · subst heq
    refine iff_of_false ?_ (hout target)
    rintro ⟨t, ht, hlinks⟩
    exact (hnew t ht).1.not_linksTo target hlinks
  · rw [LinksInto, LinksInto, hothers source heq]

end Sound

end Snapshot

end SolidityAtlas

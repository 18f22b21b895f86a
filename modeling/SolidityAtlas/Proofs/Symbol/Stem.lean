import SolidityAtlas.Proofs.Symbol.Agreement
import SolidityAtlas.Symbol.Growth

/-!
# Stems

The *stem* of a symbol is what it has from the start: the bare symbol without its
children. While a tree grows, children are attached and links are made, but stems stay as
they were planted. What a node is, where it stands and what a use can be meant by are
decided by stems alone, so all stages of a tree agree on that.

The nodes around a node form a chain, and so two nodes around the same node stand around
each other.

## Main Definitions

* `Symbol.stem`, `SymbolTree.stems`
* `SymbolTree.SettledBefore`: a node comes before another one when a node is dealt with
  behind what it holds

## Main Results

* `SymbolTree.eq_or_mem_ancestors`: two nodes around one node stand around each other
-/

namespace SolidityAtlas

namespace Symbol

/-- The symbol without its links and children. -/
def stem (s : Symbol) : Symbol :=
  { s.bare with children := [] }

variable {s v a b : Symbol}

/-- What does not look at links and children is decided by the stem. -/
theorem congr_stem {α : Type} {f : Symbol → α} (hf : ∀ s : Symbol, f s.stem = f s)
    (h : s.stem = v.stem) : f s = f v := by
  rw [← hf s, h, hf v]

/-- The kind of a node belongs to its stem. -/
theorem stem_kind (h : s.stem = v.stem) : s.kind = v.kind :=
  congr_stem (fun _ => rfl) h

theorem stem_isUsage (h : s.stem = v.stem) : s.isUsage = v.isUsage :=
  congr_stem (fun _ => rfl) h

theorem stem_isDeclaration (h : s.stem = v.stem) : s.isDeclaration = v.isDeclaration :=
  congr_stem (fun _ => rfl) h

theorem stem_isByName (h : s.stem = v.stem) : s.isByName = v.isByName :=
  congr_stem (fun _ => rfl) h

/-- Whether a declaration is what a use means belongs to their stems. -/
theorem stem_accepts (h : s.stem = v.stem) (hab : a.stem = b.stem) : s.accepts a = v.accepts b := by
  have hleft : s.accepts a = v.accepts a := congr_stem (f := (accepts · a)) (fun _ => rfl) h
  rw [hleft]
  exact congr_stem (f := v.accepts) (fun _ => rfl) hab

/-- A node that introduces its name refers to none. -/
theorem isUsage_eq_false_of_isDeclaration (h : s.isDeclaration = true) : s.isUsage = false := by
  obtain ⟨-, hdeclares⟩ := Bool.and_eq_true_iff.1 h
  refine Bool.eq_false_iff.2 fun husage => ?_
  obtain ⟨-, hrefers⟩ := Bool.and_eq_true_iff.1 husage
  simp only [kind] at hdeclares
  split at hrefers <;> simp_all [Detail.kind, NodeKind.declares]

/-- What can be meant by a use is a declaration. -/
theorem isDeclaration_of_accepts (h : s.accepts v = true) : s.isDeclaration = true := by
  simp only [accepts, acceptsKind, Bool.and_eq_true] at h
  exact h.2.1.1

/-- Declarations and uses do not pass on what stands inside them. -/
theorem isHolder_eq_false_of_isDeclaration (h : s.isDeclaration = true) : s.kind.isHolder = false := by
  obtain ⟨-, hdeclares⟩ := Bool.and_eq_true_iff.1 h
  revert hdeclares
  cases s.kind <;> simp [NodeKind.declares, NodeKind.isHolder]

/-- A use holds no members. -/
theorem isHolder_eq_false_of_isUsage (h : s.isUsage = true) : s.kind.isHolder = false := by
  obtain ⟨-, hrefers⟩ := Bool.and_eq_true_iff.1 h
  simp only [kind]
  split at hrefers <;> simp_all [Detail.kind, NodeKind.isHolder]

end Symbol

namespace SymbolTree

/-- The stems of the nodes of a tree. -/
def stems (t : SymbolTree) : Array Symbol :=
  t.nodes.map Symbol.stem

variable {t u : SymbolTree}

/-- The stems are read off the outline. -/
theorem stems_congr (h : t.outline = u.outline) : t.stems = u.stems := by
  have hnodes : t.nodes.map Symbol.bare = u.nodes.map Symbol.bare := congrArg SymbolTree.nodes h
  have hstems : ∀ t : SymbolTree, t.stems = (t.nodes.map Symbol.bare).map
      fun s => { s with children := [] } := by
    intro t
    rw [stems, Array.map_map]
    rfl
  rw [hstems, hstems, hnodes]

theorem symbol?_stems (h : t.stems = u.stems) (id : NodeId) :
    (t.symbol? id).map Symbol.stem = (u.symbol? id).map Symbol.stem := by
  have hget : ∀ t : SymbolTree, t.stems[id]? = (t.symbol? id).map Symbol.stem := by
    intro t
    simp [stems, symbol?]
  rw [← hget, h, hget]

/-- Trees with the same stems have the same nodes, up to children and links. -/
theorem exists_symbol?_stems (h : t.stems = u.stems) {id : NodeId} {s : Symbol}
    (hs : t.symbol? id = some s) : ∃ v, u.symbol? id = some v ∧ v.stem = s.stem := by
  have hstem := symbol?_stems h id
  rw [hs] at hstem
  exact Option.map_eq_some_iff.1 hstem.symm

/-- What stems decide about one node. -/
theorem map_symbol?_stems (h : t.stems = u.stems) (id : NodeId) {α : Type} {f : Symbol → α}
    (hf : ∀ s : Symbol, f s.stem = f s) : (t.symbol? id).map f = (u.symbol? id).map f := by
  have hstem : ∀ t : SymbolTree, ((t.symbol? id).map Symbol.stem).map f = (t.symbol? id).map f := by
    intro t
    rw [Option.map_map]
    exact congrArg (Option.map · (t.symbol? id)) (funext hf)
  rw [← hstem, symbol?_stems h, hstem]

/-- What belongs to the stem of a node is read off the stems. -/
theorem any_symbol?_stems (h : t.stems = u.stems) (id : NodeId) {p : Symbol → Bool}
    (hp : ∀ s : Symbol, p s.stem = p s) : (t.symbol? id).any p = (u.symbol? id).any p := by
  have hany : ∀ o : Option Symbol, o.any p = (o.map p).any fun b => b := by
    intro o
    cases o <;> rfl
  rw [hany, hany, map_symbol?_stems h id hp]

theorem size_stems (h : t.stems = u.stems) : t.size = u.size := by
  have hsize : ∀ t : SymbolTree, t.stems.size = t.size := by
    intro t
    simp [stems, size]
  rw [← hsize, h, hsize]

theorem kind?_stems (h : t.stems = u.stems) : t.kind? = u.kind? :=
  funext fun id => map_symbol?_stems h id fun _ => rfl

theorem parent?_stems (h : t.stems = u.stems) : t.parent? = u.parent? := by
  funext id
  have hparent := map_symbol?_stems h id (f := Symbol.parent) fun _ => rfl
  have hbind : ∀ o : Option Symbol, o.bind Symbol.parent = (o.map Symbol.parent).join := by
    intro o
    cases o <;> rfl
  rw [parent?, parent?, hbind, hparent, hbind]

/-- What stands around a node is read off the parents. -/
theorem ancestors_of_parent?_eq (h : t.parent? = u.parent?) : t.ancestors = u.ancestors := by
  funext id
  fun_induction ancestors t id with
  | case1 id p hp ih => rw [ancestors_of_parent u ((congrFun h id).symm.trans hp), ih]
  | case2 id hp => rw [ancestors_of_root u ((congrFun h id).symm.trans hp)]

theorem ancestors_stems (h : t.stems = u.stems) : t.ancestors = u.ancestors :=
  ancestors_of_parent?_eq (parent?_stems h)

theorem enclosingScope?_stems (h : t.stems = u.stems) : t.enclosingScope? = u.enclosingScope? := by
  funext id
  rw [enclosingScope?, enclosingScope?, ancestors_stems h, kind?_stems h]

theorem ancestorsInContract_stems (h : t.stems = u.stems) :
    t.ancestorsInContract = u.ancestorsInContract := by
  funext id
  simp only [ancestorsInContract, ancestors_stems h, kind?_stems h]

/-- Whether a use names a base is read off the stems. -/
theorem isBaseName_stems (h : t.stems = u.stems) : t.isBaseName = u.isBaseName := by
  funext usage
  rw [isBaseName, isBaseName, parent?_stems h, kind?_stems h]

/-! ## The nodes around a node -/

/-- Around a node stand its parent and what stands around that. -/
theorem mem_ancestors_iff {a b : NodeId} :
    a ∈ t.ancestors b ↔ ∃ p, t.parent? b = some p ∧ (a = p ∨ a ∈ t.ancestors p) := by
  cases hp : t.parent? b with
  | none => simp [ancestors_of_root t hp]
  | some p => simp [ancestors_of_parent t hp]

/-- What something stands around is a node. -/
theorem lt_size_of_mem_ancestors {a b : NodeId} (h : a ∈ t.ancestors b) : b < t.size := by
  obtain ⟨p, hp, -⟩ := mem_ancestors_iff.1 h
  obtain ⟨s, hs, -⟩ := Option.bind_eq_some_iff.1 (Option.filter_eq_some_iff.1 hp).1
  exact lt_size_of_symbol? hs

theorem mem_ancestors_of_parent {a b : NodeId} (h : t.parent? b = some a) : a ∈ t.ancestors b :=
  mem_ancestors_iff.2 ⟨a, h, .inl rfl⟩

/-- What stands around a node stands around everything inside it. -/
theorem mem_ancestors_trans {a b c : NodeId} (hab : a ∈ t.ancestors b) (hbc : b ∈ t.ancestors c) :
    a ∈ t.ancestors c := by
  induction c using Nat.strongRecOn with
  | ind c ih =>
      obtain ⟨p, hp, hb⟩ := mem_ancestors_iff.1 hbc
      refine mem_ancestors_iff.2 ⟨p, hp, .inr ?_⟩
      rcases hb with rfl | hb
      · exact hab
      · exact ih p (parent?_lt hp) hb

/-- Two nodes around one node stand around each other. -/
theorem eq_or_mem_ancestors {a b c : NodeId} (ha : a ∈ t.ancestors c) (hb : b ∈ t.ancestors c) :
    a = b ∨ a ∈ t.ancestors b ∨ b ∈ t.ancestors a := by
  induction c using Nat.strongRecOn with
  | ind c ih =>
      obtain ⟨p, hp, ha⟩ := mem_ancestors_iff.1 ha
      obtain ⟨q, hq, hb⟩ := mem_ancestors_iff.1 hb
      obtain rfl : p = q := Option.some.inj (hp.symm.trans hq)
      rcases ha with rfl | ha <;> rcases hb with rfl | hb
      · exact .inl rfl
      · exact .inr (.inr hb)
      · exact .inr (.inl ha)
      · exact ih p (parent?_lt hp) ha hb

/-- Going outwards ends at the contract, which is still counted. -/
theorem ancestorsInContract_of_parent {id q : NodeId} (hq : t.parent? id = some q) :
    t.ancestorsInContract id =
      if t.kind? q = some .contractDefinition then [q] else q :: t.ancestorsInContract q := by
  rw [ancestorsInContract, ancestors_of_parent t hq]
  by_cases hk : t.kind? q = some .contractDefinition
  · simp [hk]
  · simp [hk, ancestorsInContract]

theorem ancestorsInContract_of_root {id : NodeId} (h : t.parent? id = none) :
    t.ancestorsInContract id = [] := by
  rw [ancestorsInContract, ancestors_of_root t h]
  rfl

/-- What stands around a node up to the contract around it stands around the node, and in each contract
around it or is that contract. -/
theorem of_mem_ancestorsInContract {s id : NodeId} (hs : s ∈ t.ancestorsInContract id) :
    s ∈ t.ancestors id ∧ ∀ c ∈ t.ancestors id, t.kind? c = some .contractDefinition →
      s = c ∨ c ∈ t.ancestors s := by
  induction id using Nat.strongRecOn with
  | ind id ih =>
      cases hq : t.parent? id with
      | none =>
          rw [ancestorsInContract_of_root hq] at hs
          cases hs
      | some q =>
          rw [ancestorsInContract_of_parent hq] at hs
          by_cases heq : s = q
          · subst heq
            refine ⟨mem_ancestors_of_parent hq, fun c hc _ => ?_⟩
            rw [ancestors_of_parent t hq] at hc
            exact (List.mem_cons.1 hc).imp_left Eq.symm
          · split at hs
            · exact absurd (List.mem_singleton.1 hs) heq
            · rename_i hk
              obtain ⟨hmem, hinside⟩ := ih q (parent?_lt hq) ((List.mem_cons.1 hs).resolve_left heq)
              refine ⟨mem_ancestors_trans hmem (mem_ancestors_of_parent hq), fun c hc hkc => ?_⟩
              rw [ancestors_of_parent t hq] at hc
              rcases List.mem_cons.1 hc with rfl | hc
              · exact absurd hkc hk
              · exact hinside c hc hkc

/-- To be inside a node is to have it around. -/
theorem isInside_iff {id outer : NodeId} : t.isInside id outer = true ↔ outer ∈ t.ancestors id := by
  rw [isInside, List.contains_iff_mem]

/-! ## The order of settling -/

/-- A node comes before another one when each is dealt with behind what it holds, and what stands
side by side in the order of the text. -/
def SettledBefore (t : SymbolTree) (a b : NodeId) : Prop :=
  b ∈ t.ancestors a ∨ a < b ∧ a ∉ t.ancestors b

instance (t : SymbolTree) (a b : NodeId) : Decidable (t.SettledBefore a b) :=
  inferInstanceAs (Decidable (_ ∨ _))

/-- Of two nodes only one comes before the other. -/
theorem SettledBefore.not_settledBefore {a b : NodeId} (h : t.SettledBefore a b) :
    ¬ t.SettledBefore b a := by
  rintro (hba | ⟨hba, hnot⟩) <;> rcases h with hab | ⟨hab, hnot'⟩
  · exact Nat.lt_asymm (lt_of_mem_ancestors hba) (lt_of_mem_ancestors hab)
  · exact hnot' hba
  · exact hnot hab
  · exact Nat.lt_asymm hab hba

/-- A node around one that has been dealt with has been dealt with, unless it is, or stands around,
the node whose turn it is. -/
theorem SettledBefore.ancestor {x y id : NodeId} (h : t.SettledBefore y id)
    (hx : x ∈ t.ancestors y) (hne : x ≠ id) (hnot : x ∉ t.ancestors id) : t.SettledBefore x id := by
  rcases h with h | ⟨hlt, -⟩
  · rcases eq_or_mem_ancestors hx h with heq | hmem | hmem
    · exact absurd heq hne
    · exact absurd hmem hnot
    · exact .inl hmem
  · exact .inr ⟨Nat.lt_trans (lt_of_mem_ancestors hx) hlt, hnot⟩

end SymbolTree

end SolidityAtlas

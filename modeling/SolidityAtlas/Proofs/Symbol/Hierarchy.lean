import SolidityAtlas.Proofs.Symbol.ScopeSound

/-!
# When a hierarchy is known

What a use finds in the bases of a contract may change while a tree grows: names of bases
are linked, and contracts get members. It is final from the moment on when the *hierarchy*
of the contract is known: all that stands inside its contracts has been settled, and the
names of their bases lead to the same contracts as in the end.

In its own turn a contract knows less. The names of its own bases may have been found, but a
name of a base in another contract has been found only if the base stands before the contract
whose turn it is. What can be seen then is seen in the end as well, in the finished tree
without the other links.

## Main Definitions

* `SymbolTree.withBasesBefore`: what a contract sees of its hierarchy in its own turn
* `SymbolTree.HierarchyKnown`

## Main Results

* `SymbolTree.HierarchyKnown.inheritedNode?_eq`: a use finds what it finds in the tree of which the
  hierarchy is known
-/

namespace SolidityAtlas

namespace SymbolTree

variable {maxDepth : Nat} {p τ t : SymbolTree} {done rest : List NodeId} {c u : NodeId} {s x : Symbol}

/-! ## The bases before a contract -/

/-- The tree without the links by which contracts other than `c` name a base that does not stand
before `c`. -/
def withBasesBefore (t : SymbolTree) (c : NodeId) : SymbolTree :=
  { t with
    nodes := t.nodes.mapIdx fun u s =>
      if t.isBaseName u ∧ c ∉ t.ancestors u then
        { s with declaration := s.declaration.filter fun base => decide (base.node < c) }
      else s }

/-- Leaving out links does not change the shape. -/
theorem outline_withBasesBefore (t : SymbolTree) (c : NodeId) :
    (t.withBasesBefore c).outline = t.outline := by
  rw [outline, outline, SymbolTree.mk.injEq]
  refine ⟨rfl, rfl, ?_, rfl, rfl⟩
  apply Array.ext
  · simp [withBasesBefore]
  · intro u hu hu'
    simp only [withBasesBefore, Array.getElem_map, Array.getElem_mapIdx]
    split <;> rfl

/-- The names of bases that are still linked. -/
theorem found?_withBasesBefore (hbase : t.isBaseName u = true) {a : Handle} :
    (t.withBasesBefore c).found? u = some a ↔ t.found? u = some a ∧ (c ∈ t.ancestors u ∨ a.node < c) := by
  have hsymbol : (t.withBasesBefore c).symbol? u = (t.symbol? u).map fun s =>
      if c ∉ t.ancestors u then
        { s with declaration := s.declaration.filter fun base => decide (base.node < c) }
      else s := by
    rw [symbol?, symbol?, withBasesBefore, Array.getElem?_mapIdx]
    simp only [hbase, true_and]
  rw [found?, found?, hsymbol]
  cases t.symbol? u with
  | none =>
      constructor
      · intro h
        cases h
      · intro h
        cases h.1
  | some s =>
      rw [Option.map_some, Option.bind_some, Option.bind_some]
      split
      · rename_i hout
        rw [Option.filter_eq_some_iff, decide_eq_true_iff, or_iff_right hout]
      · rename_i hin
        rw [and_iff_left (.inl (not_not.1 hin))]

/-- The links that are left out make the tree grow when they are put back. -/
theorem grows_withBasesBefore (t : SymbolTree) (c : NodeId) : (t.withBasesBefore c).Grows t := by
  refine grows_of_outline (t.outline_withBasesBefore c).symm rfl fun u a ha => ?_
  by_cases hbase : t.isBaseName u = true
  · exact ((found?_withBasesBefore hbase).1 ha).1
  · have hsymbol : (t.withBasesBefore c).symbol? u = t.symbol? u := by
      rw [symbol?, symbol?, withBasesBefore, Array.getElem?_mapIdx]
      simp only [hbase, Bool.false_eq_true, false_and, if_false, Option.map_id']
    rwa [found?, hsymbol] at ha

/-! ## Known hierarchies -/

/-- At the tree `τ` the hierarchy is known that a contract has in the tree `t`: what stands inside its
contracts has been settled, and the names of their bases lead to the same contracts. -/
structure HierarchyKnown (maxDepth : Nat) (p : SymbolTree) (done : List NodeId) (τ t : SymbolTree)
    (c : NodeId) : Prop where
  inside : ∀ b, t.handle b ∈ t.alone.linearize maxDepth (t.handle c) →
    ∀ x, b ∈ p.ancestors x → x ∈ done
  known : ∀ b, t.handle b ∈ t.alone.linearize maxDepth (t.handle c) → ∀ specifier name a,
    specifier ∈ t.children b → t.kind? specifier = some .inheritanceSpecifier →
      t.firstChild? specifier = some name → t.alone.kind? a = some .contractDefinition →
        (τ.found? name = some a ↔ t.found? name = some a)

/-- What a linearization lists are nodes of the tree. -/
theorem exists_of_mem_linearize (hc : c < t.size) {b : Handle}
    (hb : b ∈ t.alone.linearize maxDepth (t.handle c)) : ∃ b' < t.size, b = t.handle b' := by
  rcases Forest.exists_of_mem_linearizeWithin hb with rfl | ⟨a, -, hbase⟩
  · exact ⟨c, hc, rfl⟩
  · obtain ⟨y, hy, -⟩ := Option.map_eq_some_iff.1 (Forest.kind?_of_mem_bases hbase)
    exact isSome_symbol?_alone.1 (by rw [hy]; rfl)

namespace HierarchyKnown

variable (h : HierarchyKnown maxDepth p done τ t c) (hc : c < t.size) (hτ : p.Stage done τ)
  (ht : p.Stage (done ++ rest) t) (hrest : ∀ x ∈ rest, x ∉ done)

include h hτ ht hrest

/-- A contract of a known hierarchy has its bases already. -/
theorem bases_eq {b : NodeId} (hb : t.handle b ∈ t.alone.linearize maxDepth (t.handle c)) :
    τ.alone.bases (t.handle b) = t.alone.bases (t.handle b) := by
  have hhandle : t.handle = τ.handle := ht.handle.trans hτ.handle.symm
  have hstems : τ.stems = t.stems := hτ.stems.trans ht.stems.symm
  have hchildren := hτ.children_eq ht hrest (h.inside b hb)
  have hbases := τ.bases_alone b
  rw [← hhandle] at hbases
  rw [hbases, bases_alone, hchildren]
  refine List.filterMap_congr fun specifier hspecifier => Option.ext fun a => ?_
  have hparent := (hτ.mem_children_iff.1 hspecifier).2
  have hfirst : τ.firstChild? specifier = t.firstChild? specifier := by
    rw [firstChild?, firstChild?, hτ.children_eq ht hrest fun x hx =>
      h.inside b hb x (mem_ancestors_trans (mem_ancestors_of_parent hparent) hx)]
  rw [← hchildren] at hspecifier
  rw [baseAt?_eq_some_iff, baseAt?_eq_some_iff, kind?_stems hstems, hfirst,
    kind?_alone_congr hhandle.symm hstems]
  refine and_congr_right fun hk => exists_congr fun name => and_congr_right fun hname =>
    and_congr_left fun hkind => ?_
  exact h.known b hb specifier name a hspecifier hk hname hkind

include hc

/-- A use finds in the bases of the contract what it finds there in the tree of which the hierarchy is
known. -/
theorem inheritedNode?_eq (hstem : s.stem = x.stem) :
    inheritedNode? maxDepth c τ s = inheritedNode? maxDepth c t x := by
  have hhandle : t.handle = τ.handle := ht.handle.trans hτ.handle.symm
  have hstems : τ.stems = t.stems := hτ.stems.trans ht.stems.symm
  have hlinearize : τ.alone.linearize maxDepth (t.handle c) =
      t.alone.linearize maxDepth (t.handle c) := by
    refine Forest.linearize_congr fun b hb => ?_
    obtain ⟨b', -, rfl⟩ := exists_of_mem_linearize hc hb
    exact h.bases_eq hτ ht hrest hb
  rw [inheritedNode?, inheritedNode?, Forest.inherited?, Forest.inherited?, ← hhandle, hlinearize]
  refine congrArg (Option.map Handle.node) (List.findSome?_congr_left fun b hb => ?_)
  have hb := List.mem_of_mem_tail hb
  obtain ⟨b', hb', rfl⟩ := exists_of_mem_linearize hc hb
  have hmembers : τ.alone.members (t.handle b') = t.alone.members (t.handle b') := by
    rw [members_alone t hb', hτ.members_eq ht hrest (h.inside b' hb), hhandle,
      members_alone τ (by rw [size_stems hstems]; exact hb')]
  rw [Forest.memberAccepting?, Forest.memberAccepting?, hmembers, members_alone t hb', List.find?_map,
    List.find?_map]
  refine congrArg (Option.map t.handle) (congrArg (List.find? · (t.members b')) (funext fun d => ?_))
  simp only [Function.comp_apply]
  rw [symbol?_alone, symbol?_alone, lookup?_handle, hhandle, lookup?_handle]
  have haccepts : (fun y : Symbol => y.accepts s) = fun y => y.accepts x := by
    funext y
    exact Symbol.stem_accepts rfl hstem
  rw [haccepts]
  exact any_symbol?_stems hstems d fun _ => rfl

end HierarchyKnown

end SymbolTree

end SolidityAtlas

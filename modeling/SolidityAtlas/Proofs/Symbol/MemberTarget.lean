import SolidityAtlas.Proofs.Symbol.Growing

/-!
# What accesses and dotted types are linked to

Contracts stand directly in the file, so none is a member of anything else. A name behind a
dot is looked up among the members of a contract, a struct or an enumeration, and therefore
never leads to a contract. In particular a base that is written with dots adds nothing to a
linearization within one file.

## Main Results

* `SymbolTree.Stage.kind?_findMember?`: no member is a contract
* `SymbolTree.Stage.kind?_memberTarget?`
-/

namespace SolidityAtlas

/-- A separator cuts a text into two pieces at least. -/
theorem two_le_length_pieces {isSep : Char → Bool} {cs : List Char} (h : cs.any isSep = true) :
    2 ≤ (pieces isSep cs).length := by
  induction cs with
  | nil => cases h
  | cons c cs ih =>
      rw [pieces]
      split
      · have hpos := List.length_pos_iff.2 (pieces_ne_nil isSep cs)
        rw [List.length_cons]
        omega
      · rename_i hc
        rw [List.any_cons, Bool.eq_false_iff.2 hc, Bool.false_or] at h
        have hrest := ih h
        split
        · rename_i hnil
          rw [hnil] at hrest
          cases hrest
        · rename_i hcons
          rw [hcons] at hrest
          exact hrest

namespace SymbolTree

variable {t p : SymbolTree} {done : List NodeId} {maxDepth : Nat}

/-- What stands around a node is of the kind that is looked for. -/
theorem kind?_of_enclosing?_alone {k : NodeKind} {a c : Handle} (hc : t.alone.enclosing? k a = some c) :
    t.alone.kind? c = some k := by
  obtain ⟨t', ht', hc⟩ := Option.bind_eq_some_iff.1 hc
  by_cases ha : (t.alone.symbol? a).isSome = true
  · obtain ⟨a', ha', rfl⟩ := isSome_symbol?_alone.1 ha
    rw [home?_alone t ha'] at ht'
    obtain rfl : t = t' := Option.some.inj ht'
    obtain ⟨c', hc', rfl⟩ := Option.map_eq_some_iff.1 hc
    have hkind : (t.kind? c' == some k) = true := List.find?_some (p := fun a => t.kind? a == some k) hc'
    rw [beq_iff_eq, ← kind?_alone] at hkind
    exact hkind
  · rw [home?_alone_eq_none ha] at ht'
    cases ht'

namespace Stage

variable (h : Stage p done t) (hroot : p.Rooted)

include h hroot

/-- A contract belongs to nothing but the file. -/
theorem kind?_eq_of_contract {d s : NodeId} (hd : d ∈ t.children s ∨ d ∈ t.members s)
    (hk : t.kind? d = some .contractDefinition) : t.kind? s = some .sourceUnit := by
  rw [kind?_stems h.stems] at hk ⊢
  have hmem : s ∈ p.ancestors d := by
    rcases hd with hd | hd
    · exact mem_ancestors_of_parent (h.mem_children_iff.1 hd).2
    · exact (h.mem_members_iff.1 hd).2.2.mem_ancestors
  rw [hroot.ancestors_contract hk, List.mem_singleton] at hmem
  rw [hmem, hroot.kind]

/-- What is found directly inside a node, or belongs to it, is a contract only if the node is the
file. -/
theorem kind?_of_mem_alone {c e : Handle} (he : e ∈ t.alone.children c ∨ e ∈ t.alone.members c)
    (hk : t.alone.kind? e = some .contractDefinition) : t.alone.kind? c = some .sourceUnit := by
  by_cases hc : (t.alone.symbol? c).isSome = true
  · obtain ⟨c', hc', rfl⟩ := isSome_symbol?_alone.1 hc
    rw [children_alone, members_alone t hc', List.mem_map, List.mem_map] at he
    rw [kind?_alone]
    rcases he with ⟨d, hd, rfl⟩ | ⟨d, hd, rfl⟩ <;> rw [kind?_alone] at hk
    · exact h.kind?_eq_of_contract hroot (.inl hd) hk
    · exact h.kind?_eq_of_contract hroot (.inr hd) hk
  · have hnone : t.alone.home? c = none := home?_alone_eq_none hc
    rw [Forest.children, Forest.members, hnone] at he
    exact absurd he (by simp)

/-- Contracts are members of the file only. -/
theorem kind?_memberNamed? {c e : Handle} {name : String} (hc : t.alone.kind? c ≠ some .sourceUnit)
    (he : t.alone.memberNamed? name c = some e) : t.alone.kind? e ≠ some .contractDefinition :=
  fun hk => hc (h.kind?_of_mem_alone hroot (.inr (List.mem_of_find?_eq_some he)) hk)

/-- What the contracts of a linearization declare is no contract. -/
theorem kind?_findSome?_memberNamed? {row : List Handle} {c e : Handle} {name : String}
    (hc : t.alone.kind? c = some .contractDefinition) (hrow : ∀ b ∈ row, b ∈ t.alone.linearize maxDepth c)
    (he : row.findSome? (t.alone.memberNamed? name) = some e) :
    t.alone.kind? e ≠ some .contractDefinition := by
  obtain ⟨b, hb, he⟩ := List.exists_of_findSome?_eq_some he
  refine h.kind?_memberNamed? hroot (fun hk => ?_) he
  rcases Forest.exists_of_mem_linearizeWithin (hrow b hb) with rfl | ⟨x, -, hbase⟩
  · rw [hc] at hk
    cases hk
  · rw [Forest.kind?_of_mem_bases hbase] at hk
    cases hk

/-- No member of a declaration is a contract. -/
theorem kind?_findMember? {c e : Handle} {name : String}
    (he : t.alone.findMember? maxDepth c name = some e) : t.alone.kind? e ≠ some .contractDefinition := by
  unfold Forest.findMember? at he
  split at he
  · rename_i hc
    intro hk
    rw [h.kind?_of_mem_alone hroot (.inl (List.mem_of_find?_eq_some he)) hk] at hc
    cases hc
  · rename_i hc
    intro hk
    rw [h.kind?_of_mem_alone hroot (.inl (List.mem_of_find?_eq_some he)) hk] at hc
    cases hc
  · rename_i hc
    exact h.kind?_findSome?_memberNamed? hroot hc (fun _ hb => hb) he
  · cases he
  · cases he

/-- No access refers to a contract. -/
theorem kind?_resolveAccess? {a e : Handle} (he : t.alone.resolveAccess? maxDepth a = some e) :
    t.alone.kind? e ≠ some .contractDefinition := by
  obtain ⟨s, -, he⟩ := Option.bind_eq_some_iff.1 he
  obtain ⟨name, -, he⟩ := Option.bind_eq_some_iff.1 he
  obtain ⟨base, -, he⟩ := Option.bind_eq_some_iff.1 he
  split at he
  · obtain ⟨c, hc, he⟩ := Option.bind_eq_some_iff.1 he
    refine h.kind?_findSome?_memberNamed? hroot (kind?_of_enclosing?_alone hc)
      (fun b hb => List.mem_of_mem_tail hb) he
  · rcases Option.or_eq_some_iff.1 he with he | ⟨-, he⟩
    · obtain ⟨c, -, he⟩ := Option.bind_eq_some_iff.1 he
      exact h.kind?_findMember? hroot he
    · obtain ⟨l, -, he⟩ := List.exists_of_findSome?_eq_some he
      exact h.kind?_findMember? hroot he

/-- A path of two names at least leads to no contract. -/
theorem kind?_resolvePath? {first e : Handle} {rest : List String} (hrest : rest ≠ [])
    (he : t.alone.resolvePath? maxDepth first rest = some e) :
    t.alone.kind? e ≠ some .contractDefinition := by
  induction rest generalizing first with
  | nil => exact absurd rfl hrest
  | cons name rest ih =>
      rw [Forest.resolvePath?, List.foldlM_cons] at he
      obtain ⟨next, hnext, he⟩ := Option.bind_eq_some_iff.1 he
      cases rest with
      | nil =>
          obtain rfl : next = e := Option.some.inj he
          obtain ⟨c, -, hnext⟩ := Option.bind_eq_some_iff.1 hnext
          exact h.kind?_findMember? hroot hnext
      | cons other rest => exact ih (List.cons_ne_nil _ _) he

/-- No access and no dotted type is linked to a contract. -/
theorem kind?_memberTarget? {u : NodeId} {e : Handle} (he : t.memberTarget? maxDepth u = some e) :
    t.alone.kind? e ≠ some .contractDefinition := by
  obtain ⟨s, -, he⟩ := Option.bind_eq_some_iff.1 he
  split at he
  · exact h.kind?_resolveAccess? hroot he
  · rename_i path hdetail
    split at he
    · rename_i hqualified
      rw [Symbol.isQualified, hdetail] at hqualified
      have hlength : 2 ≤ (Forest.pathNames path).length := by
        rw [Forest.pathNames, List.length_map]
        refine two_le_length_pieces (List.any_eq_true.2 ⟨'.', ?_, rfl⟩)
        exact List.contains_iff_mem.1 hqualified
      unfold Forest.dottedTarget? at he
      split at he
      · cases he
      · rename_i first rest hnames
        obtain ⟨start, -, he⟩ := Option.bind_eq_some_iff.1 he
        refine h.kind?_resolvePath? hroot (fun hnil => ?_) he
        rw [hnames, hnil, List.length_singleton] at hlength
        exact absurd hlength (Nat.not_succ_le_self 1)
    · cases he
  · cases he

end Stage

end SymbolTree

end SolidityAtlas

import SolidityAtlas.Proofs.Symbol.ScopeSound

/-!
# Shadowing

A declaration further inside comes before one further outside. Inside one contract this is
settled in two ways. If a use stands behind a declaration, then it finds the declaration when
it is looked up, from the inside out, and no node further outside is asked. And if the
declaration comes later, then nothing outside the contract gets a chance before the
declaration takes the use: the contract is closed behind all that stands in it, and only then
its bases and what is declared around it are tried.

A node around a use is asked before what belongs to it. So a function comes before its
parameters, and a declaration that belongs to two nodes, because one of them is a holder,
is not hidden by others that belong to the holder.

## Main Definitions

* `SymbolTree.Precedes`: a declaration at a node around a use stands before the use
* `SymbolTree.InnermostWins`: no use is linked past a declaration further inside

## Main Results

* `SymbolTree.Moment.within`: a use that a contract declares something for is not linked out of it
* `SymbolTree.exists_declaration_within`
* `SymbolTree.declaration_ne_of_precedes`
-/

namespace SolidityAtlas

namespace SymbolTree

variable {t τ p : SymbolTree} {done rest : List NodeId} {g : Growth} {maxDepth : Nat}
  {id u d c outer scope : NodeId} {s x y : Symbol}

/-! ## The nodes around a use -/

/-- The nodes around a node are listed from the inside out. -/
theorem pairwise_ancestors (t : SymbolTree) (id : NodeId) :
    (t.ancestors id).Pairwise fun a b => b ∈ t.ancestors a := by
  fun_induction ancestors t id with
  | case1 id p hp ih => exact List.pairwise_cons.2 ⟨fun _ hb => hb, ih⟩
  | case2 id hp => exact .nil

/-- Inside its contract a node has the scopes that are nearest to it. -/
theorem ancestorsInContract_sublist (t : SymbolTree) (id : NodeId) :
    (t.ancestorsInContract id).Sublist (t.ancestors id) := by
  have hsplit := List.takeWhile_append_dropWhile
    (p := fun a => ! (t.kind? a == some .contractDefinition)) (l := t.ancestors id)
  rw [ancestorsInContract]
  conv_rhs => rw [← hsplit]
  exact (List.Sublist.refl _).append (List.take_sublist 1 _)

/-- The contract around a node is a contract around it. -/
theorem of_enclosingContract? (hc : t.enclosingContract? u = some c) :
    c ∈ t.ancestors u ∧ t.kind? c = some .contractDefinition :=
  have hkind : (t.kind? c == some .contractDefinition) = true :=
    List.find?_some (p := fun a => t.kind? a == some .contractDefinition) hc
  ⟨List.mem_of_find?_eq_some hc, eq_of_beq hkind⟩

/-- No node stands around itself, nor around what stands around it. -/
theorem not_around (hin : scope = c ∨ c ∈ t.ancestors scope) : scope ∉ t.ancestors c := by
  intro hmem
  have hlt := lt_of_mem_ancestors hmem
  rcases hin with rfl | hin
  · exact Nat.lt_irrefl _ hlt
  · exact Nat.lt_asymm hlt (lt_of_mem_ancestors hin)

/-- Between a node and what belongs to it stand holders, to which it belongs too. -/
theorem BelongsOver.of_between {between : NodeId → Prop} (h : p.BelongsOver between d outer)
    (hd : scope ∈ p.ancestors d) (hscope : outer ∈ p.ancestors scope) :
    p.BelongsOver between d scope ∧ ∃ k, p.kind? scope = some k ∧ k.isHolder = true := by
  induction h with
  | inside hp =>
      rw [ancestors_of_parent p hp, List.mem_cons] at hd
      exact absurd hscope (not_around (hd.imp_left Eq.symm))
  | @held holder outer k hholds _ hk hholder hp ih =>
      rcases eq_or_mem_ancestors hd hholds.mem_ancestors with rfl | hmem | hmem
      · exact ⟨hholds, k, hk, hholder⟩
      · rw [ancestors_of_parent p hp, List.mem_cons] at hmem
        exact absurd hscope (not_around (hmem.imp_left Eq.symm))
      · exact ih hmem

/-- What a search from the inside out has found is found at a node, or further inside, if something can
be meant there. -/
theorem exists_of_meantInContract? (hfound : t.meantInContract? s u = some d)
    (houter : outer ∈ t.ancestorsInContract u) (hmeant : t.meantAt? s outer ≠ none) :
    ∃ a ∈ t.ancestorsInContract u, (a = outer ∨ outer ∈ t.ancestors a) ∧ t.meantAt? s a = some d := by
  obtain ⟨front, a, back, hrow, ha, hfront⟩ := List.findSome?_eq_some_iff.1 hfound
  have hpairwise := (pairwise_ancestors t u).sublist (ancestorsInContract_sublist t u)
  rw [hrow] at hpairwise houter ⊢
  refine ⟨a, List.mem_append_right _ List.mem_cons_self, ?_, ha⟩
  rcases List.mem_append.1 houter with hmem | hmem
  · exact absurd (hfront outer hmem) hmeant
  · rcases List.mem_cons.1 hmem with heq | hmem
    · exact .inl heq.symm
    · exact .inr ((List.pairwise_cons.1 (List.pairwise_append.1 hpairwise).2.1).1 outer hmem)

/-! ## Within a contract -/

/-- Something that a pending use can mean in the contract around it has not been settled. -/
theorem Moment.not_mem_done (h : Moment maxDepth p done g id τ u s d) (hroot : p.Rooted)
    (hne : u ≠ id) (hname : s.isByName = true) (hc : p.kind? c = some .contractDefinition)
    (hcu : c ∈ p.ancestors u) (hscope : scope ∈ p.ancestors u)
    (hin : scope = c ∨ c ∈ p.ancestors scope) {a : NodeId} (hy : p.symbol? a = some y)
    (haccepts : y.accepts s = true) :
    a ≠ scope ∧ ¬ (a ∈ done ∧ p.Belongs a scope) := by
  rw [← not_or]
  intro ha
  obtain ⟨x, hx, hstem⟩ := exists_symbol?_stems h.stage.stems h.symbol
  obtain ⟨b, hb, hbu, hscopeb, -⟩ := h.complete.leaves u (h.pending.resolve_left hne).2 x hx
    (by rw [Symbol.stem_isByName hstem, hname]) scope hscope
    ⟨a, y, ha, hy, by rw [Symbol.stem_accepts rfl hstem, haccepts]⟩
  obtain rfl := hroot.eq_of_mem_ancestors hb hc hbu hcu
  exact not_around hin hscopeb

/-- A use that a contract declares something for, around the use, is linked to something within the
contract. -/
theorem Moment.within (h : Moment maxDepth p done g id τ u s d) (hroot : p.Rooted)
    (hname : s.isByName = true) (hc : p.kind? c = some .contractDefinition) (hcu : c ∈ p.ancestors u)
    (hscope : scope ∈ p.ancestors u) (hin : scope = c ∨ c ∈ p.ancestors scope) {a : NodeId}
    (ha : p.Belongs a scope) (hy : p.symbol? a = some y) (haccepts : y.accepts s = true) :
    d = c ∨ c ∈ p.ancestors d := by
  have hca : c ∈ p.ancestors a := by
    rcases hin with rfl | hin
    · exact ha.mem_ancestors
    · exact mem_ancestors_trans hin ha.mem_ancestors
  -- Neither the contract nor what stands around it has been settled, nor is it their turn.
  have hlate : c ∉ done ∧ c ≠ id ∧ (u ≠ id → c ∈ p.ancestors id) := by
    by_cases hne : u = id
    · subst hne
      exact ⟨h.turn.not_mem_of_mem_ancestors hcu, Nat.ne_of_lt (lt_of_mem_ancestors hcu),
        fun hnot => absurd rfl hnot⟩
    · have hnot := (h.not_mem_done hroot hne hname hc hcu hscope hin hy haccepts).2
      have hdone : c ∉ done := fun hmem => hnot ⟨h.turn.inside c hmem a hca, ha⟩
      have hid : c ≠ id := fun heq => hnot ⟨(h.turn.mem_iff a).2
        ⟨lt_size_of_mem_ancestors hca, .inl (heq ▸ hca)⟩, ha⟩
      refine ⟨hdone, hid, fun _ => ?_⟩
      by_contra hout
      exact hdone (h.turn.mem_of_mem_ancestors (h.pending.resolve_left hne).1 hcu hid hout)
  obtain ⟨hdone, hid, haround⟩ := hlate
  have hdeals : ∀ {b}, ¬ Growth.Deals g.waiting (g.settle maxDepth id).waiting id τ u b := by
    intro b hdeals
    have hbu := hdeals.1
    rw [ancestors_stems h.stage.stems] at hbu
    obtain rfl := hroot.eq_of_mem_ancestors hc (h.kind?_of_deals hdeals) hcu hbu
    rcases hdeals.2 with ⟨heq, -⟩ | ⟨hwaits, -⟩
    · exact hid heq
    · exact hdone (h.complete.waiting b hwaits).1
  cases h.reason with
  | lookedUp hu hmeant =>
      obtain ⟨outer, houter, hmeant⟩ := List.exists_of_findSome?_eq_some hmeant
      rw [ancestorsInContract_stems h.stage.stems] at houter
      have hout := (of_mem_ancestorsInContract houter).2 c hcu hc
      rcases (of_meantAt? hmeant).1 with rfl | hmember
      · exact hout
      · have hmem := (h.stage.mem_members_iff.1 hmember).2.2.mem_ancestors
        rcases hout with rfl | hout
        · exact .inr hmem
        · exact .inr (mem_ancestors_trans hout hmem)
  | claimed heq =>
      subst heq
      by_cases hne : u = d
      · exact .inr (hne ▸ hcu)
      · exact .inr (haround hne)
  | around hdeals' _ => exact absurd hdeals' hdeals
  | inherited hdeals' _ _ => exact absurd hdeals' hdeals

/-- What a use is linked to is within a contract if what the use means is. -/
theorem Stage.within_target (h : p.Stage done τ) (hd : d = c ∨ c ∈ p.ancestors d) :
    ∃ k, τ.alone.target s (τ.handle d) = τ.handle k ∧ (k = c ∨ c ∈ p.ancestors k) := by
  rw [target_alone]
  split
  · cases hk : τ.constructorAt? d with
    | none => exact ⟨d, rfl, hd⟩
    | some k =>
        have hin := mem_ancestors_of_parent (h.mem_children_iff.1 (List.mem_of_find?_eq_some hk)).2
        refine ⟨k, rfl, .inr ?_⟩
        rcases hd with rfl | hd
        · exact hin
        · exact mem_ancestors_trans hd hin
  · exact ⟨d, rfl, hd⟩

/-- What is settled before a node that has been settled has been settled. -/
theorem mem_of_settledBefore {file generation : Nat} {m : LineMap} {tree : SyntaxTree}
    (horder : settlingOrder 0 tree = done ++ rest) (hu : u ∈ done)
    (hbefore : (planted file generation m tree).SettledBefore d u)
    (hsize : d < (planted file generation m tree).size) : d ∈ done := by
  obtain ⟨front, back, rfl⟩ := List.append_of_mem hu
  rw [List.append_assoc, List.cons_append] at horder
  exact List.mem_append_left _ (((turn_of_append horder).mem_iff d).2 ⟨hsize, hbefore⟩)

/-- Each link of a use of a text that is looked up by name has its moment. What stands before the use
has been settled then, unless it stands around the use. -/
theorem exists_moment_grow (maxDepth file generation : Nat) (m : LineMap) (text : String)
    (ht : t = grow maxDepth file generation m (parse text).tree) (hx : t.symbol? u = some x)
    (hname : x.isByName = true) {h : Handle} (hh : x.declaration = some h) :
    ∃ p all done g id τ s d, p.Rooted ∧ p.Stage all t ∧ Moment maxDepth p done g id τ u s d ∧
      τ.Grows t ∧ s.stem = x.stem ∧ h = τ.alone.target s (τ.handle d) ∧
      ∀ a < u, a ∉ p.ancestors u → a ∈ done := by
  have hstage := stage_grow maxDepth file generation m (parse text).tree
  rw [← ht] at hstage
  obtain ⟨x', hx', hstem⟩ := exists_symbol?_stems hstage.stems hx
  have hfound : t.found? u = some h := by rw [found?, hx, Option.bind_some, hh]
  rw [ht] at hfound
  obtain ⟨done, id, post, τ, s, d, horder, hmoment, hgrows, htarget⟩ :=
    (underway_planted file generation m text).whole.exists_moment hx'
      (by rw [Symbol.stem_isByName hstem, hname]) (found?_planted _ _ _ _ _) hfound
  replace hgrows : τ.Grows t := ht ▸ hgrows
  obtain ⟨w, hw, hstemw⟩ := exists_symbol?_stems hgrows.stems.symm hmoment.symbol
  obtain rfl : x = w := Option.some.inj (hx.symm.trans hw)
  refine ⟨_, _, done, _, id, τ, s, d, rooted_planted file generation m text, hstage, hmoment, hgrows,
    hstemw.symm, htarget, fun a hlt hnot => ?_⟩
  have hsize := Nat.lt_trans hlt (lt_size_of_symbol? hx')
  rcases hmoment.pending with rfl | ⟨hu, -⟩
  · exact (hmoment.turn.mem_iff a).2 ⟨hsize, .inr ⟨hlt, hnot⟩⟩
  · exact mem_of_settledBefore horder hu (.inr ⟨hlt, hnot⟩) hsize

/-- What a contract declares around a use in it comes before all that is declared outside, in the bases
of the contract or around it, wherever the declarations stand. -/
theorem exists_declaration_within (maxDepth file generation : Nat) (m : LineMap) (text : String)
    (ht : t = grow maxDepth file generation m (parse text).tree)
    (hx : t.symbol? u = some x) (husage : x.isUsage = true) (hname : x.isByName = true)
    (hc : t.enclosingContract? u = some c) (hscope : scope ∈ t.ancestors u)
    (hin : scope = c ∨ c ∈ t.ancestors scope) (hd : d ∈ t.members scope)
    (hy : t.symbol? d = some y) (haccepts : y.accepts x = true) :
    ∃ k, x.declaration = some (t.handle k) ∧ (k = c ∨ c ∈ t.ancestors k) ∧
      (∀ b, t.kind? b = some .contractDefinition → b ≠ c → k ∉ t.members b) ∧
      (k ∈ t.members root → k = c) := by
  have hresolved : x.isResolved = true := by
    subst ht
    exact isResolved_of_accepts _ _ _ _ _ hx husage hname hscope (.inr hd) hy haccepts
  obtain ⟨h, hh⟩ := Option.isSome_iff_exists.1 hresolved
  obtain ⟨p, all, done, g, id, τ, s, e, hroot, hstage, hmoment, hgrows, hstem, rfl, -⟩ :=
    exists_moment_grow _ _ _ _ _ ht hx hname hh
  have hstems := hstage.stems
  obtain ⟨y', hy', hstemy⟩ := exists_symbol?_stems hstems hy
  obtain ⟨hcu, hkind⟩ := of_enclosingContract? hc
  obtain ⟨-, -, hbelongs⟩ := hstage.mem_members_iff.1 hd
  have hk := kind?_stems hstems
  rw [hk] at hkind
  rw [ancestors_stems hstems] at hcu hscope hin ⊢
  have hwithin := hmoment.within hroot (by rw [Symbol.stem_isByName hstem, hname]) hkind hcu hscope hin
    hbelongs.belongs hy' (by rw [Symbol.stem_accepts hstemy hstem, haccepts])
  obtain ⟨k, htarget, hwithin⟩ := hmoment.stage.within_target (s := s) hwithin
  refine ⟨k, by rw [hh, htarget, hgrows.handle], hwithin, fun b hb hne hmem => ?_, fun hmem => ?_⟩
  · have hkb := (hstage.mem_members_iff.1 hmem).2.2.mem_ancestors
    rw [hk] at hb
    rcases hwithin with rfl | hkc
    · exact hroot.not_mem_ancestors hkind hb hkb
    · exact hne (hroot.eq_of_mem_ancestors hkind hb hkc hkb)
  · -- Nothing but the contract itself stands in the contract and belongs to the file.
    refine hwithin.resolve_right fun hkc => ?_
    obtain ⟨-, holder, hholder, hholds⟩ :=
      (hstage.mem_members_iff.1 hmem).2.2.of_between hkc (hroot.root_mem_ancestors hkind)
    rw [hkind] at hholder
    obtain rfl := Option.some.inj hholder
    cases hholds

/-- A contract whose own variable comes behind its use, before the base that declares one as well. -/
def derivedVariable : SymbolTree :=
  let text := "contract C is B \x7b function f() public \x7b v; \x7d uint v; \x7d contract B \x7b uint v; \x7d"
  grow defaultMaxDepth 0 1 (.ofText text) (parse text).tree

/-- The use in `derivedVariable` is linked to what its own contract declares. -/
theorem declaration_within_derivedVariable : ∃ x ∈ derivedVariable.symbol? 8, ∃ k,
    x.declaration = some (derivedVariable.handle k) ∧ (k = 1 ∨ 1 ∈ derivedVariable.ancestors k) ∧
      (∀ b, derivedVariable.kind? b = some .contractDefinition → b ≠ 1 →
        k ∉ derivedVariable.members b) ∧
      (k ∈ derivedVariable.members root → k = 1) := by
  have huse : ∃ x ∈ derivedVariable.symbol? 8, x.isUsage = true ∧ x.isByName = true ∧
      derivedVariable.enclosingContract? 8 = some 1 ∧ 1 ∈ derivedVariable.ancestors 8 ∧
      10 ∈ derivedVariable.members 1 ∧ ∃ y ∈ derivedVariable.symbol? 10, y.accepts x = true := by
    decide +kernel
  obtain ⟨x, hx, husage, hname, hc, hscope, hd, y, hy, haccepts⟩ := huse
  exact ⟨x, hx, exists_declaration_within _ _ _ _ _ rfl hx husage hname hc hscope (.inl rfl) hd hy
    haccepts⟩

/-! ## The innermost declaration -/

/-- In its own turn a use is linked to what is found when it is looked up. -/
theorem Moment.meantInContract?_eq (h : Moment maxDepth p done g id τ u s d) (hroot : p.Rooted)
    (hu : u = id) (husage : s.isUsage = true) : τ.meantInContract? s u = some d := by
  have hdeals : ∀ {b left}, ¬ Growth.Deals g.waiting left id τ u b := by
    rintro b left ⟨hbu, ⟨heq, -⟩ | ⟨-, hfile⟩⟩
    · rw [heq, ← hu] at hbu
      exact Nat.lt_irrefl _ (lt_of_mem_ancestors hbu)
    · rw [kind?_stems h.stage.stems] at hfile
      rw [hu, hroot.unique id hfile] at hbu
      exact Nat.not_lt_zero _ (lt_of_mem_ancestors hbu)
  cases h.reason with
  | lookedUp _ hmeant => exact hmeant
  | claimed hid _ _ hy haccepts _ =>
      -- No use is a declaration.
      rw [hid, ← hu, h.symbol] at hy
      cases hy
      rw [Symbol.isUsage_eq_false_of_isDeclaration (Symbol.isDeclaration_of_accepts haccepts)] at husage
      cases husage
  | around hdeals' _ => exact absurd hdeals' hdeals
  | inherited hdeals' _ _ => exact absurd hdeals' hdeals

/-- If a declaration at a node around a use has been settled when the use is linked, or stands around
the use itself, then the use is linked to something at that node or further inside. -/
theorem Moment.exists_innermost (h : Moment maxDepth p done g id τ u s d) (hroot : p.Rooted)
    (husage : s.isUsage = true) (hname : s.isByName = true)
    (hc : p.kind? c = some .contractDefinition) (hcu : c ∈ p.ancestors u)
    (hscope : scope ∈ p.ancestors u) (hin : scope = c ∨ c ∈ p.ancestors scope) {a : NodeId}
    (ha : p.Belongs a scope) (hy : p.symbol? a = some y) (haccepts : y.accepts s = true)
    (hbefore : a ∈ p.ancestors u ∨ a ∈ done) :
    ∃ outer ∈ p.ancestorsInContract u, (outer = scope ∨ scope ∈ p.ancestors outer) ∧
      (d = outer ∨ p.Belongs d outer) := by
  have hinside : ∀ {b}, b = scope ∨ scope ∈ p.ancestors b → b = c ∨ c ∈ p.ancestors b := by
    rintro b (rfl | hb)
    · exact hin
    · rcases hin with rfl | hin
      · exact .inr hb
      · exact .inr (mem_ancestors_trans hin hb)
  have hain := hinside (.inr ha.mem_ancestors)
  have hu : u = id := by
    by_contra hne
    rcases hbefore with hmem | hdone
    · exact (h.not_mem_done hroot hne hname hc hcu hmem hain hy haccepts).1 rfl
    · exact (h.not_mem_done hroot hne hname hc hcu hscope hin hy haccepts).2 ⟨hdone, ha⟩
  have hfound := h.meantInContract?_eq hroot hu husage
  obtain ⟨x, hx, hstem⟩ := exists_symbol?_stems h.stage.stems h.symbol
  have haccepts' : y.accepts x = true := by rw [Symbol.stem_accepts rfl hstem, haccepts]
  -- The search would find the declaration, if nothing else further inside.
  have hmeant : ∃ b ∈ p.ancestors u, (b = scope ∨ scope ∈ p.ancestors b) ∧ τ.meantAt? s b ≠ none := by
    have hsearch : ∀ {b}, b ∈ p.ancestors u → p.MeantBy done x b →
        ∃ b' ∈ p.ancestors u, (b' = b ∨ b ∈ p.ancestors b') ∧ τ.meantAt? s b' ≠ none :=
      fun hb => h.stage.exists_meantAt? (fun k hk => by
        rw [kind?, hx, Option.map_some] at hk
        cases hk
        refine Symbol.isHolder_eq_false_of_isUsage ?_
        rw [Symbol.stem_isUsage hstem, husage])
        (fun d hd b hb => by rw [hu]; exact h.turn.mem_of_mem_ancestors hd hb) hstem.symm hb
    rcases hbefore with hmem | hdone
    · obtain ⟨b, hb, hab, hfound⟩ := hsearch hmem ⟨a, y, .inl rfl, hy, haccepts'⟩
      refine ⟨b, hb, .inr ?_, hfound⟩
      rcases hab with rfl | hab
      · exact ha.mem_ancestors
      · exact mem_ancestors_trans ha.mem_ancestors hab
    · exact hsearch hscope ⟨a, y, .inr ⟨hdone, ha⟩, hy, haccepts'⟩
  obtain ⟨b, hb, hbscope, hmeant⟩ := hmeant
  have hstems := h.stage.stems
  have hbin : b ∈ τ.ancestorsInContract u := by
    rw [ancestorsInContract_stems hstems]
    refine (mem_ancestorsInContract_or hb).resolve_right ?_
    rintro ⟨c', hc', hk, hbc⟩
    obtain rfl := hroot.eq_of_mem_ancestors hk hc hc' hcu
    exact not_around (hinside hbscope) hbc
  obtain ⟨outer, houter, hob, hd⟩ := exists_of_meantInContract? hfound hbin hmeant
  rw [ancestorsInContract_stems hstems] at houter
  rw [ancestors_stems hstems] at hob
  refine ⟨outer, houter, ?_, (of_meantAt? hd).1.imp_right fun hmem =>
    (h.stage.mem_members_iff.1 hmem).2.2.belongs⟩
  rcases hob with rfl | hob
  · exact hbscope
  · rcases hbscope with rfl | hbscope
    · exact .inr hob
    · exact .inr (mem_ancestors_trans hbscope hob)

/-- A declaration that belongs to a node around a use, can be what the use refers to, and stands before
the use in the text. -/
def Precedes (t : SymbolTree) (x : Symbol) (u scope d : NodeId) : Prop :=
  scope ∈ t.ancestors u ∧ d ∈ t.members scope ∧ d < u ∧ ∃ y ∈ t.symbol? d, y.accepts x = true

/-- A use that stands behind a declaration in a contract is linked to no declaration further outside in
the contract. But a node around the use comes before the declarations that belong to it, and among
those none hides another one. -/
theorem declaration_ne_of_precedes (maxDepth file generation : Nat) (m : LineMap) (text : String)
    (ht : t = grow maxDepth file generation m (parse text).tree)
    (hx : t.symbol? u = some x) (husage : x.isUsage = true) (hname : x.isByName = true)
    (hc : t.enclosingContract? u = some c) {s₁ s₂ d₁ d₂ : NodeId} (hinner : s₂ ∈ t.ancestors s₁)
    (houter : s₂ = c ∨ c ∈ t.ancestors s₂) (h₁ : t.Precedes x u s₁ d₁) (h₂ : t.Precedes x u s₂ d₂)
    (hself : d₂ ≠ s₁) (hown : d₂ ∉ t.members s₁) : x.declaration ≠ some (t.handle d₂) := by
  intro hh
  obtain ⟨p, all, done, g, id, τ, s, e, hroot, hstage, hmoment, hgrows, hstem, htarget, hearlier⟩ :=
    exists_moment_grow _ _ _ _ _ ht hx hname hh
  have hstems := hstage.stems
  obtain ⟨hs₁, hd₁, hlt, y, hy, haccepts⟩ := h₁
  obtain ⟨-, hd₂, -⟩ := h₂
  obtain ⟨y', hy', hstemy⟩ := exists_symbol?_stems hstems hy
  obtain ⟨hcu, hk⟩ := of_enclosingContract? hc
  obtain ⟨-, -, hbelongs₁⟩ := hstage.mem_members_iff.1 hd₁
  obtain ⟨hdone₂, hdeclares₂, hbelongs₂⟩ := hstage.mem_members_iff.1 hd₂
  rw [kind?_stems hstems] at hk
  rw [ancestors_stems hstems] at hcu hs₁ hinner houter
  have hcs : c ∈ p.ancestors s₁ := by
    rcases houter with rfl | houter
    · exact hinner
    · exact mem_ancestors_trans houter hinner
  obtain ⟨outer, -, hscope, he⟩ := hmoment.exists_innermost hroot
    (by rw [Symbol.stem_isUsage hstem, husage]) (by rw [Symbol.stem_isByName hstem, hname]) hk hcu hs₁
    (.inr hcs) hbelongs₁.belongs hy' (by rw [Symbol.stem_accepts hstemy hstem, haccepts])
    (or_iff_not_imp_left.2 (hearlier d₁ hlt))
  have hs₁e : e = s₁ ∨ s₁ ∈ p.ancestors e := by
    rcases he with rfl | he
    · exact hscope
    · rcases hscope with rfl | hscope
      · exact .inr he.mem_ancestors
      · exact .inr (mem_ancestors_trans hscope he.mem_ancestors)
  -- What is found is no contract, so the use is linked to that very node.
  have hce : c ∈ p.ancestors e := by
    rcases hs₁e with rfl | hs₁e
    · exact hcs
    · exact mem_ancestors_trans hcs hs₁e
  rw [target_alone, if_neg, hgrows.handle] at htarget
  · obtain rfl : d₂ = e := congrArg Handle.node htarget
    have hmem := hs₁e.resolve_left hself
    exact hown (hstage.mem_members_iff.2 ⟨hdone₂, hdeclares₂, (hbelongs₂.of_between hmem hinner).1⟩)
  · rintro ⟨-, hcontract⟩
    rw [kind?_stems hmoment.stage.stems] at hcontract
    exact hroot.not_mem_ancestors hcontract hk hce

/-- A local variable of the name of a state variable. -/
def localOverState : SymbolTree :=
  let text := "contract C \x7b uint a; function f() public \x7b uint a = 1; \x7b a; \x7d \x7d \x7d"
  grow defaultMaxDepth 0 1 (.ofText text) (parse text).tree

/-- The use in `localOverState` is not linked to the state variable. -/
theorem declaration_ne_localOverState : ∃ x ∈ localOverState.symbol? 14,
    x.declaration ≠ some (localOverState.handle 3) := by
  have huse : ∃ x ∈ localOverState.symbol? 14, x.isUsage = true ∧ x.isByName = true ∧
      localOverState.enclosingContract? 14 = some 1 ∧ 1 ∈ localOverState.ancestors 7 ∧
      localOverState.Precedes x 14 7 9 ∧ localOverState.Precedes x 14 1 3 ∧
      3 ∉ localOverState.members 7 := by
    unfold Precedes
    decide +kernel
  obtain ⟨x, hx, husage, hname, hc, hinner, h₁, h₂, hown⟩ := huse
  exact ⟨x, hx, declaration_ne_of_precedes _ _ _ _ _ rfl hx husage hname hc hinner (.inl rfl) h₁ h₂
    (by decide) hown⟩

/-- Of two declarations before a use, at nodes in a contract around the use, the one further outside is
never what the use is linked to. -/
def InnermostWins (t : SymbolTree) : Prop :=
  ∀ u x c s₁ s₂ d₁ d₂, t.symbol? u = some x → x.isUsage = true → x.isByName = true →
    t.enclosingContract? u = some c → s₂ ∈ t.ancestors s₁ → (s₂ = c ∨ c ∈ t.ancestors s₂) →
    t.Precedes x u s₁ d₁ → t.Precedes x u s₂ d₂ → d₁ ≠ d₂ → x.declaration ≠ some (t.handle d₂)

/-- A function that has a parameter of its own name. -/
def parameterOfOwnName : SymbolTree :=
  let text := "contract C \x7b function f(uint f) public \x7b f; \x7d \x7d"
  grow defaultMaxDepth 0 1 (.ofText text) (parse text).tree

/-- A statement that declares two variables of one name and uses it. -/
def twiceDeclared : SymbolTree :=
  let text := "contract C \x7b function f() public \x7b (uint a, uint a) = (a, 1); \x7d \x7d"
  grow defaultMaxDepth 0 1 (.ofText text) (parse text).tree

/-- The function comes before its parameter. And what belongs to a statement belongs to the block as
well, where the first of the variables is found. -/
theorem not_innermostWins : ¬ parameterOfOwnName.InnermostWins ∧ ¬ twiceDeclared.InnermostWins := by
  constructor
  · intro h
    have hlinked : ∃ x ∈ parameterOfOwnName.symbol? 8, x.isUsage = true ∧ x.isByName = true ∧
        parameterOfOwnName.enclosingContract? 8 = some 1 ∧ 1 ∈ parameterOfOwnName.ancestors 2 ∧
        parameterOfOwnName.Precedes x 8 2 4 ∧ parameterOfOwnName.Precedes x 8 1 2 ∧
        x.declaration = some (parameterOfOwnName.handle 2) := by
      unfold Precedes
      decide +kernel
    obtain ⟨x, hx, husage, hname, hc, hinner, h₁, h₂, hh⟩ := hlinked
    exact h 8 x 1 2 1 4 2 hx husage hname hc hinner (.inl rfl) h₁ h₂ (by decide) hh
  · intro h
    have hlinked : ∃ x ∈ twiceDeclared.symbol? 11, x.isUsage = true ∧ x.isByName = true ∧
        twiceDeclared.enclosingContract? 11 = some 1 ∧ 4 ∈ twiceDeclared.ancestors 5 ∧
        1 ∈ twiceDeclared.ancestors 4 ∧
        twiceDeclared.Precedes x 11 5 8 ∧ twiceDeclared.Precedes x 11 4 6 ∧
        x.declaration = some (twiceDeclared.handle 6) := by
      unfold Precedes
      decide +kernel
    obtain ⟨x, hx, husage, hname, hc, hinner, hin, h₁, h₂, hh⟩ := hlinked
    exact h 11 x 1 5 4 8 6 hx husage hname hc hinner (.inr hin) h₁ h₂ (by decide) hh

end SymbolTree

end SolidityAtlas

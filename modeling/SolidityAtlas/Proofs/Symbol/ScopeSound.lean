import SolidityAtlas.Proofs.Symbol.Moment

/-!
# No use is linked out of sight

A use that is looked up by name is linked to what a declaration *in sight* stands for: the
use stands in the scope of the declaration, or the declaration belongs to a contract that a
contract around the use inherits. All searches of a growing tree see less than the finished
tree shows, so it is enough to look at the moment of the link.

What a declaration stands for is the declaration itself, or for a contract that is named
like a modifier the constructor of the contract. There the finished tree shows more than
could be seen at the moment of the link: in a contract that names itself before its
constructor comes, the use is linked to the contract (`SymbolTree.CallsAhead`).

## Main Definitions

* `SymbolTree.InSight`: where a use sees a declaration
* `SymbolTree.CallsAhead`: a use names the contract around it before the constructor comes

## Main Results

* `SymbolTree.Moment.inSight`
* `SymbolTree.exists_inSight`
-/

namespace SolidityAtlas

namespace SymbolTree

variable {t τ p : SymbolTree} {done : List NodeId} {g : Growth} {maxDepth : Nat} {id u d : NodeId}
  {s x : Symbol}

/-! ## Inherited declarations -/

/-- What a use finds in the bases of a contract belongs to a contract that is inherited. -/
theorem exists_of_inherited? {c : NodeId} {e : Handle}
    (he : t.alone.inherited? maxDepth (t.handle c) s = some e) :
    ∃ d b y, e = t.handle d ∧ b ≠ c ∧ t.kind? b = some .contractDefinition ∧
      t.handle b ∈ t.alone.linearize maxDepth (t.handle c) ∧ d ∈ t.members b ∧
      t.symbol? d = some y ∧ y.accepts s = true := by
  obtain ⟨row, hrow, hnot⟩ := t.alone.exists_linearize_eq maxDepth (t.handle c)
  rw [Forest.inherited?, hrow, List.tail_cons] at he
  obtain ⟨b, hb, hmember⟩ := List.exists_of_findSome?_eq_some he
  have hne : b ≠ t.handle c := fun heq => hnot (heq ▸ hb)
  have hlisted : b ∈ t.alone.linearize maxDepth (t.handle c) := by
    rw [hrow]
    exact List.mem_cons_of_mem _ hb
  obtain ⟨x, -, hbase⟩ := (Forest.exists_of_mem_linearizeWithin hlisted).resolve_left hne
  have hkind := Forest.kind?_of_mem_bases hbase
  obtain ⟨b', hb', rfl⟩ := isSome_symbol?_alone.1 (by
    obtain ⟨y, hy, -⟩ := Option.map_eq_some_iff.1 hkind
    rw [hy]
    rfl)
  rw [kind?_alone] at hkind
  rw [Forest.memberAccepting?, members_alone t hb'] at hmember
  have haccepts := List.find?_some hmember
  obtain ⟨d', hd', rfl⟩ := List.mem_map.1 (List.mem_of_find?_eq_some hmember)
  rw [symbol?_alone, lookup?_handle, Option.any_eq_true] at haccepts
  obtain ⟨y, hy, haccepts⟩ := haccepts
  exact ⟨d', b', y, rfl, fun heq => hne (heq ▸ rfl), hkind, hlisted, hd', hy, haccepts⟩

/-- What a contract inherits for a use is a member of a base that the use accepts. -/
theorem exists_of_inheritedNode? {c : NodeId} (h : inheritedNode? maxDepth c t s = some d) :
    ∃ b y, b ≠ c ∧ t.kind? b = some .contractDefinition ∧
      t.handle b ∈ t.alone.linearize maxDepth (t.handle c) ∧ d ∈ t.members b ∧
      t.symbol? d = some y ∧ y.accepts s = true := by
  obtain ⟨e, he, rfl⟩ := Option.map_eq_some_iff.1 h
  obtain ⟨d', b, y, rfl, hrest⟩ := exists_of_inherited? he
  exact ⟨b, y, hrest⟩

/-! ## In sight -/

/-- A use sees a declaration: it stands in the scope of the declaration, or the declaration belongs to
another contract in the linearization of a contract around the use. -/
def InSight (maxDepth : Nat) (t : SymbolTree) (u d : NodeId) : Prop :=
  (∃ scope, t.enclosingScope? d = some scope ∧ scope ∈ t.ancestors u) ∨
  ∃ c b, c ∈ t.ancestors u ∧ t.kind? c = some .contractDefinition ∧ b ≠ c ∧
    t.kind? b = some .contractDefinition ∧ t.handle b ∈ t.alone.linearize maxDepth (t.handle c) ∧
    d ∈ t.members b

/-- Around a use stands the scope of whatever belongs to a node around the use. -/
theorem Stage.exists_scope (h : Stage p done τ) (hroot : p.Rooted) {outer : NodeId}
    (hd : d = outer ∨ d ∈ τ.members outer) (houter : outer ∈ p.ancestors u) {y : Symbol}
    (hy : τ.symbol? d = some y) (hdeclares : y.isDeclaration = true) :
    ∃ scope, p.enclosingScope? d = some scope ∧ scope ∈ p.ancestors u := by
  obtain ⟨y', hy', hstem⟩ := exists_symbol?_stems h.stems hy
  obtain ⟨scope, hscope⟩ := Growth.exists_enclosingScope? hroot hy'
    (by rw [Symbol.stem_isDeclaration hstem, hdeclares])
  refine ⟨scope, hscope, ?_⟩
  rcases hd with rfl | hd
  · exact mem_ancestors_trans (List.mem_of_find?_eq_some hscope) houter
  · obtain ⟨-, -, hover⟩ := h.mem_members_iff.1 hd
    rcases hover.enclosingScope? hscope with rfl | hmem
    · exact houter
    · exact mem_ancestors_trans hmem houter

/-- A contract that deals with the uses inside it is a contract. -/
theorem Moment.kind?_of_deals (h : Moment maxDepth p done g id τ u s d) {c : NodeId}
    {left : List NodeId} (hdeals : Growth.Deals g.waiting left id τ u c) :
    p.kind? c = some .contractDefinition := by
  rcases hdeals with ⟨-, ⟨rfl, hk, -⟩ | ⟨hc, -⟩⟩
  · rwa [kind?_stems h.stage.stems] at hk
  · exact (h.complete.waiting c hc).2

/-- What a use is linked to is a declaration of the name and in sight. -/
theorem Moment.inSight (h : Moment maxDepth p done g id τ u s d) (hroot : p.Rooted) (hgrows : τ.Grows t) :
    InSight maxDepth t u d ∧ ∃ y, τ.symbol? d = some y ∧ y.accepts s = true := by
  have hstems := hgrows.stems.trans h.stage.stems
  have hin : ∀ {outer}, τ.meantAt? s outer = some d → outer ∈ p.ancestors u →
      InSight maxDepth t u d ∧ ∃ y, τ.symbol? d = some y ∧ y.accepts s = true := by
    intro outer hmeant houter
    obtain ⟨hd, y, hy, haccepts⟩ := of_meantAt? hmeant
    obtain ⟨scope, hscope, hmem⟩ := h.stage.exists_scope hroot hd houter hy
      (Symbol.isDeclaration_of_accepts haccepts)
    refine ⟨.inl ⟨scope, ?_, ?_⟩, y, hy, haccepts⟩
    · rw [enclosingScope?_stems hstems, hscope]
    · rw [ancestors_stems hstems]
      exact hmem
  cases h.reason with
  | lookedUp hu hmeant =>
      obtain ⟨outer, houter, hmeant⟩ := List.exists_of_findSome?_eq_some hmeant
      refine hin hmeant ?_
      rw [ancestorsInContract_stems h.stage.stems] at houter
      exact (of_mem_ancestorsInContract houter).1
  | @claimed scope y hid hscope hmem hy haccepts hheld =>
      refine ⟨.inl ⟨scope, ?_, ?_⟩, y, hy, haccepts⟩
      · rw [enclosingScope?_stems hgrows.stems, hscope]
      · rw [ancestors_stems hgrows.stems]
        exact hmem
  | around hdeals hmeant =>
      obtain ⟨outer, houter, hmeant⟩ := exists_of_meantAround? hmeant
      have hc := hdeals.1
      rw [ancestors_stems h.stage.stems] at hc houter
      exact hin hmeant (mem_ancestors_trans houter hc)
  | @inherited c hdeals hbase hfound =>
      obtain ⟨b, y, hne, hkind, hlisted, hmember, hy, haccepts⟩ := exists_of_inheritedNode? hfound
      refine ⟨.inr ⟨c, b, ?_, ?_, hne, ?_, ?_, hgrows.mem_members hmember⟩, y, hy, haccepts⟩
      · rw [ancestors_stems hgrows.stems]
        exact hdeals.1
      · rw [kind?_stems hstems]
        exact h.kind?_of_deals hdeals
      · rw [kind?_stems hgrows.stems]
        exact hkind
      · have hlisted := hgrows.mem_linearize hlisted
        rw [← hgrows.handle] at hlisted
        exact hlisted

/-! ## Constructors -/

/-- Whether a node is a constructor. -/
def isConstructor (t : SymbolTree) (id : NodeId) : Bool :=
  match (t.symbol? id).map Symbol.detail with
  | some (.function .constructor _ _ _) => true
  | _ => false

/-- The constructor of a contract. -/
def constructorAt? (t : SymbolTree) (c : NodeId) : Option NodeId :=
  (t.children c).find? t.isConstructor

/-- A tree by itself knows the constructors of its contracts. -/
theorem constructor?_alone (t : SymbolTree) (c : NodeId) :
    t.alone.constructor? (t.handle c) = (t.constructorAt? c).map t.handle := by
  rw [Forest.constructor?, children_alone, List.find?_map, constructorAt?]
  congr 2
  funext k
  have hsymbol : t.alone.symbol? (t.handle k) = t.symbol? k := by rw [symbol?_alone, lookup?_handle]
  exact congrArg (fun s : Option Symbol => match s.map Symbol.detail with
    | some (.function .constructor _ _ _) => true
    | _ => false) hsymbol

/-- Where a use of the tree is linked to, by number. -/
theorem target_alone (t : SymbolTree) (s : Symbol) (d : NodeId) :
    t.alone.target s (t.handle d) =
      if s.kind = .modifierInvocation ∧ t.kind? d = some .contractDefinition then
        t.handle ((t.constructorAt? d).getD d)
      else t.handle d := by
  rw [Forest.target, kind?_alone, constructor?_alone]
  split
  · cases t.constructorAt? d <;> rfl
  · rfl

/-- What is a constructor is seen in the stems. -/
theorem isConstructor_stems (h : t.stems = τ.stems) : t.isConstructor = τ.isConstructor := by
  funext id
  have hdetail := map_symbol?_stems h id (f := Symbol.detail) fun _ => rfl
  rw [isConstructor, isConstructor, hdetail]

/-- A constructor that has been found stays the one that is found. -/
theorem Grows.constructorAt? (h : τ.Grows t) {c k : NodeId} (hk : τ.constructorAt? c = some k) :
    t.constructorAt? c = some k := by
  obtain ⟨row, hrow⟩ := h.children c
  rw [SymbolTree.constructorAt?] at hk ⊢
  rw [← hrow, List.find?_append, isConstructor_stems h.stems, hk]
  rfl

/-- A use stands like a modifier in a contract and names that contract, and the constructor of the
contract is settled behind it. -/
def CallsAhead (t : SymbolTree) (x : Symbol) (u d : NodeId) : Prop :=
  x.kind = .modifierInvocation ∧ t.kind? d = some .contractDefinition ∧ d ∈ t.ancestors u ∧
    ∃ k, t.alone.constructor? (t.handle d) = some (t.handle k) ∧ ¬ t.SettledBefore k u

/-- What a pending use can mean is no contract around it. -/
theorem Moment.not_mem_ancestors (h : Moment maxDepth p done g id τ u s d) (hroot : p.Rooted)
    (hne : u ≠ id) (hname : s.isByName = true) (hk : p.kind? d = some .contractDefinition) {y : Symbol}
    (hy : τ.symbol? d = some y) (haccepts : y.accepts s = true) : d ∉ p.ancestors u := by
  intro hmem
  obtain ⟨s', hs', hstem⟩ := exists_symbol?_stems h.stage.stems h.symbol
  obtain ⟨y', hy', hstem'⟩ := exists_symbol?_stems h.stage.stems hy
  obtain ⟨c, hkc, -, hdc, -⟩ := h.complete.leaves u (h.pending.resolve_left hne).2 s' hs'
    (by rw [Symbol.stem_isByName hstem, hname]) d hmem
    ⟨d, y', .inl rfl, hy', by rw [Symbol.stem_accepts hstem' hstem, haccepts]⟩
  exact hroot.not_mem_ancestors hkc hk hdc

/-- What a use is linked to has been settled, or is being settled, or stands around the use. -/
theorem Moment.settled_or (h : Moment maxDepth p done g id τ u s d) :
    d ∈ done ∨ d = id ∨ d ∈ p.ancestors u := by
  have hat : ∀ {outer}, τ.meantAt? s outer = some d → outer ∈ p.ancestors u →
      d ∈ done ∨ d = id ∨ d ∈ p.ancestors u := by
    intro outer hmeant houter
    rcases (of_meantAt? hmeant).1 with rfl | hd
    · exact .inr (.inr houter)
    · exact .inl (h.stage.mem_members_iff.1 hd).1
  cases h.reason with
  | lookedUp hu hmeant =>
      obtain ⟨outer, houter, hmeant⟩ := List.exists_of_findSome?_eq_some hmeant
      have hmem := (of_mem_ancestorsInContract houter).1
      rw [ancestors_stems h.stage.stems] at hmem
      exact hat hmeant hmem
  | claimed hid => exact .inr (.inl hid)
  | around hdeals hmeant =>
      obtain ⟨outer, houter, hmeant⟩ := exists_of_meantAround? hmeant
      have hc := hdeals.1
      rw [ancestors_stems h.stage.stems] at hc houter
      exact hat hmeant (mem_ancestors_trans houter hc)
  | inherited _ _ hfound =>
      obtain ⟨b, -, -, -, -, hd, -, -⟩ := exists_of_inheritedNode? hfound
      exact .inl (h.stage.mem_members_iff.1 hd).1

/-- The constructor of a contract that a use is linked to is there already, unless the use calls
ahead. -/
theorem Moment.constructorAt?_eq (h : Moment maxDepth p done g id τ u s d) (hroot : p.Rooted)
    (hgrows : τ.Grows t) {all : List NodeId} (hall : p.Stage all t) (hname : s.isByName = true)
    (hmodifier : s.kind = .modifierInvocation) (hk : t.kind? d = some .contractDefinition) {y : Symbol} (hy : τ.symbol? d = some y)
    (haccepts : y.accepts s = true) :
    (t.CallsAhead s u d ∧ τ.constructorAt? d = none) ∨
      (¬ t.CallsAhead s u d ∧ τ.constructorAt? d = t.constructorAt? d) := by
  have hstems := hgrows.stems.trans h.stage.stems
  have hkp : p.kind? d = some .contractDefinition := by rwa [← kind?_stems hstems]
  have hahead : t.CallsAhead s u d ↔ d ∈ p.ancestors u ∧ ∃ k, t.constructorAt? d = some k ∧
      ¬ p.SettledBefore k u := by
    have hsettled : t.SettledBefore = p.SettledBefore := by
      funext a b
      rw [SettledBefore, SettledBefore, ancestors_stems hstems]
    rw [CallsAhead, ancestors_stems hstems, constructor?_alone, hsettled]
    simp only [hmodifier, hk, true_and, Option.map_eq_some_iff]
    refine and_congr_right fun _ => exists_congr fun k => and_congr_left fun _ => ?_
    constructor
    · rintro ⟨k', hk', heq⟩
      obtain rfl : k' = k := congrArg Handle.node heq
      exact hk'
    · exact fun hk' => ⟨k, hk', rfl⟩
  rw [hahead]
  cases hfound : τ.constructorAt? d with
  | some k =>
      have hdone := (h.stage.mem_children_iff.1 (List.mem_of_find?_eq_some hfound)).1
      refine .inr ⟨fun ⟨hmem, k', hk', hnot⟩ => ?_, (hgrows.constructorAt? hfound).symm⟩
      obtain rfl : k' = k := Option.some.inj (hk'.symm.trans (hgrows.constructorAt? hfound))
      by_cases heq : u = id
      · rw [heq] at hnot
        exact hnot ((h.turn.mem_iff k').1 hdone).2
      · exact h.not_mem_ancestors hroot heq hname hkp hy haccepts hmem
  | none =>
      cases hlast : t.constructorAt? d with
      | none => exact .inr ⟨fun ⟨_, k, hk', _⟩ => (nomatch hk'), rfl⟩
      | some k =>
          have hparent := (hall.mem_children_iff.1 (List.mem_of_find?_eq_some hlast)).2
          have hconstructor : τ.isConstructor k = true := by
            rw [← isConstructor_stems hgrows.stems]
            exact List.find?_some hlast
          have hinside := mem_ancestors_of_parent hparent
          have hnot : k ∉ done := fun hdone =>
            List.find?_eq_none.1 hfound k (h.stage.mem_children_iff.2 ⟨hdone, hparent⟩) hconstructor
          rcases h.settled_or with hdone | rfl | hmem
          · exact absurd (h.turn.inside d hdone k hinside) hnot
          · exact absurd ((h.turn.mem_iff k).2 ⟨lt_size_of_mem_ancestors hinside, .inl hinside⟩) hnot
          · refine .inl ⟨⟨hmem, k, rfl, fun hbefore => hnot ?_⟩, rfl⟩
            have heq : u = id := by
              by_contra hne
              exact h.not_mem_ancestors hroot hne hname hkp hy haccepts hmem
            rw [heq] at hbefore
            exact (h.turn.mem_iff k).2 ⟨lt_size_of_mem_ancestors hinside, hbefore⟩

/-! ## Whole texts -/

/-- What a use of a growing tree that is looked up by name is linked to. -/
theorem Underway.exists_inSight {row rest : List NodeId} (hway : Underway p done (row ++ rest) g)
    (ht : (row.foldl (Growth.settle maxDepth) g).tree = t) (hnone : g.tree.found? u = none)
    (hx : t.symbol? u = some x) (hname : x.isByName = true) {h : Handle} (hh : x.declaration = some h) :
    ∃ d y, t.symbol? d = some y ∧ y.accepts x = true ∧ t.InSight maxDepth u d ∧
      (t.CallsAhead x u d ∧ h = t.handle d ∨
        ¬ t.CallsAhead x u d ∧ h = t.alone.target x (t.handle d)) := by
  subst ht
  have hall := (hway.foldl_settle maxDepth).complete.stage
  obtain ⟨x', hx', hstem⟩ := exists_symbol?_stems hall.stems hx
  have hfound : (row.foldl (Growth.settle maxDepth) g).tree.found? u = some h := by
    rw [found?, hx, Option.bind_some, hh]
  obtain ⟨pre, id, post, τ, s, d, -, hmoment, hgrows, rfl⟩ := hway.exists_moment hx'
    (by rw [Symbol.stem_isByName hstem, hname]) hnone hfound
  obtain ⟨hsight, y, hy, haccepts⟩ := hmoment.inSight hway.rooted hgrows
  obtain ⟨y', hy', hstemy⟩ := exists_symbol?_stems hgrows.stems.symm hy
  obtain ⟨x₁, hx₁, hstemx⟩ := exists_symbol?_stems hgrows.stems.symm hmoment.symbol
  obtain rfl : x = x₁ := Option.some.inj (hx.symm.trans hx₁)
  have hkind := Symbol.stem_kind hstemx
  refine ⟨d, y', hy', by rw [Symbol.stem_accepts hstemy hstemx, haccepts], hsight, ?_⟩
  have hahead : ∀ t' : SymbolTree, t'.CallsAhead x u d ↔ t'.CallsAhead s u d := fun t' => by
    rw [CallsAhead, CallsAhead, hkind]
  rw [hahead, target_alone, target_alone, hkind, kind?_stems hgrows.stems, hgrows.handle]
  split
  · rename_i hcalls
    have hk := hcalls.2
    rw [← kind?_stems hgrows.stems] at hk
    rcases hmoment.constructorAt?_eq hway.rooted hgrows hall
      (by rw [← Symbol.stem_isByName hstemx, hname]) hcalls.1 hk hy haccepts with ⟨hcalls, heq⟩ | ⟨hcalls, heq⟩
    · rw [heq]
      exact .inl ⟨hcalls, rfl⟩
    · rw [heq]
      exact .inr ⟨hcalls, rfl⟩
  · rename_i hcalls
    refine .inr ⟨fun hahead => hcalls ⟨hahead.1, ?_⟩, rfl⟩
    rw [← kind?_stems hgrows.stems]
    exact hahead.2.1

/-- Whatever the text: what a use that is looked up by name is linked to is a declaration of the name
that the use sees, or its constructor. Only a use that calls ahead is linked to the contract although
this has a constructor. -/
theorem exists_inSight_of_declaration (maxDepth file generation : Nat) (m : LineMap) (text : String)
    {u : NodeId} {x : Symbol} {h : Handle}
    (hx : (grow maxDepth file generation m (parse text).tree).symbol? u = some x)
    (hname : x.isByName = true) (hh : x.declaration = some h) :
    ∃ d y, (grow maxDepth file generation m (parse text).tree).symbol? d = some y ∧
      y.accepts x = true ∧
      (grow maxDepth file generation m (parse text).tree).InSight maxDepth u d ∧
      ((grow maxDepth file generation m (parse text).tree).CallsAhead x u d ∧
          h = (grow maxDepth file generation m (parse text).tree).handle d ∨
        ¬ (grow maxDepth file generation m (parse text).tree).CallsAhead x u d ∧
          h = (grow maxDepth file generation m (parse text).tree).alone.target x
            ((grow maxDepth file generation m (parse text).tree).handle d)) := by
  have hway := underway_planted file generation m text
  exact hway.whole.exists_inSight rfl (found?_planted _ _ _ _ _) hx hname hh

/-- A contract that is named like a modifier inside, ahead of its constructor. -/
def callAheadText : String :=
  "contract A \x7b function f() A \x7b\x7d constructor() \x7b\x7d \x7d"

/-- The symbols of this contract. -/
def callAhead : SymbolTree :=
  grow defaultMaxDepth 0 1 (.ofText callAheadText) (parse callAheadText).tree

/-- A call of a function that stands ahead of it is resolved in sight. -/
theorem exists_inSight_callAhead : ∃ x h, callAhead.symbol? 4 = some x ∧ x.isByName = true ∧
    x.declaration = some h ∧ ∃ d y, callAhead.symbol? d = some y ∧ y.accepts x = true ∧
      callAhead.InSight defaultMaxDepth 4 d ∧
      (callAhead.CallsAhead x 4 d ∧ h = callAhead.handle d ∨
        ¬ callAhead.CallsAhead x 4 d ∧ h = callAhead.alone.target x (callAhead.handle d)) := by
  have hlinked : (callAhead.symbol? 4).any (fun x => x.isByName && x.declaration.isSome) = true := by
    decide +kernel
  obtain ⟨x, hx, hand⟩ := (Option.any_eq_true _ _).1 hlinked
  obtain ⟨hname, hsome⟩ := Bool.and_eq_true_iff.1 hand
  obtain ⟨h, hh⟩ := Option.isSome_iff_exists.1 hsome
  exact ⟨x, h, hx, hname, hh, exists_inSight_of_declaration _ _ _ _ _ hx hname hh⟩

/-- The constructor is not what this use is linked to, nor is anything else that some declaration of
the name stands for. -/
theorem ne_target_callAhead : ∃ x h, callAhead.symbol? 4 = some x ∧ x.isByName = true ∧
    x.declaration = some h ∧ ∀ d y, callAhead.symbol? d = some y → y.accepts x = true →
      h ≠ callAhead.alone.target x (callAhead.handle d) := by
  have hlinked : (callAhead.symbol? 4).any (fun x => x.isByName && x.declaration.any fun h =>
      (List.range callAhead.size).all fun d => (callAhead.symbol? d).all fun y =>
        ! y.accepts x || h != callAhead.alone.target x (callAhead.handle d)) = true := by
    decide +kernel
  obtain ⟨x, hx, hand⟩ := (Option.any_eq_true _ _).1 hlinked
  obtain ⟨hname, hany⟩ := Bool.and_eq_true_iff.1 hand
  obtain ⟨h, hh, hall⟩ := (Option.any_eq_true _ _).1 hany
  refine ⟨x, h, hx, hname, hh, fun d y hy haccepts heq => ?_⟩
  have hd := List.all_eq_true.1 hall d (List.mem_range.2 (lt_size_of_symbol? hy))
  rw [hy, Option.all_some, haccepts, heq] at hd
  simp at hd

end SymbolTree

end SolidityAtlas

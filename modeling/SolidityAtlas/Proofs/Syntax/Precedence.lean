import SolidityAtlas.Proofs.Syntax.Operators

/-!
# Expressions are read by the ladder

A row of tokens that some term is written with, respecting the ladder of levels, is read back as
the tree of that term (`parseExpression_leaves`). So the powers of the operators, the marks at
which nodes are opened and the order of the goals come to what the ladder says.

When an expression is wanted whose operators have at least the power `min`, the tokens of a term
are taken and an operator behind it is looked for (`Term.LeadsTo`). Whether such an operator belongs
to the term or to what is around it is settled by comparing powers. The right side of a term asks
for the right power of its level, and an operator behind the term is left to what is around if its
left power is smaller (`Term.StopsAt`).

## Main Definitions

* `Term.LeadsTo`: what is left to be pursued when the tokens of a term have been taken
* `Term.Legible`: the tokens of a term are read as its tree wherever a term of its level may stand

## Main Results

* `Term.legible`: every term that respects the ladder is legible
* `parseExpression_leaves`: an expression is read by the ladder
-/

namespace SolidityAtlas

open Grammar

/-- A row that is mapped to one with a last element has a last element. -/
theorem map_eq_concat_iff {α β : Type} {f : α → β} {xs : List α} {ys : List β} {y : β} :
    xs.map f = ys ++ [y] ↔ ∃ front last, xs = front ++ [last] ∧ front.map f = ys ∧ f last = y := by
  constructor
  · intro h
    obtain ⟨front, ends, rfl, hfront, hends⟩ := List.map_eq_append_iff.1 h
    obtain ⟨last, rfl, hlast⟩ := List.map_eq_singleton_iff.1 hends
    exact ⟨front, last, rfl, hfront, hlast⟩
  · rintro ⟨front, last, rfl, rfl, rfl⟩
    rw [List.map_append, List.map_singleton]

/-- The word of a token tells its kind. -/
theorem Token.kind_eq_of_word {t : Token} {word : TokenKind × String} (h : t.word = word) :
    t.kind = word.1 :=
  congrArg Prod.fst h

/-- The word of a token tells its leaf. -/
theorem Draft.leafOf_eq_of_word {t : Token} {word : TokenKind × String} (h : t.word = word) :
    Draft.leafOf t = Term.leafOf word := by
  rw [← h]
  rfl

namespace Term

/-- A token does not go on with a term. It starts no access and no call, and it is no operator that
has the term at its left. -/
structure StopsAt (e : Term) (t : Token) : Prop where
  solid : t.isTrivia = false
  suffix : startsSuffix t.kind = false
  power : ∀ level, t.kind.level? = some level → leftPower level < rightPower e.level

/-- Where an expression with operators of the power `min` is wanted and `t` follows the tokens of a
term, the term is read and `next` is left to be pursued. The goals of `next` may refer to the mark
in front of the term. -/
def LeadsTo (e : Term) (min : Nat) (t : Token) (next : Nat → List Goal) : Prop :=
  ∀ (ts rest : List Token) (k : NodeKind) (taken : List SyntaxTree) (outer : List Frame)
    (faults : List Fault) (n : Nat) (gs : List Goal), ts.map Token.word = e.leaves →
    pursue (.expression min :: gs) ⟨ts ++ t :: rest, ⟨k, taken⟩, outer, faults, n⟩ =
      pursue (next taken.length ++ gs) ⟨t :: rest, ⟨k, e.tree :: taken⟩, outer, faults, n⟩

/-- The tokens of a term are read as its tree wherever a term of its level may stand. -/
structure Legible (e : Term) : Prop where
  level_pos : 0 < e.level
  /-- Its first token starts an expression. -/
  starts : ∃ word words, e.leaves = word :: words ∧ startsExpression word.1 = true
  /-- A term that is closed in itself may be followed by accesses and calls. -/
  suffixed : suffixLevel ≤ e.level → ∃ last, ∀ min t, t.isTrivia = false →
    e.LeadsTo min t fun mark => [.suffixes mark last, .operators mark min]
  /-- Operators may follow it. -/
  reads : ∀ min t, min < 2 * e.level → e.StopsAt t →
    e.LeadsTo min t fun mark => [.operators mark min]

/-! ## Powers -/

variable {e : Term}

/-- What stops a term stops a term that binds more tightly. -/
theorem StopsAt.of_level_le {t : Token} {e' : Term} (h : e.StopsAt t) (hle : e.level ≤ e'.level) :
    e'.StopsAt t :=
  ⟨h.solid, h.suffix, fun level hlevel =>
    Nat.lt_of_lt_of_le (h.power level hlevel) (rightPower_mono hle)⟩

/-- A token that is no operator and starts no access stops every term. -/
theorem stopsAt_of_level?_none {t : Token} (hsolid : t.isTrivia = false)
    (hsuffix : startsSuffix t.kind = false) (hlevel : t.kind.level? = none) : e.StopsAt t :=
  ⟨hsolid, hsuffix, fun level h => by rw [hlevel] at h; cases h⟩

/-- An operator stops the operand at its left. -/
theorem stopsAt_of_level?_some {t : Token} {level : Nat} (hlevel : t.kind.level? = some level)
    (h : if groupsRight level then level < e.level else level ≤ e.level) : e.StopsAt t := by
  refine ⟨not_isTrivia_of_level? hlevel, not_startsSuffix_of_level? hlevel, ?_⟩
  intro other hother
  obtain rfl : level = other := Option.some.inj (hlevel.symm.trans hother)
  exact leftPower_lt_of_left (level?_bounds hlevel).1 h

/-! ## Terms that are closed in themselves -/

/-- A term that is read up to the accesses and calls behind it is read if none follow. -/
theorem Legible.of_suffixed (hlevel : e.level = suffixLevel)
    (starts : ∃ word words, e.leaves = word :: words ∧ startsExpression word.1 = true)
    (suffixed : ∃ last, ∀ min t, t.isTrivia = false →
      e.LeadsTo min t fun mark => [.suffixes mark last, .operators mark min]) :
    e.Legible := by
  refine ⟨by rw [hlevel]; decide, starts, fun _ => suffixed, ?_⟩
  intro min t _ hstops ts rest k taken outer faults n gs hts
  obtain ⟨last, hlast⟩ := suffixed
  rw [hlast min t hstops.solid ts rest k taken outer faults n gs hts]
  exact pursue_suffixes_of_stops (by rw [Draft.kind_cons hstops.solid]; exact hstops.suffix)

/-- The first token of a term starts an expression. -/
theorem Legible.exists_first (h : e.Legible) {ts : List Token}
    (hts : ts.map Token.word = e.leaves) :
    ∃ first behind, ts = first :: behind ∧ startsExpression first.kind = true := by
  obtain ⟨word, words, hleaves, hword⟩ := h.starts
  rw [hleaves, List.map_eq_cons_iff] at hts
  obtain ⟨first, behind, rfl, hfirst, _⟩ := hts
  exact ⟨first, behind, rfl, by rw [Token.kind_eq_of_word hfirst, hword]⟩

/-- A draft in front of a term is in front of an expression. -/
theorem Legible.startsExpression_kind (h : e.Legible) {ts : List Token}
    (hts : ts.map Token.word = e.leaves) {rest : List Token} {top : Frame} {outer : List Frame}
    {faults : List Fault} {n : Nat} :
    startsExpression (⟨ts ++ rest, top, outer, faults, n⟩ : Draft).kind = true := by
  obtain ⟨first, behind, rfl, hfirst⟩ := h.exists_first hts
  rwa [List.cons_append, Draft.kind_cons (not_isTrivia_of_startsExpression hfirst)]

/-- An expression of any kind is read up to a token that stops every term. -/
theorem Legible.pursue_expression_zero (h : e.Legible) {t : Token}
    (hsolid : t.isTrivia = false) (hsuffix : startsSuffix t.kind = false)
    (hnone : t.kind.level? = none) {ts rest : List Token} {k : NodeKind} {taken : List SyntaxTree}
    {outer : List Frame} {faults : List Fault} {n : Nat} {gs : List Goal}
    (hts : ts.map Token.word = e.leaves) :
    pursue (.expression 0 :: gs) ⟨ts ++ t :: rest, ⟨k, taken⟩, outer, faults, n⟩ =
      pursue gs ⟨t :: rest, ⟨k, e.tree :: taken⟩, outer, faults, n⟩ := by
  have hpos := h.level_pos
  rw [h.reads 0 t (by omega) (stopsAt_of_level?_none hsolid hsuffix hnone) ts rest k taken outer
    faults n gs hts]
  refine pursue_operators_of_stops ?_
  intro level hlevel
  rw [Draft.kind_cons hsolid, hnone] at hlevel
  cases hlevel

/-- A name is legible. -/
theorem legible_name {word : TokenKind × String} (h : word.1.isName = true) :
    (name word).Legible := by
  have hstarts : startsExpression word.1 = true := by
    generalize word.1 = kind at h
    cases kind <;> first | rfl | cases h
  refine .of_suffixed rfl ⟨word, [], by rw [leaves], hstarts⟩ ⟨none, ?_⟩
  intro min t _ ts rest k taken outer faults n gs hts
  rw [leaves, List.map_eq_singleton_iff] at hts
  obtain ⟨first, rfl, hfirst⟩ := hts
  rw [List.cons_append, List.nil_append,
    pursue_expression_name (by rw [Token.kind_eq_of_word hfirst, h]), ← hfirst, tree]
  rfl

/-- A term in parentheses is legible, whatever the level inside. -/
theorem legible_tuple {inner : Term} (h : inner.Legible) : (tuple inner).Legible := by
  refine .of_suffixed rfl ⟨_, _, by rw [leaves], rfl⟩ ⟨none, ?_⟩
  intro min t _ ts rest k taken outer faults n gs hts
  rw [leaves, List.map_eq_cons_iff] at hts
  obtain ⟨opening, behindOpening, rfl, hopening, hbehind⟩ := hts
  obtain ⟨middle, closing, rfl, hmiddle, hclosing⟩ := map_eq_concat_iff.1 hbehind
  have hkind : closing.kind = .rParen := Token.kind_eq_of_word hclosing
  have hsolid : closing.isTrivia = false := by rw [Token.isTrivia, hkind]; rfl
  rw [List.cons_append, List.append_assoc, List.cons_append, List.nil_append,
    pursue_expression_lParen (Token.kind_eq_of_word hopening),
    pursue_tupleItems (h.startsExpression_kind hmiddle),
    h.pursue_expression_zero hsolid (by rw [hkind]; rfl) (by rw [hkind]; rfl) hmiddle,
    pursue_moreTupleItems_rParen hkind, Draft.leafOf_eq_of_word hopening,
    Draft.leafOf_eq_of_word hclosing, tree]
  rfl

/-! ## Accesses, calls and operators behind -/

/-- A term goes on with an access, a call or an operator behind if that is read as such. -/
theorem Legible.of_base {base : Term} {word : TokenKind × String}
    {words : List (TokenKind × String)} (kind : NodeKind) (h : base.Legible)
    (hbase : suffixLevel ≤ base.level) (hlevel : e.level = suffixLevel)
    (hleaves : e.leaves = base.leaves ++ word :: words) (hword : word.1.isTrivia = false)
    (suffix : ∀ {t : Token} {ts : List Token} {next : Token} {rest : List Token} {k : NodeKind}
      {taken : List SyntaxTree} {outer : List Frame} {faults : List Fault} {n : Nat}
      {gs : List Goal} {last : Option NodeKind}, t.word = word → ts.map Token.word = words →
      pursue (.suffixes taken.length last :: gs)
          ⟨t :: (ts ++ next :: rest), ⟨k, base.tree :: taken⟩, outer, faults, n⟩ =
        pursue (.suffixes taken.length (some kind) :: gs)
          ⟨next :: rest, ⟨k, e.tree :: taken⟩, outer, faults, n⟩) :
    e.Legible := by
  obtain ⟨last, hlast⟩ := h.suffixed hbase
  obtain ⟨start, starts, hstarts, hstart⟩ := h.starts
  refine .of_suffixed hlevel ⟨start, _, by rw [hleaves, hstarts, List.cons_append], hstart⟩
    ⟨some kind, ?_⟩
  intro min next _ ts rest k taken outer faults n gs hts
  rw [hleaves, List.map_eq_append_iff] at hts
  obtain ⟨front, ends, rfl, hfront, hends⟩ := hts
  rw [List.map_eq_cons_iff] at hends
  obtain ⟨t, us, rfl, ht, hus⟩ := hends
  have hsolid : t.isTrivia = false := by rwa [Token.isTrivia, Token.kind_eq_of_word ht]
  rw [List.append_assoc, List.cons_append,
    hlast min t hsolid front (us ++ next :: rest) k taken outer faults n gs hfront]
  exact suffix ht hus

/-- An access is legible behind a term that is closed in itself. -/
theorem legible_access {base : Term} {member : TokenKind × String} (h : base.Legible)
    (hbase : suffixLevel ≤ base.level) (hmember : (member.1.isName || member.1.isKeyword) = true) :
    (access base member).Legible := by
  refine .of_base .memberAccess h hbase rfl (by rw [leaves]) rfl ?_
  intro t ts next rest k taken outer faults n gs last ht hts
  obtain ⟨u, rfl, hu⟩ := List.map_eq_singleton_iff.1 hts
  rw [List.cons_append, List.nil_append, pursue_suffixes_dot (Token.kind_eq_of_word ht)
    (by rwa [Token.kind_eq_of_word hu]), Draft.leafOf_eq_of_word ht, ← hu, tree]
  rfl

/-- An operator behind its operand is legible if the operand is closed in itself. -/
theorem legible_behind {operand : Term} {operator : TokenKind × String} (h : operand.Legible)
    (hoperand : suffixLevel ≤ operand.level) (hoperator : operator.1 ∈ behindOperators) :
    (behind operand operator).Legible := by
  have hsolid : operator.1.isTrivia = false := by
    simp only [behindOperators, List.mem_cons, List.not_mem_nil, or_false] at hoperator
    rcases hoperator with h | h <;> rw [h] <;> rfl
  refine .of_base .unaryOperation h hoperand rfl (by rw [leaves]) hsolid ?_
  intro t ts next rest k taken outer faults n gs last ht hts
  obtain rfl := List.map_eq_nil_iff.1 hts
  rw [List.nil_append, pursue_suffixes_behind (by rwa [Token.kind_eq_of_word ht]),
    Draft.leafOf_eq_of_word ht, tree]

/-- An index is legible behind a term that is closed in itself. -/
theorem legible_index {base inner : Term} (h : base.Legible) (hbase : suffixLevel ≤ base.level)
    (hinner : inner.Legible) : (index base inner).Legible := by
  refine .of_base .indexAccess h hbase rfl (by rw [leaves]) rfl ?_
  intro t ts next rest k taken outer faults n gs last ht hts
  obtain ⟨middle, closing, rfl, hmiddle, hclosing⟩ := map_eq_concat_iff.1 hts
  have hkind : closing.kind = .rBracket := Token.kind_eq_of_word hclosing
  have hsolid : closing.isTrivia = false := by rw [Token.isTrivia, hkind]; rfl
  rw [List.append_assoc, List.cons_append, List.nil_append,
    pursue_suffixes_lBracket (Token.kind_eq_of_word ht) (hinner.startsExpression_kind hmiddle),
    hinner.pursue_expression_zero hsolid (by rw [hkind]; rfl) (by rw [hkind]; rfl) hmiddle,
    pursue_indexMiddle_rBracket hkind, Draft.leafOf_eq_of_word ht,
    Draft.leafOf_eq_of_word hclosing, tree]
  rfl

/-- An argument is read up to the comma or the parenthesis behind it. -/
theorem Legible.pursue_arguments {es : List Term} (h : e.Legible) {ts more rest : List Token}
    {closing : Token} {k : NodeKind} {taken : List SyntaxTree} {outer : List Frame}
    {faults : List Fault} {n : Nat} {gs : List Goal} (hts : ts.map Token.word = e.leaves)
    (hmore : more.map Token.word = moreLeaves es) (hclosing : closing.kind = .rParen) :
    pursue (.arguments :: gs) ⟨ts ++ (more ++ closing :: rest), ⟨k, taken⟩, outer, faults, n⟩ =
      pursue (.moreArguments :: gs)
        ⟨more ++ closing :: rest, ⟨k, e.tree :: taken⟩, outer, faults, n⟩ := by
  obtain ⟨next, behind, hnext, hkind⟩ : ∃ next behind, more ++ closing :: rest = next :: behind ∧
      (next.kind = .comma ∨ next.kind = .rParen) := by
    cases es with
    | nil =>
        rw [moreLeaves, List.map_eq_nil_iff] at hmore
        exact ⟨closing, rest, by rw [hmore, List.nil_append], .inr hclosing⟩
    | cons =>
        rw [moreLeaves, List.map_eq_cons_iff] at hmore
        obtain ⟨comma, behind, rfl, hcomma, _⟩ := hmore
        exact ⟨comma, behind ++ closing :: rest, rfl, .inl (Token.kind_eq_of_word hcomma)⟩
  rw [SolidityAtlas.pursue_arguments (h.startsExpression_kind hts), hnext]
  refine h.pursue_expression_zero ?_ ?_ ?_ hts
  · rcases hkind with hkind | hkind <;> rw [Token.isTrivia, hkind] <;> rfl
  · rcases hkind with hkind | hkind <;> rw [hkind] <;> rfl
  · rcases hkind with hkind | hkind <;> rw [hkind] <;> rfl

/-- Arguments are read up to the closing parenthesis. -/
theorem pursue_moreArguments {es : List Term} (h : ∀ e ∈ es, e.Legible) {ts rest : List Token}
    {closing : Token} {k kind : NodeKind} {inner taken : List SyntaxTree} {outer : List Frame}
    {faults : List Fault} {n : Nat} {gs : List Goal} (hts : ts.map Token.word = moreLeaves es)
    (hclosing : closing.kind = .rParen) :
    pursue (.moreArguments :: gs)
        ⟨ts ++ closing :: rest, ⟨kind, inner⟩, ⟨k, taken⟩ :: outer, faults, n⟩ =
      pursue gs ⟨rest, ⟨k, .node kind (inner.reverse ++
        (moreTrees es ++ [Draft.leafOf closing])) :: taken⟩, outer, faults, n⟩ := by
  induction es generalizing ts inner with
  | nil =>
      rw [moreLeaves, List.map_eq_nil_iff] at hts
      subst hts
      rw [List.nil_append, pursue_moreArguments_rParen hclosing, List.reverse_cons, moreTrees,
        List.nil_append]
  | cons e es ih =>
      rw [moreLeaves, List.map_eq_cons_iff] at hts
      obtain ⟨comma, behindComma, rfl, hcomma, hbehind⟩ := hts
      rw [List.map_eq_append_iff] at hbehind
      obtain ⟨argument, more, rfl, hargument, hmore⟩ := hbehind
      have he : e.Legible := h e List.mem_cons_self
      rw [List.cons_append, List.append_assoc,
        pursue_moreArguments_comma (Token.kind_eq_of_word hcomma),
        he.pursue_arguments hargument hmore hclosing,
        ih (fun e' he' => h e' (List.mem_cons_of_mem e he')) hmore,
        Draft.leafOf_eq_of_word hcomma, moreTrees]
      simp [leafOf]

/-- A call is legible behind a term that is closed in itself. -/
theorem legible_call {callee : Term} {arguments : List Term} (h : callee.Legible)
    (hcallee : suffixLevel ≤ callee.level) (harguments : ∀ e ∈ arguments, e.Legible) :
    (call callee arguments).Legible := by
  refine .of_base .functionCall h hcallee rfl (by rw [leaves]) rfl ?_
  intro t ts next rest k taken outer faults n gs last ht hts
  obtain ⟨middle, closing, rfl, hmiddle, hclosing⟩ := map_eq_concat_iff.1 hts
  have hkind : closing.kind = .rParen := Token.kind_eq_of_word hclosing
  have hsolid : closing.isTrivia = false := by rw [Token.isTrivia, hkind]; rfl
  rw [List.append_assoc, List.cons_append, List.nil_append]
  cases arguments with
  | nil =>
      rw [argumentLeaves, List.map_eq_nil_iff] at hmiddle
      subst hmiddle
      rw [List.nil_append, pursue_suffixes_lParen (Token.kind_eq_of_word ht)
          (by rw [Draft.isAt, Draft.kind_cons hsolid, hkind]; rfl),
        pursue_arguments_rParen hkind, pursue_close, Draft.leafOf_eq_of_word ht,
        Draft.leafOf_eq_of_word hclosing, tree, argumentTrees]
      rfl
  | cons e es =>
      rw [argumentLeaves, List.map_eq_append_iff] at hmiddle
      obtain ⟨argument, more, rfl, hargument, hmore⟩ := hmiddle
      have he : e.Legible := harguments e List.mem_cons_self
      rw [List.append_assoc, pursue_suffixes_lParen (Token.kind_eq_of_word ht)
          (isAt_of_startsExpression (he.startsExpression_kind hargument) rfl),
        he.pursue_arguments hargument hmore hkind,
        pursue_moreArguments (fun e' he' => harguments e' (List.mem_cons_of_mem e he')) hmore hkind,
        pursue_close, Draft.leafOf_eq_of_word ht, Draft.leafOf_eq_of_word hclosing, tree,
        argumentTrees]
      rfl

/-! ## Operators -/

/-- An operator in front of its operand is legible if the operand binds as tight. -/
theorem legible_front {operator : TokenKind × String} {operand : Term}
    (hoperator : operator.1 ∈ frontOperators) (h : operand.Legible)
    (hoperand : frontLevel ≤ operand.level) : (front operator operand).Legible := by
  have hfront : isUnaryFront operator.1 = true := by
    simp only [frontOperators, List.mem_cons, List.not_mem_nil, or_false] at hoperator
    rcases hoperator with h | h | h | h | h | h <;> rw [h] <;> rfl
  refine ⟨Nat.succ_pos _, ⟨operator, _, by rw [leaves], by rw [startsExpression, hfront]; rfl⟩,
    fun hsuffix => absurd hsuffix (Nat.not_succ_le_self _), ?_⟩
  intro min next _ hstops ts rest k taken outer faults n gs hts
  rw [leaves, List.map_eq_cons_iff] at hts
  obtain ⟨t, operandTokens, rfl, ht, hts⟩ := hts
  rw [List.cons_append, pursue_expression_front (by rwa [Token.kind_eq_of_word ht]),
    pursue_operand (h.startsExpression_kind hts),
    h.reads unaryPower next (by unfold unaryPower; unfold frontLevel at hoperand; omega)
      (hstops.of_level_le hoperand) operandTokens rest _ _ _ _ _ _ hts,
    List.cons_append, List.nil_append, pursue_operators_of_stops, pursue_close,
    Draft.leafOf_eq_of_word ht, tree]
  · rfl
  · intro level hlevel
    rw [Draft.kind_cons hstops.solid] at hlevel
    have := (level?_bounds hlevel).2
    have := (leftPower_bounds level).2
    unfold unaryPower
    omega

/-- A binary term is legible if both sides bind tighter, or as tight on the side it groups to. -/
theorem legible_binary {left right : Term} {operator : TokenKind × String} {level : Nat}
    (hleft : left.Legible) (hright : right.Legible) (hquestion : operator.1 ≠ .question)
    (hlevel : operator.1.level? = some level)
    (hsides : if groupsRight level then level < left.level ∧ level ≤ right.level
      else level ≤ left.level ∧ level < right.level) :
    (binary left operator right).Legible := by
  have hbounds := level?_bounds hlevel
  have hown : (binary left operator right).level = level := by
    rw [Term.level, hlevel, Option.getD_some]
  have hleftSide : if groupsRight level then level < left.level else level ≤ left.level := by
    split at hsides <;> simp_all
  have hrightSide : if groupsRight level then level ≤ right.level else level < right.level := by
    split at hsides <;> simp_all
  have hleftLevel : level ≤ left.level := by split at hleftSide <;> omega
  have hrightLevel : level ≤ right.level := by split at hrightSide <;> omega
  obtain ⟨start, starts, hstarts, hstart⟩ := hleft.starts
  refine ⟨by omega, ⟨start, _, by rw [leaves, hstarts, List.cons_append], hstart⟩,
    fun hsuffix => ?_, ?_⟩
  · unfold suffixLevel at hsuffix
    omega
  intro min next hmin hstops ts rest k taken outer faults n gs hts
  rw [leaves, List.map_eq_append_iff] at hts
  obtain ⟨leftTokens, ends, rfl, hleftTokens, hends⟩ := hts
  rw [List.map_eq_cons_iff] at hends
  obtain ⟨t, rightTokens, rfl, ht, hrightTokens⟩ := hends
  have hkind : t.kind.level? = some level := by rw [Token.kind_eq_of_word ht, hlevel]
  have hreach : min ≤ leftPower level := by
    have := (leftPower_bounds level).1
    omega
  rw [List.append_assoc, List.cons_append,
    hleft.reads min t (by omega) (stopsAt_of_level?_some hkind hleftSide) leftTokens _ _ _ _ _ _ _
      hleftTokens,
    List.cons_append, List.nil_append,
    pursue_operators_binary (by rwa [Token.kind_eq_of_word ht]) hkind hreach,
    pursue_operand (hright.startsExpression_kind hrightTokens),
    hright.reads _ next (rightPower_lt_of_right hbounds.1 hrightSide)
      (hstops.of_level_le (by omega)) rightTokens rest _ _ _ _ _ _ hrightTokens,
    List.cons_append, List.nil_append, pursue_operators_of_stops, pursue_close,
    Draft.leafOf_eq_of_word ht, tree]
  · rfl
  · intro other hother
    rw [Draft.kind_cons hstops.solid] at hother
    exact hown ▸ hstops.power other hother

/-- A conditional is legible if its condition binds tighter than it does itself, and what stands
behind the colon at least as tight. -/
theorem legible_conditional {condition middle otherwise : Term} (hcondition : condition.Legible)
    (hmiddle : middle.Legible) (hotherwise : otherwise.Legible) (htight : 2 < condition.level)
    (helse : 2 ≤ otherwise.level) : (conditional condition middle otherwise).Legible := by
  obtain ⟨start, starts, hstarts, hstart⟩ := hcondition.starts
  refine ⟨Nat.succ_pos _, ⟨start, _, by rw [leaves, hstarts, List.cons_append], hstart⟩,
    fun hsuffix => absurd (show 15 ≤ 2 from hsuffix) (by decide), ?_⟩
  intro min next hmin hstops ts rest k taken outer faults n gs hts
  have hmin : min < 4 := hmin
  rw [leaves, List.map_eq_append_iff] at hts
  obtain ⟨conditionTokens, ends, rfl, hconditionTokens, hends⟩ := hts
  rw [List.map_eq_cons_iff] at hends
  obtain ⟨question, behindQuestion, rfl, hquestion, hbehind⟩ := hends
  rw [List.map_eq_append_iff] at hbehind
  obtain ⟨middleTokens, ends, rfl, hmiddleTokens, hends⟩ := hbehind
  rw [List.map_eq_cons_iff] at hends
  obtain ⟨colon, elseTokens, rfl, hcolon, helseTokens⟩ := hends
  have hquestionKind : question.kind = .question := Token.kind_eq_of_word hquestion
  have hcolonKind : colon.kind = .colon := Token.kind_eq_of_word hcolon
  have hcolonSolid : colon.isTrivia = false := by rw [Token.isTrivia, hcolonKind]; rfl
  have hlevel : question.kind.level? = some 2 := by rw [hquestionKind]; rfl
  have hstopsCondition : condition.StopsAt question := stopsAt_of_level?_some hlevel htight
  rw [List.append_assoc, List.cons_append, List.append_assoc, List.cons_append,
    hcondition.reads min question (by omega) hstopsCondition conditionTokens _ _ _ _ _ _ _
      hconditionTokens,
    List.cons_append, List.nil_append,
    pursue_operators_question hquestionKind (by unfold conditionalPower; omega),
    hmiddle.pursue_expression_zero hcolonSolid (by rw [hcolonKind]; rfl) (by rw [hcolonKind]; rfl)
      hmiddleTokens,
    pursue_expect hcolonKind rfl,
    hotherwise.reads elsePower next (by unfold elsePower; omega) (hstops.of_level_le helse)
      elseTokens rest _ _ _ _ _ _ helseTokens,
    List.cons_append, List.nil_append, pursue_operators_of_stops, pursue_close,
    Draft.leafOf_eq_of_word hquestion, Draft.leafOf_eq_of_word hcolon, tree]
  · rfl
  · intro other hother
    rw [Draft.kind_cons hstops.solid] at hother
    exact hstops.power other hother

/-! ## All terms -/

mutual

/-- Every term that respects the ladder is legible. -/
theorem legible : (e : Term) → e.Respects → e.Legible
  | name _, h => legible_name h
  | tuple inner, h => legible_tuple (legible inner h)
  | access base _, h => legible_access (legible base h.1) h.2.1 h.2.2
  | index base inner, h => legible_index (legible base h.1) h.2.1 (legible inner h.2.2)
  | call callee arguments, h =>
    legible_call (legible callee h.1) h.2.1 (legibleAll arguments h.2.2)
  | behind operand _, h => legible_behind (legible operand h.1) h.2.1 h.2.2
  | front _ operand, h => legible_front h.1 (legible operand h.2.1) h.2.2
  | binary left _ right, h => by
    obtain ⟨hleft, hright, hquestion, level, hlevel, hsides⟩ := h
    exact legible_binary (legible left hleft) (legible right hright) hquestion hlevel hsides
  | conditional condition middle otherwise, h =>
    legible_conditional (legible condition h.1) (legible middle h.2.1) (legible otherwise h.2.2.1)
      h.2.2.2.1 h.2.2.2.2

/-- Each term of a row of terms that respect the levels is legible. -/
theorem legibleAll : (es : List Term) → RespectAll es → ∀ e ∈ es, e.Legible
  | [], _ => fun _ hmem => absurd hmem List.not_mem_nil
  | e :: es, h => List.forall_mem_cons.2 ⟨legible e h.1, legibleAll es h.2⟩

end

end Term

/-- **Expressions are read by the ladder.** The tokens of a term that respects the ladder are read
as the tree of the term: all of them, up to the semicolon behind, and without a fault. -/
theorem parseExpression_leaves (e : Term) (he : e.Respects) (ts rest : List Token) (semi : Token)
    (hts : ts.map Token.word = e.leaves) (hsemi : semi.kind = .semicolon) :
    (parseExpression (ts ++ semi :: rest)).rest = semi :: rest ∧
      (parseExpression (ts ++ semi :: rest)).top = ⟨.sourceUnit, [e.tree]⟩ ∧
      (parseExpression (ts ++ semi :: rest)).outer = [] ∧
      (parseExpression (ts ++ semi :: rest)).faults = [] := by
  have hsolid : semi.isTrivia = false := by rw [Token.isTrivia, hsemi]; rfl
  have hread : parseExpression (ts ++ semi :: rest) =
      ⟨semi :: rest, ⟨.sourceUnit, [e.tree]⟩, [], [],
        (Draft.start .sourceUnit (ts ++ semi :: rest)).textEnd⟩ := by
    rw [parseExpression, Draft.start, (Term.legible e he).pursue_expression_zero hsolid
      (by rw [hsemi]; rfl) (by rw [hsemi]; rfl) hts, pursue]
  rw [hread]
  exact ⟨rfl, rfl, rfl, rfl⟩

/-- The assignment is applied last and the power first, and only the call is increased. -/
theorem parseExpression_leaves_assignment :
    let d := parseExpression (tokenize "a=b?-c:d**e[f](g,h)++;")
    d.rest.map Token.text = [";"] ∧ d.faults = [] ∧
      d.top.taken = [(Term.binary (.name (.ident, "a")) (.eq, "=")
        (.conditional (.name (.ident, "b")) (.front (.minus, "-") (.name (.ident, "c")))
          (.binary (.name (.ident, "d")) (.starStar, "**")
            (.behind (.call (.index (.name (.ident, "e")) (.name (.ident, "f")))
              [.name (.ident, "g"), .name (.ident, "h")]) (.plusPlus, "++"))))).tree] := by
  have htokens : tokenize "a=b?-c:d**e[f](g,h)++;" =
      (tokenize "a=b?-c:d**e[f](g,h)++") ++ [⟨.semicolon, ";", 21⟩] := by
    decide +kernel
  obtain ⟨hrest, htop, -, hfaults⟩ := parseExpression_leaves
    (.binary (.name (.ident, "a")) (.eq, "=")
      (.conditional (.name (.ident, "b")) (.front (.minus, "-") (.name (.ident, "c")))
        (.binary (.name (.ident, "d")) (.starStar, "**")
          (.behind (.call (.index (.name (.ident, "e")) (.name (.ident, "f")))
            [.name (.ident, "g"), .name (.ident, "h")]) (.plusPlus, "++")))))
    (by simp [Term.Respects, Term.RespectAll, Term.level, TokenKind.level?, groupsRight,
      TokenKind.isName, TokenKind.isAssignment, frontOperators, behindOperators, frontLevel,
      suffixLevel])
    (tokenize "a=b?-c:d**e[f](g,h)++") [] ⟨.semicolon, ";", 21⟩ (by decide +kernel) rfl
  simp only [htokens]
  exact ⟨by rw [hrest]; rfl, hfaults, by rw [htop]⟩

end SolidityAtlas

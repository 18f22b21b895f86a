import SolidityAtlas.Proofs.Syntax.Solid
import SolidityAtlas.Proofs.Syntax.Term

/-!
# Steps of the reading of an expression

What the goals of an expression do when the next token is known. An operator of level `n` has the
powers `2 * n - 1` and `2 * n`, in this order if it groups to the left and in the other order if it
groups to the right (`Grammar.powers?_eq`). So an operand that may stand at the left of an operator
leaves the operator alone (`Grammar.leftPower_lt_of_left`), and an operand that may stand at the
right of it is tight enough for it (`Grammar.rightPower_lt_of_right`).

## Main Definitions

* `Grammar.leftPower`, `Grammar.rightPower`: the powers of the operators of a level
* `Grammar.startsSuffix`: the tokens that an access, a call or an operator behind starts with

## Main Results

* `Grammar.powers?_eq`: the powers of the binary operators are those of their levels
* `pursue_operators_of_stops`: an operator that is not tight enough is left to what is around
-/

namespace SolidityAtlas

/-! ## The next token -/

namespace Draft

variable {t : Token} {ts : List Token} {k : NodeKind} {taken : List SyntaxTree}
  {outer : List Frame} {faults : List Fault} {n : Nat}

/-- The next token of a draft is not trivia. -/
theorem kind_cons (h : t.isTrivia = false) :
    (⟨t :: ts, ⟨k, taken⟩, outer, faults, n⟩ : Draft).kind = t.kind := by
  simp [kind, next?, firstSolid?, h]

/-- In front of a token that is not trivia there is no trivia to take. -/
theorem skipTrivia_cons (h : t.isTrivia = false) :
    (⟨t :: ts, ⟨k, taken⟩, outer, faults, n⟩ : Draft).skipTrivia =
      ⟨t :: ts, ⟨k, taken⟩, outer, faults, n⟩ := by
  simp [skipTrivia, h]

theorem openNode_cons (h : t.isTrivia = false) (kind : NodeKind) :
    (⟨t :: ts, ⟨k, taken⟩, outer, faults, n⟩ : Draft).openNode kind =
      ⟨t :: ts, ⟨kind, []⟩, ⟨k, taken⟩ :: outer, faults, n⟩ := by
  simp [openNode, skipTrivia_cons h]

/-- The token that comes next is taken. -/
theorem bump_cons (h : t.isTrivia = false) :
    (⟨t :: ts, ⟨k, taken⟩, outer, faults, n⟩ : Draft).bump =
      ⟨ts, ⟨k, leafOf t :: taken⟩, outer, faults, n⟩ := by
  simp [bump, skipTrivia_cons h, take, push]

theorem bumpAs_cons (h : t.isTrivia = false) (kind : TokenKind) :
    (⟨t :: ts, ⟨k, taken⟩, outer, faults, n⟩ : Draft).bumpAs kind =
      ⟨ts, ⟨k, .leaf kind t.text :: taken⟩, outer, faults, n⟩ := by
  simp [bumpAs, skipTrivia_cons h, take, push]

/-- The token that comes next is taken if it is the expected one. -/
theorem expect_cons {kind : TokenKind} (h : t.kind = kind) (hkind : kind.isTrivia = false) :
    (⟨t :: ts, ⟨k, taken⟩, outer, faults, n⟩ : Draft).expect kind =
      ⟨ts, ⟨k, leafOf t :: taken⟩, outer, faults, n⟩ := by
  have hsolid : t.isTrivia = false := by rwa [Token.isTrivia, h]
  rw [expect, isAt, kind_cons hsolid, h, if_pos (beq_self_eq_true _), bump_cons hsolid]

/-- A node that is opened at a mark takes in the children behind it. -/
theorem openAt_length (children : List SyntaxTree) (kind : NodeKind) :
    (⟨ts, ⟨k, children ++ taken⟩, outer, faults, n⟩ : Draft).openAt taken.length kind =
      ⟨ts, ⟨kind, children⟩, ⟨k, taken⟩ :: outer, faults, n⟩ := by
  simp [openAt]

end Draft

/-- A goal is pursued before those behind it. -/
theorem pursue_cons (g : Goal) (gs : List Goal) (d : Draft) :
    pursue (g :: gs) d = pursue ((g.advance d).2 ++ gs) (g.advance d).1 := by
  rw [pursue]

/-! ## Kinds of tokens -/

namespace Grammar

/-- The kinds of tokens that an access, a call or an operator behind an expression starts with. -/
def startsSuffix : TokenKind → Bool
  | .dot | .lBracket | .lParen | .lBrace | .plusPlus | .minusMinus => true
  | _ => false

/-- The left power of the operator that a token is behind an operand. -/
def leftPower (level : Nat) : Nat :=
  if groupsRight level then 2 * level else 2 * level - 1

/-- What an operator asks for in its right operand. -/
def rightPower (level : Nat) : Nat :=
  if groupsRight level then 2 * level - 1 else 2 * level

/-- The powers of the binary operators are those of their levels. -/
theorem powers?_eq {k : TokenKind} (hk : k ≠ .question) :
    powers? k = k.level?.map fun level => (leftPower level, rightPower level) := by
  cases k <;> first | rfl | exact absurd rfl hk

/-- There are thirteen levels. -/
theorem level?_bounds {k : TokenKind} {level : Nat} (h : k.level? = some level) :
    1 ≤ level ∧ level ≤ 13 := by
  unfold TokenKind.level? at h
  split at h
  all_goals first
    | (obtain rfl := Option.some.inj h; decide)
    | (split at h
       · obtain rfl := Option.some.inj h
         decide
       · cases h)

/-- No operator is trivia. -/
theorem not_isTrivia_of_level? {k : TokenKind} {level : Nat} (h : k.level? = some level) :
    k.isTrivia = false := by
  cases k <;> first | rfl | cases h

/-- No operator starts a suffix. -/
theorem not_startsSuffix_of_level? {k : TokenKind} {level : Nat} (h : k.level? = some level) :
    startsSuffix k = false := by
  cases k <;> first | rfl | cases h

/-- No token that starts an expression is trivia. -/
theorem not_isTrivia_of_startsExpression {k : TokenKind} (h : startsExpression k = true) :
    k.isTrivia = false := by
  cases k <;> first | rfl | cases h

/-- The levels that group to the right do so by their powers. -/
theorem leftPower_lt_rightPower_iff {level : Nat} (h : 1 ≤ level) :
    leftPower level < rightPower level ↔ groupsRight level = false := by
  cases hgroups : groupsRight level
  · simp only [leftPower, rightPower, hgroups]
    simp only [Bool.false_eq_true, if_false, iff_true]
    omega
  · simp only [leftPower, rightPower, hgroups]
    simp only [if_true, Bool.true_eq_false, iff_false]
    omega

/-- The power at the left of an operator is one of the two of its level. -/
theorem leftPower_bounds (level : Nat) :
    2 * level - 1 ≤ leftPower level ∧ leftPower level ≤ 2 * level := by
  unfold leftPower
  split <;> omega

/-- The power at the right of an operator is one of the two of its level. -/
theorem rightPower_bounds (level : Nat) :
    2 * level - 1 ≤ rightPower level ∧ rightPower level ≤ 2 * level := by
  unfold rightPower
  split <;> omega

/-- The tighter operators ask for more. -/
theorem rightPower_mono {level operand : Nat} (h : level ≤ operand) :
    rightPower level ≤ rightPower operand := by
  rcases Nat.eq_or_lt_of_le h with rfl | hlt
  · exact Nat.le_refl _
  · have := (rightPower_bounds level).2
    have := (rightPower_bounds operand).1
    omega

/-- An operand that may stand at the left of an operator leaves the operator alone. -/
theorem leftPower_lt_of_left {level operand : Nat} (hlevel : 1 ≤ level)
    (h : if groupsRight level then level < operand else level ≤ operand) :
    leftPower level < rightPower operand := by
  rcases Nat.lt_or_ge level operand with hlt | hge
  · have := (leftPower_bounds level).2
    have := (rightPower_bounds operand).1
    omega
  · split at h
    · omega
    · obtain rfl : operand = level := by omega
      exact (leftPower_lt_rightPower_iff hlevel).2 (by simp_all)

/-- An operand that may stand at the right of an operator is tight enough for it. -/
theorem rightPower_lt_of_right {level operand : Nat} (hlevel : 1 ≤ level)
    (h : if groupsRight level then level ≤ operand else level < operand) :
    rightPower level < 2 * operand := by
  cases hgroups : groupsRight level
  · simp only [hgroups, Bool.false_eq_true, if_false] at h
    have := (rightPower_bounds level).2
    omega
  · simp only [rightPower, hgroups, if_true] at h ⊢
    omega

end Grammar

open Grammar

/-! ## Goals and the next token -/

section Goals

variable {d : Draft} {gs : List Goal}

/-- Where an expression starts there is no token of another kind. -/
theorem isAt_of_startsExpression {k : TokenKind} (h : startsExpression d.kind = true)
    (hk : startsExpression k = false) : d.isAt k = false := by
  rw [Draft.isAt, beq_eq_false_iff_ne]
  intro hkind
  rw [hkind, hk] at h
  cases h

/-- Where an expression starts the operand is that expression. -/
theorem pursue_operand (h : startsExpression d.kind = true) (min : Nat) (missing : FaultCause) :
    pursue (.operand min missing :: gs) d = pursue (.expression min :: gs) d := by
  rw [pursue_cons, pursue_cons]
  simp [Goal.advance, Grammar.operand, Grammar.expression, h]

/-- Where an expression starts the first argument is that expression. -/
theorem pursue_arguments (h : startsExpression d.kind = true) :
    pursue (.arguments :: gs) d = pursue (.expression 0 :: .moreArguments :: gs) d := by
  have hclosing : d.isAt .rParen = false := isAt_of_startsExpression h rfl
  have hend : d.atEnd = false := Draft.atEnd_of_kind_ne fun he => by
    rw [he] at h
    cases h
  rw [pursue_cons, pursue_cons]
  simp [Goal.advance, Grammar.arguments, Grammar.expression, h, hclosing, hend, Pursuit.andThen]

/-- A token that has no power over an expression ends it. -/
theorem pursue_operators_of_stops {mark min : Nat}
    (h : ∀ level, d.kind.level? = some level → leftPower level < min) :
    pursue (.operators mark min :: gs) d = pursue gs d := by
  have hstops : Grammar.operators mark min d = (d, []) := by
    unfold Grammar.operators
    split
    · rename_i hat
      rw [Draft.isAt, beq_iff_eq] at hat
      have hlt : 4 < min := h 2 (by rw [hat]; rfl)
      rw [if_neg (by rw [conditionalPower]; omega)]
    · rename_i hat
      rw [powers?_eq (by simpa [Draft.isAt] using hat)]
      cases hlevel : d.kind.level? with
      | none => rfl
      | some level =>
          simp only [Option.map_some]
          rw [if_neg (Nat.not_le.2 (h level hlevel))]
  rw [pursue_cons, Goal.advance, hstops, List.nil_append]

/-- Where no suffix starts the operand is complete. -/
theorem pursue_suffixes_of_stops {mark : Nat} {last : Option NodeKind}
    (h : startsSuffix d.kind = false) :
    pursue (.suffixes mark last :: gs) d = pursue gs d := by
  have hstops : Grammar.suffixes mark last d = (d, []) := by
    unfold Grammar.suffixes
    generalize d.kind = k at h
    cases k <;> first | rfl | cases h
  rw [pursue_cons, Goal.advance, hstops, List.nil_append]

end Goals

section Steps

variable {t u : Token} {ts rest : List Token} {k kind : NodeKind} {taken inner : List SyntaxTree}
  {outer : List Frame} {faults : List Fault} {n min : Nat} {gs : List Goal}
  {last : Option NodeKind} {child : SyntaxTree}

/-- A node that is closed is a child of the node around it. -/
theorem pursue_close :
    pursue (.close :: gs) ⟨ts, ⟨kind, inner⟩, ⟨k, taken⟩ :: outer, faults, n⟩ =
      pursue gs ⟨ts, ⟨k, .node kind inner.reverse :: taken⟩, outer, faults, n⟩ := by
  rw [pursue_cons]
  rfl

theorem pursue_expect {wanted : TokenKind} (h : t.kind = wanted)
    (hwanted : wanted.isTrivia = false) :
    pursue (.expect wanted :: gs) ⟨t :: ts, ⟨k, taken⟩, outer, faults, n⟩ =
      pursue gs ⟨ts, ⟨k, Draft.leafOf t :: taken⟩, outer, faults, n⟩ := by
  rw [pursue_cons, Goal.advance, Draft.expect_cons h hwanted, List.nil_append]

/-- A name is read up to the accesses and calls behind it. -/
theorem pursue_expression_name (h : t.kind.isName = true) :
    pursue (.expression min :: gs) ⟨t :: ts, ⟨k, taken⟩, outer, faults, n⟩ =
      pursue (.suffixes taken.length none :: .operators taken.length min :: gs)
        ⟨ts, ⟨k, .node .identifier [.leaf .ident t.text] :: taken⟩, outer, faults, n⟩ := by
  have hstarts : startsExpression t.kind = true := by
    generalize t.kind = kind at h
    cases kind <;> first | rfl | cases h
  have hfront : isUnaryFront t.kind = false := by
    generalize t.kind = kind at h
    cases kind <;> first | rfl | cases h
  have hsolid : t.isTrivia = false := not_isTrivia_of_startsExpression hstarts
  have hprimary : ∀ d : Draft, d.kind.isName = true →
      primaryStart d = (((d.openNode .identifier).bumpAs .ident).close, []) := by
    intro d hd
    unfold primaryStart
    generalize d.kind = kind at hd
    cases kind <;> first | rfl | cases hd
  rw [pursue_cons]
  simp only [Goal.advance, Grammar.expression, expressionStart, Draft.skipTrivia_cons hsolid,
    Draft.kind_cons hsolid, hstarts, hfront, if_true, Bool.false_eq_true, if_false]
  rw [hprimary _ (by rwa [Draft.kind_cons hsolid])]
  simp only [Draft.openNode_cons hsolid, Draft.bumpAs_cons hsolid]
  rfl

/-- An expression in parentheses is read from its first element on. -/
theorem pursue_expression_lParen (h : t.kind = .lParen) :
    pursue (.expression min :: gs) ⟨t :: ts, ⟨k, taken⟩, outer, faults, n⟩ =
      pursue (.tupleItems .lParen .rParen :: .suffixes taken.length none ::
          .operators taken.length min :: gs)
        ⟨ts, ⟨.tupleExpression, [Draft.leafOf t]⟩, ⟨k, taken⟩ :: outer, faults, n⟩ := by
  have hsolid : t.isTrivia = false := by rw [Token.isTrivia, h]; rfl
  rw [pursue_cons]
  simp only [Goal.advance, Grammar.expression, expressionStart, Draft.skipTrivia_cons hsolid,
    Draft.kind_cons hsolid, h, primaryStart, Draft.openNode_cons hsolid, Draft.bump_cons hsolid]
  rfl

/-- Behind an operator in front its operand is wanted. -/
theorem pursue_expression_front (h : isUnaryFront t.kind = true) :
    pursue (.expression min :: gs) ⟨t :: ts, ⟨k, taken⟩, outer, faults, n⟩ =
      pursue (.operand unaryPower .expectedOperand :: .close :: .operators taken.length min :: gs)
        ⟨ts, ⟨.unaryOperation, [Draft.leafOf t]⟩, ⟨k, taken⟩ :: outer, faults, n⟩ := by
  have hstarts : startsExpression t.kind = true := by rw [startsExpression, h, Bool.true_or]
  have hsolid : t.isTrivia = false := not_isTrivia_of_startsExpression hstarts
  rw [pursue_cons]
  simp only [Goal.advance, Grammar.expression, expressionStart, Draft.skipTrivia_cons hsolid,
    Draft.kind_cons hsolid, hstarts, h, if_true, Draft.openNode_cons hsolid,
    Draft.bump_cons hsolid]
  rfl

/-- An access takes in what stands in front of the dot. -/
theorem pursue_suffixes_dot (h : t.kind = .dot) (hu : (u.kind.isName || u.kind.isKeyword) = true) :
    pursue (.suffixes taken.length last :: gs)
        ⟨t :: u :: ts, ⟨k, child :: taken⟩, outer, faults, n⟩ =
      pursue (.suffixes taken.length (some .memberAccess) :: gs)
        ⟨ts, ⟨k, .node .memberAccess [child, Draft.leafOf t, .leaf .ident u.text] :: taken⟩,
          outer, faults, n⟩ := by
  have ht : t.isTrivia = false := by rw [Token.isTrivia, h]; rfl
  have hsolid : u.isTrivia = false := by
    rw [Token.isTrivia]
    generalize u.kind = kind at hu
    cases kind <;> first | rfl | cases hu
  have hmember : ∀ d : Draft, (d.kind.isName || d.kind.isKeyword) = true →
      memberName d = d.bumpAs .ident := by
    intro d hd
    rw [memberName, Draft.atName, if_pos]
    rw [Bool.or_assoc, hd, Bool.or_true]
  rw [pursue_cons]
  simp only [Goal.advance, Grammar.suffixes, Draft.kind_cons ht, h]
  rw [show child :: taken = [child] ++ taken from rfl, Draft.openAt_length, Draft.bump_cons ht,
    hmember _ (by rwa [Draft.kind_cons hsolid]), Draft.bumpAs_cons hsolid]
  rfl

/-- An operator behind an expression takes it in. -/
theorem pursue_suffixes_behind (h : t.kind ∈ behindOperators) :
    pursue (.suffixes taken.length last :: gs)
        ⟨t :: ts, ⟨k, child :: taken⟩, outer, faults, n⟩ =
      pursue (.suffixes taken.length (some .unaryOperation) :: gs)
        ⟨ts, ⟨k, .node .unaryOperation [child, Draft.leafOf t] :: taken⟩, outer, faults, n⟩ := by
  have ht : t.isTrivia = false := by
    rw [Token.isTrivia]
    simp only [behindOperators, List.mem_cons, List.not_mem_nil, or_false] at h
    rcases h with h | h <;> rw [h] <;> rfl
  rw [pursue_cons, show child :: taken = [child] ++ taken from rfl]
  simp only [behindOperators, List.mem_cons, List.not_mem_nil, or_false] at h
  rcases h with h | h <;>
    simp only [Goal.advance, Grammar.suffixes, Draft.kind_cons ht, h, Draft.openAt_length,
      Draft.bump_cons ht] <;> rfl

/-- The arguments of a call stand in a node of their own. -/
theorem pursue_suffixes_lParen (h : t.kind = .lParen)
    (hbrace : (⟨ts, ⟨.callArguments, [Draft.leafOf t]⟩, ⟨.functionCall, [child]⟩ :: ⟨k, taken⟩ ::
      outer, faults, n⟩ : Draft).isAt .lBrace = false) :
    pursue (.suffixes taken.length last :: gs)
        ⟨t :: ts, ⟨k, child :: taken⟩, outer, faults, n⟩ =
      pursue (.arguments :: .close :: .suffixes taken.length (some .functionCall) :: gs)
        ⟨ts, ⟨.callArguments, [Draft.leafOf t]⟩,
          ⟨.functionCall, [child]⟩ :: ⟨k, taken⟩ :: outer, faults, n⟩ := by
  have ht : t.isTrivia = false := by rw [Token.isTrivia, h]; rfl
  rw [pursue_cons, show child :: taken = [child] ++ taken from rfl]
  simp only [Goal.advance, Grammar.suffixes, Draft.kind_cons ht, h, Draft.openAt_length,
    argumentsStart, Draft.openNode_cons ht, Draft.bump_cons ht, hbrace]
  rfl

/-- Behind an opening bracket an index is wanted. -/
theorem pursue_suffixes_lBracket (h : t.kind = .lBracket)
    (hstarts : startsExpression (⟨ts, ⟨k, Draft.leafOf t :: child :: taken⟩, outer, faults,
      n⟩ : Draft).kind = true) :
    pursue (.suffixes taken.length last :: gs)
        ⟨t :: ts, ⟨k, child :: taken⟩, outer, faults, n⟩ =
      pursue (.expression 0 :: .indexMiddle taken.length :: gs)
        ⟨ts, ⟨k, Draft.leafOf t :: child :: taken⟩, outer, faults, n⟩ := by
  have ht : t.isTrivia = false := by rw [Token.isTrivia, h]; rfl
  rw [pursue_cons]
  simp only [Goal.advance, Grammar.suffixes, Draft.kind_cons ht, h, Draft.bump_cons ht]
  rw [isAt_of_startsExpression hstarts rfl, isAt_of_startsExpression hstarts rfl]
  rfl

/-- An index access takes in what stands in front of the bracket. -/
theorem pursue_indexMiddle_rBracket (h : t.kind = .rBracket) {bracket index : SyntaxTree} :
    pursue (.indexMiddle taken.length :: gs)
        ⟨t :: ts, ⟨k, index :: bracket :: child :: taken⟩, outer, faults, n⟩ =
      pursue (.suffixes taken.length (some .indexAccess) :: gs)
        ⟨ts, ⟨k, .node .indexAccess [child, bracket, index, Draft.leafOf t] :: taken⟩,
          outer, faults, n⟩ := by
  have ht : t.isTrivia = false := by rw [Token.isTrivia, h]; rfl
  rw [pursue_cons]
  simp only [Goal.advance, Grammar.indexMiddle, Draft.isAt, Draft.kind_cons ht, h]
  rw [if_neg (by decide), List.cons_append, List.nil_append, pursue_cons]
  simp only [Goal.advance, Grammar.indexEnd]
  rw [Draft.expect_cons h rfl, show Draft.leafOf t :: index :: bracket :: child :: taken =
    [Draft.leafOf t, index, bracket, child] ++ taken from rfl, Draft.openAt_length]
  rfl

/-- In parentheses an expression is wanted. -/
theorem pursue_tupleItems {d : Draft} (h : startsExpression d.kind = true) :
    pursue (.tupleItems .lParen .rParen :: gs) d =
      pursue (.expression 0 :: .moreTupleItems .lParen .rParen :: gs) d := by
  rw [pursue_cons, pursue_cons]
  simp [Goal.advance, Grammar.tupleItems, Grammar.expression, h, Pursuit.andThen,
    isAt_of_startsExpression h (show startsExpression .comma = false from rfl),
    isAt_of_startsExpression h (show startsExpression .rParen = false from rfl),
    Draft.atEnd_of_kind_ne (d := d) fun he => by rw [he] at h; cases h]

/-- A tuple ends at its parenthesis. -/
theorem pursue_moreTupleItems_rParen (h : t.kind = .rParen) :
    pursue (.moreTupleItems .lParen .rParen :: gs)
        ⟨t :: ts, ⟨kind, inner⟩, ⟨k, taken⟩ :: outer, faults, n⟩ =
      pursue gs
        ⟨ts, ⟨k, .node kind (Draft.leafOf t :: inner).reverse :: taken⟩, outer, faults, n⟩ := by
  have ht : t.isTrivia = false := by rw [Token.isTrivia, h]; rfl
  rw [pursue_cons]
  simp only [Goal.advance, Grammar.moreTupleItems, tupleEnd, Draft.isAt, Draft.kind_cons ht, h,
    Draft.bump_cons ht]
  rfl

theorem pursue_moreArguments_rParen (h : t.kind = .rParen) :
    pursue (.moreArguments :: gs)
        ⟨t :: ts, ⟨kind, inner⟩, ⟨k, taken⟩ :: outer, faults, n⟩ =
      pursue gs
        ⟨ts, ⟨k, .node kind (Draft.leafOf t :: inner).reverse :: taken⟩, outer, faults, n⟩ := by
  have ht : t.isTrivia = false := by rw [Token.isTrivia, h]; rfl
  rw [pursue_cons]
  simp only [Goal.advance, Grammar.moreArguments, closeParen, Draft.isAt, Draft.kind_cons ht, h]
  rw [if_neg (by decide), Draft.expect_cons h rfl]
  rfl

/-- Behind a comma another argument is read. -/
theorem pursue_moreArguments_comma (h : t.kind = .comma) :
    pursue (.moreArguments :: gs) ⟨t :: ts, ⟨k, taken⟩, outer, faults, n⟩ =
      pursue (.arguments :: gs) ⟨ts, ⟨k, Draft.leafOf t :: taken⟩, outer, faults, n⟩ := by
  have ht : t.isTrivia = false := by rw [Token.isTrivia, h]; rfl
  rw [pursue_cons]
  simp only [Goal.advance, Grammar.moreArguments, Draft.isAt, Draft.kind_cons ht, h,
    Draft.bump_cons ht]
  rfl

/-- A call may have no arguments. -/
theorem pursue_arguments_rParen (h : t.kind = .rParen) :
    pursue (.arguments :: gs) ⟨t :: ts, ⟨kind, inner⟩, ⟨k, taken⟩ :: outer, faults, n⟩ =
      pursue gs
        ⟨ts, ⟨k, .node kind (Draft.leafOf t :: inner).reverse :: taken⟩, outer, faults, n⟩ := by
  have ht : t.isTrivia = false := by rw [Token.isTrivia, h]; rfl
  rw [pursue_cons]
  simp only [Goal.advance, Grammar.arguments, closeParen, Draft.isAt, Draft.kind_cons ht, h]
  rw [if_pos (by rfl), Draft.expect_cons h rfl]
  rfl

/-- An operator that is tight enough takes in what stands in front of it. -/
theorem pursue_operators_binary {level : Nat} (hquestion : t.kind ≠ .question)
    (h : t.kind.level? = some level) (hmin : min ≤ leftPower level) :
    pursue (.operators taken.length min :: gs)
        ⟨t :: ts, ⟨k, child :: taken⟩, outer, faults, n⟩ =
      pursue (.operand (rightPower level) .expectedRightOperand :: .close ::
          .operators taken.length min :: gs)
        ⟨ts, ⟨.binaryOperation, [Draft.leafOf t, child]⟩, ⟨k, taken⟩ :: outer, faults, n⟩ := by
  have ht : t.isTrivia = false := not_isTrivia_of_level? h
  rw [pursue_cons, show child :: taken = [child] ++ taken from rfl]
  simp only [Goal.advance, Grammar.operators, Draft.isAt, Draft.kind_cons ht]
  rw [if_neg (by rwa [beq_iff_eq]), powers?_eq hquestion, h]
  simp only [Option.map_some, if_pos hmin, Draft.openAt_length, Draft.bump_cons ht]
  rfl

/-- A conditional takes in its condition. -/
theorem pursue_operators_question (h : t.kind = .question) (hmin : min ≤ conditionalPower) :
    pursue (.operators taken.length min :: gs)
        ⟨t :: ts, ⟨k, child :: taken⟩, outer, faults, n⟩ =
      pursue (.expression 0 :: .expect .colon :: .expression elsePower :: .close ::
          .operators taken.length min :: gs)
        ⟨ts, ⟨.conditional, [Draft.leafOf t, child]⟩, ⟨k, taken⟩ :: outer, faults, n⟩ := by
  have ht : t.isTrivia = false := by rw [Token.isTrivia, h]; rfl
  rw [pursue_cons, show child :: taken = [child] ++ taken from rfl]
  simp only [Goal.advance, Grammar.operators, Draft.isAt, Draft.kind_cons ht, h]
  rw [if_pos (by rfl), if_pos hmin, Draft.openAt_length, Draft.bump_cons ht]
  rfl

end Steps

end SolidityAtlas

import SolidityAtlas.Syntax.Grammar.Members

/-!
# Reading makes progress

Every rule of the grammar that starts with a certain token takes that token, and
what it leaves weighs less than a token does. A rule that takes nothing leaves
goals that weigh less than the goal it was tried for. The bounds leave some room,
so that the goals of an enclosing rule can be put behind.
-/

namespace SolidityAtlas

namespace Draft

variable {d : Draft}

/-! ### What a step leaves as it is -/

/-- The next token decides, whether the trivia in front of it has been taken or not. -/
@[simp, grind =] theorem kind_skipTrivia : d.skipTrivia.kind = d.kind := by
  simp [kind]

@[simp, grind =] theorem kind_openNode (k : NodeKind) : (d.openNode k).kind = d.kind := by
  simp [kind]

@[simp, grind =] theorem kind_openAt (m : Nat) (k : NodeKind) : (d.openAt m k).kind = d.kind := rfl

@[simp, grind =] theorem kind_fault (c : FaultCause) : (d.fault c).kind = d.kind := rfl

@[simp, grind =] theorem kind_close : d.close.kind = d.kind := by
  simp [kind]

@[simp, grind =] theorem atEnd_openAt (m : Nat) (k : NodeKind) :
    (d.openAt m k).atEnd = d.atEnd := rfl

@[simp, grind =] theorem atEnd_close : d.close.atEnd = d.atEnd := by
  simp [atEnd]

attribute [grind =] size_fault size_close size_openAt atEnd_openNode atEnd_fault atEnd_skipTrivia
  atName isAt

/-! ### How far a step gets -/

attribute [grind! .] size_skipTrivia_le size_bump_le size_bumpAs_le size_eat_le size_expect_le
  size_expectName_le size_eatName_le size_bumpWhile_le size_skipTo_le size_bumpBalanced_le
  size_openNode_le

grind_pattern size_bump_lt => d.bump.size
grind_pattern size_bumpAs_lt => (d.bumpAs k).size
grind_pattern size_recover_lt => (d.recover cause stops).size
grind_pattern atEnd_of_kind_ne => d.atEnd, d.kind

/-- A name that is expected where one stands is taken. -/
theorem size_expectName_lt (h : d.atName = true) : d.expectName.size < d.size := by
  grind [expectName, atEnd_of_atName]

grind_pattern size_expectName_lt => d.expectName.size

end Draft

namespace Grammar

open Draft Goal

variable {d : Draft}

/-! ### Types -/

attribute [grind! .] size_moreSegments_le

/-- A path takes the name it starts with. -/
theorem size_typePath_lt (h : d.atName = true) : (typePath d).size < d.size := by
  grind [typePath]

@[grind! .] theorem size_typePath_le : (typePath d).size ≤ d.size := by
  grind [typePath]

@[grind! .] theorem size_elementaryType_le : (elementaryType d).size ≤ d.size := by
  grind [elementaryType]

theorem size_elementaryType_lt (h : d.atEnd = false) : (elementaryType d).size < d.size := by
  grind [elementaryType]

grind_pattern size_typePath_lt => (typePath d).size
grind_pattern size_elementaryType_lt => (elementaryType d).size

/-- A type takes the token it starts with, and of its weight eleven are left over. -/
theorem load_typeStart_lt (h : startsType d.kind = true) :
    (typeStart d).load + 11 ≤ 16 * d.size := by
  simp only [typeStart]
  (repeat' split) <;> simp [weight] <;> grind [startsType]

/-- A type that does not stand there costs nothing. -/
theorem load_typeStart_le : (typeStart d).load ≤ 16 * d.size := by
  simp only [typeStart]
  (repeat' split) <;> simp [weight] <;> grind

grind_pattern load_typeStart_lt => (typeStart d).load
grind_pattern load_typeStart_le => (typeStart d).load

theorem load_arraySuffix_le (m : Nat) : (arraySuffix m d).load ≤ 16 * d.size := by
  simp only [arraySuffix]
  (repeat' split) <;> simp [weight] <;> grind

theorem load_mappingArrow_le : (Grammar.mappingArrow d).load ≤ 16 * d.size := by
  simp only [Grammar.mappingArrow, Pursuit.load_mk, weights_nil]
  grind

theorem load_mappingEnd_le : (Grammar.mappingEnd d).load ≤ 16 * d.size := by
  simp only [Grammar.mappingEnd, Pursuit.load_mk, weights_nil]
  grind

theorem load_functionTypeEnd_le : (functionTypeEnd d).load ≤ 16 * d.size := by
  simp only [functionTypeEnd]
  (repeat' split) <;> simp [weight] <;> grind

theorem load_parameters_le : (parameters d).load ≤ 16 * d.size := by
  simp only [parameters]
  (repeat' split) <;> simp [weight] <;> grind

theorem load_parameterRow_le : (parameterRow d).load ≤ 16 * d.size := by
  simp only [parameterRow]
  (repeat' split) <;> simp [weight] <;> grind

theorem load_parameterEnd_le : (Grammar.parameterEnd d).load ≤ 16 * d.size := by
  simp only [Grammar.parameterEnd, Pursuit.load_mk, weights_nil]
  grind

theorem load_moreParameters_le : (moreParameters d).load ≤ 16 * d.size := by
  simp only [moreParameters]
  (repeat' split) <;> simp [weight] <;> grind

/-! ### Expressions -/

attribute [grind! .] size_emptyBrackets_le

/-- No expression starts at the end of a text. -/
theorem startsPrimary_error : startsPrimary .error = false := rfl

theorem startsExpression_error : startsExpression .error = false := rfl

/-- An operand takes its first token, and of its weight fourteen are left over. -/
theorem load_primaryStart_lt (h : startsPrimary d.kind = true) :
    (primaryStart d).load + 14 ≤ 16 * d.size := by
  simp only [primaryStart]
  (repeat' split) <;> simp [weight] <;> grind [startsPrimary_error]

grind_pattern load_primaryStart_lt => (primaryStart d).load

/-- An expression takes its first token, and of its weight twelve are left over. -/
theorem load_expressionStart_lt (m : Nat) (h : startsExpression d.kind = true) :
    (expressionStart m d).load + 12 ≤ 16 * d.size := by
  simp only [expressionStart]
  (repeat' split) <;> simp [weight] <;> grind [startsExpression, startsExpression_error]

grind_pattern load_expressionStart_lt => (expressionStart m d).load

/-- The bracket that opens arguments is taken, and of its weight thirteen are left over. -/
theorem load_argumentsStart_lt (h : d.atEnd = false) :
    (argumentsStart d).load + 13 ≤ 16 * d.size := by
  simp only [argumentsStart]
  (repeat' split) <;> simp [weight] <;> grind

grind_pattern load_argumentsStart_lt => (argumentsStart d).load

@[grind! .] theorem size_noExpression_le : (noExpression d).size ≤ d.size := by
  grind [noExpression]

theorem load_expression_le (m : Nat) : (expression m d).load ≤ 16 * d.size := by
  simp only [expression]
  (repeat' split) <;> (try simp) <;> grind

theorem load_operand_le (m : Nat) (c : FaultCause) : (operand m c d).load ≤ 16 * d.size := by
  simp only [operand]
  (repeat' split) <;> (try simp) <;> grind

/-- A row of operators ends where no operator follows, or takes the operator. -/
theorem load_operators_le (m n : Nat) : (operators m n d).load ≤ 16 * d.size := by
  simp only [operators]
  (repeat' split) <;> simp [weight] <;> grind [powers?, TokenKind.isAssignment]

@[grind! .] theorem size_memberName_le : (memberName d).size ≤ d.size := by
  grind [memberName]

theorem load_suffixes_le (m : Nat) (last : Option NodeKind) :
    (suffixes m last d).load ≤ 16 * d.size := by
  simp only [suffixes]
  (repeat' split) <;> simp [weight] <;> grind

/-- Behind the first bound of a slice two more goals may be waiting. -/
theorem load_indexMiddle_le (m : Nat) : (indexMiddle m d).load ≤ 16 * d.size + 2 := by
  simp only [indexMiddle]
  (repeat' split) <;> simp [weight] <;> grind

theorem load_indexEnd_le (m : Nat) (k : NodeKind) : (indexEnd m k d).load ≤ 16 * d.size + 1 := by
  simp only [indexEnd]
  simp [weight]
  grind

@[grind! .] theorem size_closeParen_le : (closeParen d).size ≤ d.size := by
  grind [closeParen]

@[grind! .] theorem size_closeBrace_le : (closeBrace d).size ≤ d.size := by
  grind [closeBrace]

@[grind! .] theorem size_tupleEnd_le (o c : TokenKind) : (tupleEnd o c d).size ≤ d.size := by
  grind [tupleEnd]

theorem load_arguments_le : (arguments d).load ≤ 16 * d.size := by
  simp only [arguments]
  (repeat' split) <;> simp [weight] <;> grind

theorem load_moreArguments_le : (moreArguments d).load ≤ 16 * d.size := by
  simp only [moreArguments]
  (repeat' split) <;> simp [weight] <;> grind

theorem load_namedValues_le : (namedValues d).load ≤ 16 * d.size := by
  simp only [namedValues]
  (repeat' split) <;> simp [weight] <;> grind

theorem load_moreNamedValues_le : (moreNamedValues d).load ≤ 16 * d.size := by
  simp only [moreNamedValues]
  (repeat' split) <;> simp [weight] <;> grind

theorem load_tupleItems_le (o c : TokenKind) : (tupleItems o c d).load ≤ 16 * d.size := by
  simp only [tupleItems]
  (repeat' split) <;> simp [weight] <;> grind

theorem load_moreTupleItems_le (o c : TokenKind) : (moreTupleItems o c d).load ≤ 16 * d.size := by
  simp only [moreTupleItems]
  (repeat' split) <;> simp [weight] <;> grind

/-! ### Statements -/

/-- The first of the kinds ahead is the kind of the next token. -/
theorem head?_solidKinds : d.solidKinds.head?.getD .error = d.kind := by
  have (ts : List Token) : (ts.filter (! ·.isTrivia)).head? = firstSolid? ts := by
    induction ts with
    | nil => rfl
    | cons t ts ih => by_cases h : t.isTrivia = true <;> simp [firstSolid?, h, ih]
  simp [solidKinds, kind, next?, this]

/-- A declarator starts with its type. -/
theorem startsType_of_startsDeclarator {k : TokenKind} {ks : List TokenKind}
    (h : startsDeclarator (k :: ks) = true) : startsType k = true := by
  unfold startsDeclarator at h
  split at h <;> simp_all [startsType]

/-- A declaration starts with a parenthesis or a type. -/
theorem startsType_of_startsDeclaration (h : startsDeclaration d.solidKinds = true) :
    d.kind = .lParen ∨ startsType d.kind = true := by
  have hk := head?_solidKinds (d := d)
  unfold startsDeclaration at h
  split at h
  · rename_i ks hs
    exact .inl (by simpa [hs] using hk.symm)
  · cases hs : d.solidKinds with
    | nil => simp [hs, startsDeclarator] at h
    | cons k ks =>
      obtain rfl : k = d.kind := by simpa [hs] using hk
      exact .inr (startsType_of_startsDeclarator (hs ▸ h))

theorem size_noStatement_le : (noStatement d).size ≤ d.size := by
  grind [noStatement]

/-- Where no statement stands a token is skipped, unless the block ends there. -/
theorem size_noStatement_lt (he : d.atEnd = false) (hb : d.kind ≠ .rBrace) :
    (noStatement d).size < d.size := by
  grind [noStatement]

/-- A declaration takes its first token, and of its weight nine are left over. -/
theorem load_declaration_lt (h : startsDeclaration d.solidKinds = true) :
    (declaration d).load + 9 ≤ 16 * d.size := by
  have hk := startsType_of_startsDeclaration h
  simp only [declaration, localVariable]
  (repeat' split) <;> simp [weight] <;> grind

theorem load_localEnd_le : (Grammar.localEnd d).load ≤ 16 * d.size := by
  simp only [Grammar.localEnd, Pursuit.load_mk, weights_nil]
  grind

theorem load_declarators_le : (declarators d).load ≤ 16 * d.size + 2 := by
  simp only [declarators, localVariable]
  (repeat' split) <;> simp [weight] <;> grind

theorem load_moreDeclarators_le : (moreDeclarators d).load ≤ 16 * d.size := by
  simp only [moreDeclarators]
  (repeat' split) <;> simp [weight] <;> grind

theorem load_initialiser_le : (initialiser d).load ≤ 16 * d.size := by
  simp only [initialiser]
  (repeat' split) <;> simp [weight] <;> grind

/-- An expression statement takes the first token of the expression. -/
theorem load_expressionStatement_lt (h : startsExpression d.kind = true) :
    (expressionStatement d).load + 10 ≤ 16 * d.size := by
  simp only [expressionStatement]
  simp [weight]
  grind

theorem load_block_le : (block d).load ≤ 16 * d.size := by
  simp only [block]
  (repeat' split) <;> simp [weight] <;> grind

/-- A block takes its opening brace, and of its weight fifteen are left over. -/
theorem load_block_lt (h : d.kind = .lBrace) : (block d).load + 15 ≤ 16 * d.size := by
  simp only [block]
  (repeat' split) <;> simp [weight] <;> grind

grind_pattern load_block_le => (block d).load
grind_pattern load_block_lt => (block d).load

/-- A statement without a word of its own costs nothing if it does not stand there. -/
theorem load_plainStatement_le : (plainStatement d).load ≤ 16 * d.size := by
  unfold plainStatement
  split
  · rename_i h
    exact Nat.le_trans (Nat.le_add_right _ 9) (load_declaration_lt h)
  · split
    · rename_i h
      exact Nat.le_trans (Nat.le_add_right _ 10) (load_expressionStatement_lt h)
    · simpa using Nat.mul_le_mul_left 16 size_noStatement_le

/-- Before the end of a block a statement takes a token, whether it is one or not. -/
theorem load_plainStatement_lt (he : d.atEnd = false) (hb : d.kind ≠ .rBrace) :
    (plainStatement d).load + 6 ≤ 16 * d.size := by
  unfold plainStatement
  split
  · rename_i h
    exact Nat.le_trans (Nat.add_le_add_left (by decide) _) (load_declaration_lt h)
  · split
    · rename_i h
      exact Nat.le_trans (Nat.add_le_add_left (by decide) _) (load_expressionStatement_lt h)
    · have := size_noStatement_lt he hb
      simp
      omega

grind_pattern load_plainStatement_le => (plainStatement d).load
grind_pattern load_plainStatement_lt => (plainStatement d).load

@[grind! .] theorem size_inlineAssembly_le : (inlineAssembly d).size ≤ d.size := by
  grind [inlineAssembly]

theorem size_inlineAssembly_lt (he : d.atEnd = false) : (inlineAssembly d).size < d.size := by
  grind [inlineAssembly]

grind_pattern size_inlineAssembly_lt => (inlineAssembly d).size

theorem load_statement_le : (statement d).load ≤ 16 * d.size := by
  simp only [statement, wordStatement, wordAndExpression]
  (repeat' split) <;> (try simp [weight]) <;> grind

/-- Every statement before the end of a block takes a token, and six are left over. -/
theorem load_statement_lt (he : d.atEnd = false) (hb : d.kind ≠ .rBrace) :
    (statement d).load + 6 ≤ 16 * d.size := by
  simp only [statement, wordStatement, wordAndExpression]
  (repeat' split) <;> (try simp [weight]) <;> grind

grind_pattern load_statement_lt => (statement d).load

/-- Statements are read as long as a token is taken for each. -/
theorem load_statements_le : (statements d).load ≤ 16 * d.size := by
  simp only [statements]
  (repeat' split) <;> simp [weight] <;> grind

theorem load_elseBranch_le : (elseBranch d).load ≤ 16 * d.size := by
  simp only [elseBranch]
  (repeat' split) <;> simp [weight]
  grind

theorem load_doWhileEnd_le : (doWhileEnd d).load ≤ 16 * d.size + 4 := by
  simp only [doWhileEnd]
  simp [weight]
  grind

/-- The first part of a loop head is a declaration, an expression, or nothing. -/
theorem load_forInit_le : (forInit d).load ≤ 16 * d.size := by
  unfold forInit
  split
  · simp
    grind
  · split
    · rename_i h
      exact Nat.le_trans (Nat.le_add_right _ 9) (load_declaration_lt h)
    · split
      · rename_i h
        exact Nat.le_trans (Nat.le_add_right _ 10) (load_expressionStatement_lt h)
      · simp
        grind

theorem load_forCondition_le : (forCondition d).load ≤ 16 * d.size + 2 := by
  simp only [forCondition]
  (repeat' split) <;> simp [weight]
  grind

theorem load_forUpdate_le : (forUpdate d).load ≤ 16 * d.size + 3 := by
  simp only [forUpdate]
  (repeat' split) <;> simp [weight] <;> grind

theorem load_tryReturns_le : (tryReturns d).load ≤ 16 * d.size := by
  simp only [tryReturns]
  (repeat' split) <;> simp [weight]
  grind

theorem load_catches_le : (catches d).load ≤ 16 * d.size := by
  simp only [catches]
  (repeat' split) <;> simp [weight] <;> grind

/-! ### Members -/

theorem load_overrideStart_lt (he : d.atEnd = false) :
    (overrideStart d).load + 15 ≤ 16 * d.size := by
  simp only [overrideStart]
  (repeat' split) <;> simp [weight] <;> grind

grind_pattern load_overrideStart_lt => (overrideStart d).load

theorem load_overrideNames_le : (overrideNames d).load ≤ 16 * d.size := by
  simp only [overrideNames]
  (repeat' split) <;> simp [weight] <;> grind

theorem load_bodyStart_le : (bodyStart d).load ≤ 16 * d.size := by
  simp only [bodyStart]
  (repeat' split) <;> simp [weight] <;> grind

grind_pattern load_bodyStart_le => (bodyStart d).load

theorem load_structStart_lt (he : d.atEnd = false) : (structStart d).load + 15 ≤ 16 * d.size := by
  simp only [structStart]
  (repeat' split) <;> simp [weight] <;> grind

grind_pattern load_structStart_lt => (structStart d).load

theorem load_fields_le : (fields d).load ≤ 16 * d.size := by
  simp only [fields]
  split
  · simp
    grind
  · split
    · simp [weight]
      grind
    · split
      · simp [weight]
        grind
      · simp [weight]
        grind [expectName, Draft.expect]

theorem load_fieldEnd_le : (Grammar.fieldEnd d).load ≤ 16 * d.size := by
  simp only [Grammar.fieldEnd, Pursuit.load_mk, weights_nil]
  grind

theorem load_enumStart_lt (he : d.atEnd = false) : (enumStart d).load + 15 ≤ 16 * d.size := by
  simp only [enumStart]
  (repeat' split) <;> simp [weight] <;> grind

grind_pattern load_enumStart_lt => (enumStart d).load

theorem load_enumValues_le : (enumValues d).load ≤ 16 * d.size := by
  simp only [enumValues]
  (repeat' split) <;> simp [weight] <;> grind

theorem load_eventEnd_le : (Grammar.eventEnd d).load ≤ 16 * d.size := by
  simp only [Grammar.eventEnd, Pursuit.load_mk, weights_nil]
  grind

theorem load_modifierStart_lt (he : d.atEnd = false) :
    (modifierStart d).load + 14 ≤ 16 * d.size := by
  simp only [modifierStart]
  (repeat' split) <;> simp [weight] <;> grind

grind_pattern load_modifierStart_lt => (modifierStart d).load

theorem load_modifierAttributes_le : (modifierAttributes d).load ≤ 16 * d.size := by
  simp only [modifierAttributes]
  (repeat' split) <;> (try simp [weight]) <;> grind

/-- A function takes its first word, and of its weight fourteen are left over. -/
theorem load_functionStart_lt (he : d.atEnd = false) :
    (functionStart d).load + 14 ≤ 16 * d.size := by
  simp only [functionStart]
  (repeat' split) <;> simp [weight] <;> grind

grind_pattern load_functionStart_lt => (functionStart d).load

/-- The use of a modifier takes its name, and of its weight twelve are left over. -/
theorem load_modifierUse_lt (h : d.atName = true) : (modifierUse d).load + 12 ≤ 16 * d.size := by
  have hn : (moreSegments (d.openNode .modifierInvocation).expectName).size < d.size := by
    grind
  simp only [modifierUse]
  (repeat' split) <;> simp [weight] <;> grind

grind_pattern load_modifierUse_lt => (modifierUse d).load

theorem load_functionAttributes_le : (functionAttributes d).load ≤ 16 * d.size := by
  have he : d.kind = .error → isFunctionAttribute d.kind = false := fun h => by rw [h]; rfl
  simp only [functionAttributes]
  (repeat' split) <;> (try simp [weight]) <;> grind

theorem load_usingStart_lt (he : d.atEnd = false) : (usingStart d).load + 12 ≤ 16 * d.size := by
  simp only [usingStart]
  (repeat' split) <;> simp [weight] <;> grind

grind_pattern load_usingStart_lt => (usingStart d).load

theorem load_usingNames_le : (usingNames d).load ≤ 16 * d.size + 3 := by
  simp only [usingNames]
  (repeat' split) <;> simp [weight] <;> grind

theorem load_usingFor_le : (usingFor d).load ≤ 16 * d.size + 2 := by
  simp only [usingFor]
  (repeat' split) <;> simp [weight] <;> grind

theorem load_usingEnd_le : (usingEnd d).load ≤ 16 * d.size := by
  simp only [usingEnd]
  (repeat' split) <;> simp <;> grind

theorem load_stateVariableStart_lt (h : startsType d.kind = true) :
    (stateVariableStart d).load + 9 ≤ 16 * d.size := by
  simp only [stateVariableStart]
  simp [weight]
  grind

grind_pattern load_stateVariableStart_lt => (stateVariableStart d).load

theorem load_stateVariableAttributes_le : (stateVariableAttributes d).load ≤ 16 * d.size := by
  have he : d.kind = .error → atStateVariableAttribute d = false := fun h => by
    simp [atStateVariableAttribute, h]
  simp only [stateVariableAttributes]
  (repeat' split) <;> (try simp [weight]) <;> grind

/-- Before the end of the text a member takes a token, whether it is one or not. -/
theorem load_member_lt (stops : List TokenKind) (he : d.atEnd = false) :
    (member stops d).load + 9 ≤ 16 * d.size := by
  simp only [member]
  (repeat' split) <;> (try simp [weight]) <;> grind

grind_pattern load_member_lt => (member stops d).load

/-- Members are read as long as a token is taken for each. -/
theorem load_members_le : (members d).load ≤ 16 * d.size := by
  simp only [members]
  (repeat' split) <;> simp [weight] <;> grind

theorem load_contractStart_lt (h : d.kind = .abstractKw ∨ d.kind = .contractKw ∨
    d.kind = .interfaceKw ∨ d.kind = .libraryKw) : (contractStart d).load + 13 ≤ 16 * d.size := by
  simp only [contractStart]
  (repeat' split) <;> simp [weight] <;> grind [Draft.eat]

grind_pattern load_contractStart_lt => (contractStart d).load

theorem load_bases_le : (bases d).load ≤ 16 * d.size + 2 := by
  simp only [bases]
  (repeat' split) <;> simp [weight] <;> grind

theorem load_moreBases_le : (moreBases d).load ≤ 16 * d.size + 1 := by
  simp only [moreBases]
  (repeat' split) <;> simp [weight]
  grind

theorem load_contractBody_le : (contractBody d).load ≤ 16 * d.size := by
  simp only [contractBody]
  (repeat' split) <;> simp [weight] <;> grind

@[grind! .] theorem size_importEnd_le : (importEnd d).size ≤ d.size := by
  grind [importEnd]

@[grind! .] theorem size_eatAlias_le : (eatAlias d).size ≤ d.size := by
  grind [eatAlias]

theorem load_importStart_lt (he : d.atEnd = false) : (importStart d).load + 15 ≤ 16 * d.size := by
  simp only [importStart]
  (repeat' split) <;> simp [weight] <;> grind

grind_pattern load_importStart_lt => (importStart d).load

theorem load_importSymbols_le : (importSymbols d).load ≤ 16 * d.size := by
  simp only [importSymbols]
  (repeat' split) <;> simp [weight] <;> grind [importFrom]

/-- Before the end of the text an item takes a token, whether it is one or not. -/
theorem load_item_lt (he : d.atEnd = false) : (item d).load + 9 ≤ 16 * d.size := by
  simp only [item]
  (repeat' split) <;> (try simp) <;> grind [pragma]

grind_pattern load_item_lt => (item d).load

theorem load_items_le : (items d).load ≤ 16 * d.size := by
  simp only [items]
  (repeat' split) <;> simp [weight]
  grind

end Grammar

end SolidityAtlas

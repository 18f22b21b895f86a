import SolidityAtlas.Proofs.Syntax.Steps.Basic

/-!
# The steps of types and expressions

Each rule for a type or an expression is a sequence of steps and leaves goals that close
what it has opened. A rule that opens a node at a mark is used inside an open node, and with
a mark behind the names of that node.
-/

namespace SolidityAtlas

/-! ## Types -/

namespace Draft.Steps

open Grammar

variable {start d : Draft} {o : OpenNode} {nodes : List OpenNode}

/-- Further segments are taken as names where the node takes them behind a dot. -/
theorem moreSegments (h : Steps start (o :: nodes) d)
    (hnames : ∀ before, o.kind.TakesNames before) :
    Steps start (⟨o.kind, (moreSegments d).mark⟩ :: nodes) (moreSegments d) := by
  fun_induction Grammar.moreSegments d generalizing o with
  | case1 d hmore ih =>
      have hrest := ih (h.bump.expectName (hnames _)) hnames
      exact hrest
  | case2 => exact h.forget

theorem typePath (h : Steps start nodes d) : Steps start nodes (typePath d) :=
  (((h.openNode .userDefinedTypeName rfl).expectName fun _ => id).moreSegments fun _ _ => id).close

theorem elementaryType (h : Steps start nodes d) : Steps start nodes (elementaryType d) := by
  have htaken := (h.openNode .elementaryTypeName rfl).bump
  unfold Grammar.elementaryType
  simp only
  split
  · exact (htaken.eat _).close
  · exact htaken.close

theorem typeStart (h : Steps start (o :: nodes) d) : (typeStart d).Keeps start (o :: nodes) := by
  have hd := h.skipTrivia
  have hmark := hd.named_le_mark
  unfold Grammar.typeStart
  simp only
  split
  · exact ⟨_, hd.elementaryType, And.intro hmark rfl⟩
  · exact ⟨_, (hd.openNode .mapping rfl).bump.expect _,
      And.intro rfl fun _ => And.intro rfl (And.intro hmark rfl)⟩
  · exact ⟨_, (hd.openNode .functionTypeName rfl).bump, And.intro hmark rfl⟩
  · split
    · exact ⟨_, hd.typePath, And.intro hmark rfl⟩
    · exact ⟨_, hd.fault _, rfl⟩

/-- A type is taken in by its suffix from behind the names of the node around it. -/
theorem arraySuffix (h : Steps start (o :: nodes) d) {mark : Nat} (hmark : o.named ≤ mark) :
    (arraySuffix mark d).Keeps start (o :: nodes) := by
  have hopened := (h.openAt hmark .arrayTypeName rfl).bump
  unfold Grammar.arraySuffix
  split
  · simp only
    split
    · exact ⟨_, hopened.bump.close, And.intro hmark rfl⟩
    · exact ⟨_, hopened, And.intro hmark rfl⟩
  · exact ⟨_, h, rfl⟩

/-- The arrow of a mapping is read behind a name of its key, or none. -/
theorem mappingArrow (h : Steps start (o :: nodes) d) (hkind : o.kind = .mapping)
    {after : List OpenNode → Prop} (hafter : ∀ n, after (⟨o.kind, n⟩ :: nodes)) :
    ∃ now, Steps start now (mappingArrow d).1 ∧ Goal.LeadAll after (mappingArrow d).2 now :=
  ⟨_, (h.eatName (NodeKind.takesNames_of_eq _ (.inr hkind))).expect _, hafter _⟩

theorem mappingEnd (h : Steps start (o :: nodes) d) (hkind : o.kind = .mapping) :
    (mappingEnd d).Keeps start nodes :=
  ⟨_, ((h.eatName (NodeKind.takesNames_of_eq _ (.inr hkind))).expect _).close, rfl⟩

theorem functionTypeEnd (h : Steps start (o :: nodes) d) :
    (functionTypeEnd d).Keeps start nodes := by
  have hd := h.bumpWhile isFunctionTypeAttribute
  unfold Grammar.functionTypeEnd
  simp only
  split
  · exact ⟨_, (hd.openNode .returnParameters rfl).bump, rfl⟩
  · exact ⟨_, hd.close, rfl⟩

theorem parameters (h : Steps start nodes d) : (parameters d).Keeps start nodes := by
  have hd := h.openNode .parameterList rfl
  unfold Grammar.parameters
  simp only
  split
  · exact ⟨_, hd.bump, rfl⟩
  · exact ⟨_, (hd.expect _).close, rfl⟩

theorem parameterRow (h : Steps start (o :: nodes) d) : (parameterRow d).Keeps start nodes := by
  unfold Grammar.parameterRow
  split
  · exact ⟨_, (h.expect _).close, rfl⟩
  · split
    · exact (h.openNode .variableDeclaration rfl).typeStart.andThen (And.intro rfl rfl)
    · exact ⟨_, h.recover _ _, rfl⟩

theorem parameterEnd (h : Steps start (o :: nodes) d) (hkind : o.kind = .variableDeclaration) :
    (parameterEnd d).Keeps start nodes :=
  ⟨_, ((h.bumpWhile _).eatName (NodeKind.takesNames_of_eq _ (.inl hkind))).close, rfl⟩

theorem moreParameters (h : Steps start (o :: nodes) d) : (moreParameters d).Keeps start nodes := by
  unfold Grammar.moreParameters
  split
  · exact ⟨_, h.bump, rfl⟩
  · exact ⟨_, (h.expect _).close, rfl⟩

/-! ## Expressions -/

theorem emptyBrackets (h : Steps start (o :: nodes) d) {mark : Nat} (hmark : o.named ≤ mark) :
    Steps start (o :: nodes) (emptyBrackets mark d) := by
  fun_induction Grammar.emptyBrackets mark d with
  | case1 d hmore ih => exact ih (h.openAt hmark .arrayTypeName rfl).bump.bump.close
  | case2 => exact h

theorem noExpression (h : Steps start nodes d) : Steps start nodes (noExpression d) :=
  h.skipTrivia.fault _

theorem primaryStart (h : Steps start nodes d) (hstarts : startsPrimary d.kind = true) :
    (primaryStart d).Keeps start nodes := by
  unfold Grammar.primaryStart
  split
  iterate 2
    · have hnumber := (h.openNode .numberLiteral rfl).bump
      simp only
      split
      · exact ⟨_, hnumber.bump.close, rfl⟩
      · exact ⟨_, hnumber.close, rfl⟩
  iterate 2
    · exact ⟨_, (h.openNode .booleanLiteral rfl).bump.close, rfl⟩
  · exact ⟨_, ((h.openNode .stringLiteral rfl).bump.bumpWhile _).close, rfl⟩
  · exact ⟨_, ((h.openNode .hexLiteral rfl).bump.bumpWhile _).close, rfl⟩
  iterate 2
    · exact ⟨_, (h.openNode .tupleExpression rfl).bump, rfl⟩
  · exact ⟨_, (h.openNode .newExpression rfl).bump, rfl⟩
  iterate 2
    · have hopened := (h.openNode .typeNameExpression rfl).elementaryType
      exact ⟨_, (hopened.emptyBrackets (Nat.zero_le _)).close, rfl⟩
  · have hnamed : (d.openNode .identifier).kind.isNameIn .identifier
        (d.openNode .identifier).top.before? = true := by
      rw [Draft.kind_openNode]
      unfold startsPrimary at hstarts
      split at hstarts <;> simp_all [TokenKind.isNameIn]
    exact ⟨_, ((h.openNode .identifier rfl).name hnamed).close, rfl⟩

theorem expressionStart (h : Steps start (o :: nodes) d) (min : Nat)
    (hstarts : startsExpression d.kind = true) :
    (expressionStart min d).Keeps start (o :: nodes) := by
  have hd := h.skipTrivia
  have hmark := hd.named_le_mark
  rw [← Draft.kind_skipTrivia, startsExpression, Bool.or_eq_true] at hstarts
  unfold Grammar.expressionStart
  simp only
  split
  · exact ⟨_, (hd.openNode .unaryOperation rfl).bump, And.intro hmark rfl⟩
  · rename_i hfront
    exact (hd.primaryStart (hstarts.resolve_left hfront)).andThen
      (And.intro hmark (And.intro hmark rfl))

/-- An expression may be opened at its mark, since no name stands behind that. -/
theorem expression (h : Steps start (o :: nodes) d) (min : Nat) :
    (expression min d).Keeps start (o :: nodes) := by
  unfold Grammar.expression
  split
  · rename_i hstarts
    exact h.expressionStart min hstarts
  · exact ⟨_, h.noExpression, rfl⟩

theorem operand (h : Steps start (o :: nodes) d) (min : Nat) (missing : FaultCause) :
    (operand min missing d).Keeps start (o :: nodes) := by
  unfold Grammar.operand
  split
  · rename_i hstarts
    exact h.expressionStart min hstarts
  · exact ⟨_, h.noExpression.fault _, rfl⟩

/-- An operand is taken in by its operator from behind the names of the node around it. -/
theorem operators (h : Steps start (o :: nodes) d) {mark : Nat} (hmark : o.named ≤ mark)
    (min : Nat) : (operators mark min d).Keeps start (o :: nodes) := by
  unfold Grammar.operators
  split
  · split
    · exact ⟨_, (h.openAt hmark .conditional rfl).bump, And.intro hmark rfl⟩
    · exact ⟨_, h, rfl⟩
  · split
    · split
      · exact ⟨_, (h.openAt hmark .binaryOperation rfl).bump, And.intro hmark rfl⟩
      · exact ⟨_, h, rfl⟩
    · exact ⟨_, h, rfl⟩

theorem argumentsStart (h : Steps start nodes d) : (argumentsStart d).Keeps start nodes := by
  have hd := (h.openNode .callArguments rfl).bump
  unfold Grammar.argumentsStart
  simp only
  split
  · exact ⟨_, (hd.openNode .nameValueList rfl).bump, rfl⟩
  · exact ⟨_, hd, rfl⟩

/-- Behind the dot of an access every word is a name. -/
theorem memberName (h : Steps start (o :: nodes) d) (hkind : o.kind = .memberAccess)
    (hdot : d.top.before? = some .dot) :
    Steps start (⟨o.kind, (memberName d).mark⟩ :: nodes) (memberName d) := by
  unfold Grammar.memberName
  split
  · rename_i hname
    refine h.name ?_
    rw [hkind, hdot]
    simp only [Draft.isAt, Draft.atName, Bool.or_eq_true, beq_iff_eq] at hname
    rcases hname with (hident | hname) | hkeyword
    · rw [hident]
      rfl
    · simp [TokenKind.isNameIn, hname]
    · simp [TokenKind.isNameIn, hkeyword]
  · exact (h.fault _).forget

/-- An operand is taken in by its suffix from behind the names of the node around it. -/
theorem suffixes (h : Steps start (o :: nodes) d) {mark : Nat} (hmark : o.named ≤ mark)
    (last : Option NodeKind) : (suffixes mark last d).Keeps start (o :: nodes) := by
  unfold Grammar.suffixes
  split
  · rename_i hkind
    have hdot : (d.openAt mark .memberAccess).bump.top.before? = some .dot :=
      before?_bump_of_kind (by decide) hkind
    exact ⟨_, ((h.openAt hmark .memberAccess rfl).bump.memberName rfl hdot).close,
      And.intro hmark rfl⟩
  · simp only
    split
    · exact ⟨_, h.bump, And.intro hmark rfl⟩
    · exact ⟨_, h.bump, And.intro hmark rfl⟩
  · exact (h.openAt hmark .functionCall rfl).argumentsStart.andThen (And.intro hmark rfl)
  · split
    · exact ⟨_, ((h.openAt hmark .nameValueExpression rfl).openNode .nameValueList rfl).bump,
        And.intro hmark rfl⟩
    · exact ⟨_, h, rfl⟩
  iterate 2
    · exact ⟨_, (h.openAt hmark .unaryOperation rfl).bump.close, And.intro hmark rfl⟩
  · exact ⟨_, h, rfl⟩

theorem indexMiddle (h : Steps start (o :: nodes) d) {mark : Nat} (hmark : o.named ≤ mark) :
    (indexMiddle mark d).Keeps start (o :: nodes) := by
  have hafter := And.intro hmark (rfl : NodeKind.opensAt (nodes.length + 1) .indexAccess = true)
  unfold Grammar.indexMiddle
  split
  · simp only
    split
    · exact ⟨_, h.bump, And.intro hafter rfl⟩
    · exact ⟨_, h.bump, And.intro hafter rfl⟩
  · exact ⟨_, h, And.intro hafter rfl⟩

theorem indexEnd (h : Steps start (o :: nodes) d) {mark : Nat} (hmark : o.named ≤ mark)
    {k : NodeKind} (hk : k.opensAt (nodes.length + 1) = true) :
    (indexEnd mark k d).Keeps start (o :: nodes) :=
  ⟨_, ((h.expect _).openAt hmark k hk).close, And.intro hmark rfl⟩

theorem closeParen (h : Steps start (o :: nodes) d) : Steps start nodes (closeParen d) :=
  (h.expect _).close

theorem closeBrace (h : Steps start (o :: nodes) d) : Steps start nodes (closeBrace d) :=
  (h.expect _).close

theorem arguments (h : Steps start (o :: nodes) d) : (arguments d).Keeps start nodes := by
  unfold Grammar.arguments
  split
  · exact ⟨_, h.closeParen, rfl⟩
  · split
    · rename_i hstarts
      exact (h.expressionStart 0 hstarts).andThen rfl
    · exact ⟨_, h.noExpression.closeParen, rfl⟩

theorem moreArguments (h : Steps start (o :: nodes) d) : (moreArguments d).Keeps start nodes := by
  unfold Grammar.moreArguments
  split
  · exact ⟨_, h.bump, rfl⟩
  · exact ⟨_, h.closeParen, rfl⟩

theorem namedValues (h : Steps start (o :: nodes) d) : (namedValues d).Keeps start nodes := by
  unfold Grammar.namedValues
  split
  · exact ⟨_, ((h.openNode .namedArgument rfl).expectName fun _ => id).expect _, rfl⟩
  · exact ⟨_, h.closeBrace, rfl⟩

theorem moreNamedValues (h : Steps start (o :: nodes) d) :
    (moreNamedValues d).Keeps start nodes := by
  unfold Grammar.moreNamedValues
  split
  · exact ⟨_, h.bump, rfl⟩
  · exact ⟨_, h.closeBrace, rfl⟩

theorem tupleEnd (h : Steps start (o :: nodes) d) (opening closing : TokenKind) :
    Steps start nodes (tupleEnd opening closing d) := by
  unfold Grammar.tupleEnd
  split
  · exact h.bump.close
  · exact (h.fault _).close

theorem tupleItems (h : Steps start (o :: nodes) d) (opening closing : TokenKind) :
    (tupleItems opening closing d).Keeps start nodes := by
  unfold Grammar.tupleItems
  split
  · exact ⟨_, h.bump, rfl⟩
  · split
    · exact ⟨_, h.tupleEnd opening closing, rfl⟩
    · split
      · rename_i hstarts
        exact (h.expressionStart 0 hstarts).andThen rfl
      · exact ⟨_, h.noExpression.tupleEnd opening closing, rfl⟩

theorem moreTupleItems (h : Steps start (o :: nodes) d) (opening closing : TokenKind) :
    (moreTupleItems opening closing d).Keeps start nodes := by
  unfold Grammar.moreTupleItems
  split
  · exact ⟨_, h.bump, rfl⟩
  · exact ⟨_, h.tupleEnd opening closing, rfl⟩

end Draft.Steps

end SolidityAtlas

import SolidityAtlas.Proofs.Syntax.Alike.Draft

/-!
# Types and expressions that differ in trivia

Each rule for a type or an expression makes drafts that are alike of drafts that are alike, or
notes a fault. A rule that is pursued with a mark is given marks that go together, and what it
leaves forgets the marks behind these.
-/

namespace SolidityAtlas

open Marks (Known known_upTo known_upTo_upTo upTo_self)

namespace Draft

open Grammar

variable {d e : Draft} {nodes : List Marks} {marks : Marks} {m m' : Nat}

/-! ## Types -/

/-- A fault stays when further segments of a name are read. -/
theorem Faulty.moreSegments (h : d.Faulty) : (Grammar.moreSegments d).Faulty := by
  fun_induction Grammar.moreSegments d with
  | case1 d hmore ih => exact ih (Faulty.expectName (faulty_bump.2 h))
  | case2 => exact h

/-- Further segments are read where both drafts have a dot. -/
theorem Follows.moreSegments (h : Follows nodes d e) :
    Follows nodes (Grammar.moreSegments d) (Grammar.moreSegments e) := by
  rcases h with hfaulty | h
  · exact .inl hfaulty.moreSegments
  fun_induction Grammar.moreSegments d generalizing e with
  | case1 d hmore ih =>
      have he : Grammar.moreSegments e = Grammar.moreSegments e.bump.expectName := by
        rw [Grammar.moreSegments, dif_pos (by rwa [h.isAt, h.kindAt])]
      rw [he]
      exact h.bump.expectName.elim (fun hfaulty => .inl hfaulty.moreSegments) ih
  | case2 d hdone =>
      rw [Grammar.moreSegments, dif_neg (by rwa [h.isAt, h.kindAt])]
      exact h.follows

namespace Alike

/-- A path that does not start with a name is a fault on both sides. -/
theorem typePath (h : Alike nodes d e) : Follows nodes (typePath d) (typePath e) :=
  (h.openNode .userDefinedTypeName).expectName.moreSegments.close

theorem elementaryType (h : Alike nodes d e) : Alike nodes (elementaryType d) (elementaryType e) := by
  have htaken := (h.openNode .elementaryTypeName).bump
  unfold Grammar.elementaryType
  simp only [h.textHere]
  split
  · exact (htaken.eat _).close
  · exact htaken.close

/-- What kind of type starts is seen in the next token. -/
theorem typeStart (h : Alike (marks :: nodes) d e) :
    (typeStart d).Alike (marks :: nodes) (typeStart e) := by
  have hd := h.skipTrivia
  have hmarked := hd.marked ahead_skipTrivia ahead_skipTrivia
  -- The marks in front of the type go together from now on.
  have hsuffix : Goal.LeadAllAlike (Known (marks :: nodes)) [.arraySuffix d.skipTrivia.mark]
      [.arraySuffix e.skipTrivia.mark] (marks.add d.skipTrivia.mark e.skipTrivia.mark :: nodes) :=
    ⟨_, .inr ⟨rfl, rfl⟩, rfl, hd.known_marked⟩
  unfold Grammar.typeStart
  simp only [hd.kind]
  split
  · exact .of hmarked.elementaryType.follows hsuffix
  · exact .of ((hmarked.openNode .mapping).bump.expect _) ⟨rfl, rfl, rfl, rfl, hsuffix⟩
  · exact .of (hmarked.openNode .functionTypeName).bump.follows ⟨rfl, rfl, hsuffix⟩
  · split
    · exact .of hmarked.typePath hsuffix
    · exact .inl (faulty_fault _)

/-- The suffixes of a type start at marks that belong together. -/
theorem arraySuffix (h : Alike (marks :: nodes) d e) (hm : marks m m') :
    (arraySuffix m d).Alike (marks.upTo m m' :: nodes) (arraySuffix m' e) := by
  have hopened := (h.openAt hm .arrayTypeName).bump
  have hsuffix : Goal.LeadAllAlike (Known (marks.upTo m m' :: nodes)) [.arraySuffix m]
      [.arraySuffix m'] (marks.upTo m m' :: nodes) :=
    ⟨m', upTo_self hm, rfl, known_upTo_upTo _ _ _ _⟩
  unfold Grammar.arraySuffix
  simp only [h.isAt, hopened.isAt]
  split
  · split
    · exact .of hopened.bump.close.follows hsuffix
    · exact .of hopened.follows ⟨rfl, rfl, rfl, hsuffix⟩
  · exact .of h.follows (known_upTo _ _ _ _)

theorem mappingArrow (h : Alike nodes d e) : (mappingArrow d).Alike nodes (mappingArrow e) :=
  .done (h.eatName.expect _)

theorem mappingEnd (h : Alike (marks :: nodes) d e) : (mappingEnd d).Alike nodes (mappingEnd e) :=
  .done (h.eatName.expect _).close

theorem functionTypeEnd (h : Alike (marks :: nodes) d e) :
    (functionTypeEnd d).Alike nodes (functionTypeEnd e) := by
  have hd := h.bumpWhile isFunctionTypeAttribute
  unfold Grammar.functionTypeEnd
  simp only [hd.isAt]
  split
  · exact .of (hd.openNode .returnParameters).bump.follows ⟨rfl, rfl, rfl, .refl _⟩
  · exact .done hd.close.follows

theorem parameters (h : Alike nodes d e) : (parameters d).Alike nodes (parameters e) := by
  have hd := h.openNode .parameterList
  unfold Grammar.parameters
  simp only [hd.isAt]
  split
  · exact .of hd.bump.follows ⟨rfl, .refl _⟩
  · exact .done (hd.expect _).close

theorem parameterRow (h : Alike (marks :: nodes) d e) :
    (parameterRow d).Alike nodes (parameterRow e) := by
  unfold Grammar.parameterRow
  rw [h.atEnd, h.isAt, h.kind]
  split
  · exact .done (h.expect _).close
  · split
    · exact (h.openNode .variableDeclaration).typeStart.andThen ⟨rfl, rfl, .refl _⟩
    · exact .inl (faulty_recover _ _)

theorem parameterEnd (h : Alike (marks :: nodes) d e) :
    (parameterEnd d).Alike nodes (parameterEnd e) :=
  .done (h.bumpWhile _).eatName.close.follows

theorem moreParameters (h : Alike (marks :: nodes) d e) :
    (moreParameters d).Alike nodes (moreParameters e) := by
  unfold Grammar.moreParameters
  rw [h.isAt]
  split
  · exact .of h.bump.follows ⟨rfl, .refl _⟩
  · exact .done (h.expect _).close

/-! ## Expressions -/

/-- Empty brackets take in a type from marks that belong together. -/
theorem emptyBrackets (h : Alike (marks :: nodes) d e) (hm : marks m m') :
    Alike (marks.upTo m m' :: nodes) (emptyBrackets m d) (emptyBrackets m' e) := by
  fun_induction Grammar.emptyBrackets m d generalizing e marks with
  | case1 d hmore ih =>
      have he : Grammar.emptyBrackets m' e =
          Grammar.emptyBrackets m' (e.openAt m' .arrayTypeName).bump.bump.close := by
        rw [Grammar.emptyBrackets, dif_pos (by rwa [h.isAt, h.kindAt])]
      rw [he]
      exact (ih (h.openAt hm .arrayTypeName).bump.bump.close (upTo_self hm)).forget
        (known_upTo_upTo _ _ _ _)
  | case2 d hdone =>
      rw [Grammar.emptyBrackets, dif_neg (by rwa [h.isAt, h.kindAt])]
      exact h.forget (known_upTo _ _ _ _)

theorem primaryStart (h : Alike nodes d e) : (primaryStart d).Alike nodes (primaryStart e) := by
  unfold Grammar.primaryStart
  rw [h.kind]
  split
  iterate 2
    · have hnumber := (h.openNode .numberLiteral).bump
      simp only [hnumber.isAt, hnumber.textHere]
      split
      · exact .done hnumber.bump.close.follows
      · exact .done hnumber.close.follows
  iterate 2
    · exact .done (h.openNode .booleanLiteral).bump.close.follows
  · exact .done ((h.openNode .stringLiteral).bump.bumpWhile _).close.follows
  · exact .done ((h.openNode .hexLiteral).bump.bumpWhile _).close.follows
  iterate 2
    · exact .of (h.openNode .tupleExpression).bump.follows ⟨rfl, .refl _⟩
  · exact .of (h.openNode .newExpression).bump.follows ⟨rfl, rfl, .refl _⟩
  iterate 2
    · have hmarked := (h.openNode .typeNameExpression).marked ahead_skipTrivia ahead_skipTrivia
      exact .done (hmarked.elementaryType.emptyBrackets (.inr ⟨rfl, rfl⟩)).close.follows
  · exact .done ((h.openNode .identifier).bumpAs rfl).close.follows

/-- An expression marks where it starts, on both sides. -/
theorem expressionStart (h : Alike (marks :: nodes) d e) (min : Nat) :
    (expressionStart min d).Alike (marks :: nodes) (expressionStart min e) := by
  have hd := h.skipTrivia
  have hmarked := hd.marked ahead_skipTrivia ahead_skipTrivia
  unfold Grammar.expressionStart
  simp only [hd.kind]
  split
  · exact .of (hmarked.openNode .unaryOperation).bump.follows
      ⟨rfl, rfl, _, .inr ⟨rfl, rfl⟩, rfl, hd.known_marked⟩
  · exact hmarked.primaryStart.andThen
      ⟨_, .inr ⟨rfl, rfl⟩, rfl, _, upTo_self (.inr ⟨rfl, rfl⟩), rfl,
        hd.known_marked.trans (known_upTo_upTo _ _ _ _)⟩

theorem expression (h : Alike (marks :: nodes) d e) (min : Nat) :
    (expression min d).Alike (marks :: nodes) (expression min e) := by
  unfold Grammar.expression
  rw [h.kind]
  split
  · exact h.expressionStart min
  · exact .inl (faulty_fault _)

/-- Where an operand is missing both drafts are faulty. -/
theorem operand (h : Alike (marks :: nodes) d e) (min : Nat) (missing : FaultCause) :
    (operand min missing d).Alike (marks :: nodes) (operand min missing e) := by
  unfold Grammar.operand
  rw [h.kind]
  split
  · exact h.expressionStart min
  · exact .inl (faulty_fault _)

/-- The operators behind an operand take it in from marks that belong together. -/
theorem operators (h : Alike (marks :: nodes) d e) (hm : marks m m') (min : Nat) :
    (operators m min d).Alike (marks.upTo m m' :: nodes) (operators m' min e) := by
  have hoperators : Goal.LeadAllAlike (Known (marks.upTo m m' :: nodes)) [.operators m min]
      [.operators m' min] (marks.upTo m m' :: nodes) :=
    ⟨m', upTo_self hm, rfl, known_upTo_upTo _ _ _ _⟩
  have hnone : Pursuit.Alike (marks.upTo m m' :: nodes) (d, []) (e, []) :=
    .of h.follows (known_upTo _ _ _ _)
  unfold Grammar.operators
  rw [h.isAt, h.kind]
  split
  · split
    · exact .of (h.openAt hm .conditional).bump.follows ⟨rfl, rfl, rfl, rfl, hoperators⟩
    · exact hnone
  · split
    · split
      · exact .of (h.openAt hm .binaryOperation).bump.follows ⟨rfl, rfl, hoperators⟩
      · exact hnone
    · exact hnone

theorem argumentsStart (h : Alike nodes d e) :
    (argumentsStart d).Alike nodes (argumentsStart e) := by
  have hd := (h.openNode .callArguments).bump
  unfold Grammar.argumentsStart
  simp only [hd.isAt]
  split
  · exact .of (hd.openNode .nameValueList).bump.follows ⟨rfl, rfl, rfl, .refl _⟩
  · exact .of hd.follows ⟨rfl, .refl _⟩

theorem memberName (h : Alike nodes d e) : Follows nodes (memberName d) (memberName e) := by
  unfold Grammar.memberName
  rw [h.isAt, h.atName, h.kind]
  split
  · exact (h.bumpAs rfl).follows
  · exact .inl (faulty_fault _)

/-- The suffixes behind an operand take it in from marks that belong together. -/
theorem suffixes (h : Alike (marks :: nodes) d e) (hm : marks m m') (last : Option NodeKind) :
    (suffixes m last d).Alike (marks.upTo m m' :: nodes) (suffixes m' last e) := by
  have hsuffixes : ∀ k, Goal.LeadAllAlike (Known (marks.upTo m m' :: nodes)) [.suffixes m (some k)]
      [.suffixes m' (some k)] (marks.upTo m m' :: nodes) :=
    fun _ => ⟨m', upTo_self hm, rfl, known_upTo_upTo _ _ _ _⟩
  have hnone : Pursuit.Alike (marks.upTo m m' :: nodes) (d, []) (e, []) :=
    .of h.follows (known_upTo _ _ _ _)
  unfold Grammar.suffixes
  simp only [h.kind, h.kindAt, h.bump.isAt]
  split
  · exact .of (h.openAt hm .memberAccess).bump.memberName.close (hsuffixes _)
  · split
    · exact .of h.bump.follows ⟨m', hm, rfl, .refl _⟩
    · exact .of h.bump.follows ⟨rfl, m', hm, rfl, .refl _⟩
  · exact (h.openAt hm .functionCall).argumentsStart.andThen ⟨rfl, hsuffixes _⟩
  · split
    · exact .of ((h.openAt hm .nameValueExpression).openNode .nameValueList).bump.follows
        ⟨rfl, rfl, hsuffixes _⟩
    · exact hnone
  iterate 2
    · exact .of (h.openAt hm .unaryOperation).bump.close.follows (hsuffixes _)
  · exact hnone

theorem indexMiddle (h : Alike (marks :: nodes) d e) (hm : marks m m') :
    (indexMiddle m d).Alike (marks.upTo m m' :: nodes) (indexMiddle m' e) := by
  unfold Grammar.indexMiddle
  simp only [h.isAt, h.bump.isAt]
  split
  · split
    · exact .of h.bump.follows ⟨m', hm, rfl, .refl _⟩
    · exact .of h.bump.follows ⟨rfl, m', hm, rfl, .refl _⟩
  · exact .of h.follows ⟨m', hm, rfl, .refl _⟩

theorem indexEnd (h : Alike (marks :: nodes) d e) (hm : marks m m') (k : NodeKind) :
    (indexEnd m k d).Alike (marks.upTo m m' :: nodes) (indexEnd m' k e) := by
  rcases h.expect .rBracket with hfaulty | hd
  · exact .inl (faulty_close.2 hfaulty)
  · exact .of (hd.openAt hm k).close.follows
      ⟨m', upTo_self hm, rfl, known_upTo_upTo _ _ _ _⟩

end Alike

/-- Drafts that follow each other do so when a parenthesis is closed. -/
theorem Follows.closeParen (h : Follows (marks :: nodes) d e) :
    Follows nodes (Grammar.closeParen d) (Grammar.closeParen e) :=
  (h.expect _).close

theorem Follows.closeBrace (h : Follows (marks :: nodes) d e) :
    Follows nodes (Grammar.closeBrace d) (Grammar.closeBrace e) :=
  (h.expect _).close

/-- A fault stays when a parenthesis is closed. -/
theorem Faulty.closeParen (h : d.Faulty) : (Grammar.closeParen d).Faulty :=
  faulty_close.2 (h.expect _)

theorem Faulty.tupleEnd (h : d.Faulty) (opening closing : TokenKind) :
    (Grammar.tupleEnd opening closing d).Faulty := by
  unfold Grammar.tupleEnd
  split <;> simp [h]

theorem Faulty.argumentsStart (h : d.Faulty) : (Grammar.argumentsStart d).1.Faulty := by
  unfold Grammar.argumentsStart
  simp only
  split <;> simp [h]

namespace Alike

theorem arguments (h : Alike (marks :: nodes) d e) : (arguments d).Alike nodes (arguments e) := by
  unfold Grammar.arguments
  rw [h.isAt, h.atEnd, h.kind]
  split
  · exact .done h.follows.closeParen
  · split
    · exact (h.expressionStart 0).andThen ⟨rfl, .refl _⟩
    · exact .inl (Faulty.closeParen (faulty_fault _))

theorem moreArguments (h : Alike (marks :: nodes) d e) :
    (moreArguments d).Alike nodes (moreArguments e) := by
  unfold Grammar.moreArguments
  rw [h.isAt]
  split
  · exact .of h.bump.follows ⟨rfl, .refl _⟩
  · exact .done h.follows.closeParen

theorem namedValues (h : Alike (marks :: nodes) d e) :
    (namedValues d).Alike nodes (namedValues e) := by
  unfold Grammar.namedValues
  rw [h.atName]
  split
  · exact .of ((h.openNode .namedArgument).expectName.expect _) ⟨rfl, rfl, rfl, .refl _⟩
  · exact .done h.follows.closeBrace

theorem moreNamedValues (h : Alike (marks :: nodes) d e) :
    (moreNamedValues d).Alike nodes (moreNamedValues e) := by
  unfold Grammar.moreNamedValues
  rw [h.isAt]
  split
  · exact .of h.bump.follows ⟨rfl, .refl _⟩
  · exact .done h.follows.closeBrace

theorem tupleEnd (h : Alike (marks :: nodes) d e) (opening closing : TokenKind) :
    Follows nodes (tupleEnd opening closing d) (tupleEnd opening closing e) := by
  unfold Grammar.tupleEnd
  rw [h.isAt]
  split
  · exact h.bump.close.follows
  · exact .inl (faulty_close.2 (faulty_fault _))

theorem tupleItems (h : Alike (marks :: nodes) d e) (opening closing : TokenKind) :
    (tupleItems opening closing d).Alike nodes (tupleItems opening closing e) := by
  unfold Grammar.tupleItems
  rw [h.isAt, h.isAt, h.atEnd, h.kind]
  split
  · exact .of h.bump.follows ⟨rfl, .refl _⟩
  · split
    · exact .done (h.tupleEnd opening closing)
    · split
      · exact (h.expressionStart 0).andThen ⟨rfl, .refl _⟩
      · exact .inl (Faulty.tupleEnd (faulty_fault _) opening closing)

/-- The items of a tuple are counted alike: whether one is empty is seen in the next token. -/
theorem moreTupleItems (h : Alike (marks :: nodes) d e) (opening closing : TokenKind) :
    (moreTupleItems opening closing d).Alike nodes (moreTupleItems opening closing e) := by
  unfold Grammar.moreTupleItems
  rw [h.isAt]
  split
  · exact .of h.bump.follows ⟨rfl, .refl _⟩
  · exact .done (h.tupleEnd opening closing)

end Alike

end Draft

end SolidityAtlas

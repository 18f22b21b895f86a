import SolidityAtlas.Proofs.Syntax.Extents.Basic

/-!
# Extents of types and expressions

Each rule for a type or an expression keeps drafts trim. It leaves goals that open nodes only at
known places, and a draft in which the innermost node may be closed. A rule that is pursued with a
mark is given a place, and what it leaves forgets the places behind.
-/

namespace SolidityAtlas

namespace Draft

open Grammar

variable {d : Draft} {nodes : List (Set Nat)} {places : Set Nat} {m : Nat}

/-! ## Types -/

/-- Further segments end with a name. -/
theorem Settled.moreSegments (h : Settled nodes d) : Settled nodes (moreSegments d) := by
  fun_induction Grammar.moreSegments d with
  | case1 d hmore ih => exact ih (h.trim.bumpAt hmore.1 (by decide)).trim.expectName
  | case2 => exact h

namespace Trim

/-- A path ends with a name, or in a fault. -/
theorem typePath (h : Trim nodes d) : Settled nodes (typePath d) :=
  (h.openNode .userDefinedTypeName).expectName.moreSegments.close

theorem elementaryType (h : Trim nodes d) (hmore : d.atEnd = false) :
    Settled nodes (elementaryType d) := by
  have htaken := (h.openNode .elementaryTypeName).bumpNext (by rwa [atEnd_openNode])
  unfold Grammar.elementaryType
  simp only
  split
  · exact (htaken.eat (by decide)).close
  · exact htaken.close

theorem typeStart (h : Trim (places :: nodes) d) : (typeStart d).Trim (places :: nodes) := by
  have hd := h.skipTrivia
  have hmarked := hd.marked ahead_skipTrivia
  -- A node may be opened in front of the type from now on.
  have hsuffix : Goal.SuitAll (places :: nodes) [.arraySuffix d.skipTrivia.mark]
      (insert d.skipTrivia.mark places :: nodes) :=
    ⟨.inl rfl, hd.known_marked⟩
  unfold Grammar.typeStart
  simp only
  split
  · rename_i hkind
    exact .of (hmarked.elementaryType (atEnd_of_kind (by decide) hkind)) hsuffix
  · exact .of ((hmarked.openNode .mapping).bump.expect (by decide)) hsuffix
  · rename_i hkind
    exact .of (hmarked.openNext .functionTypeName (atEnd_of_kind (by decide) hkind)) hsuffix
  · split
    · exact .of hmarked.typePath hsuffix
    · exact .done (hd.fault _)

end Trim

namespace Settled

/-- The suffixes of a type take it in from a place of its node. -/
theorem arraySuffix (h : Settled (places :: nodes) d) (hm : m ∈ places) :
    (arraySuffix m d).Trim (placesUpTo places m :: nodes) := by
  have hsuffix : Goal.SuitAll (placesUpTo places m :: nodes) [.arraySuffix m]
      (placesUpTo places m :: nodes) :=
    ⟨mem_placesUpTo hm, known_placesUpTo_twice _ _ _⟩
  unfold Grammar.arraySuffix
  split
  · rename_i hat
    have hopened := (h.trim.openAt hm .arrayTypeName).bumpAt hat (by decide)
    simp only
    split
    · rename_i hempty
      exact .of (hopened.trim.bumpAt hempty (by decide)).close hsuffix
    · exact .of hopened ⟨by decide, hsuffix⟩
  · exact .of h (known_placesUpTo _ _ _)

theorem mappingArrow (h : Settled nodes d) : (mappingArrow d).Trim nodes :=
  .done (h.eatName.trim.expect (by decide))

theorem mappingEnd (h : Settled (places :: nodes) d) : (mappingEnd d).Trim nodes :=
  .done (h.eatName.trim.expect (by decide)).close

theorem functionTypeEnd (h : Settled (places :: nodes) d) : (functionTypeEnd d).Trim nodes := by
  have hd := h.bumpWhile isFunctionTypeAttribute
  unfold Grammar.functionTypeEnd
  simp only
  split
  · rename_i hat
    exact .of (hd.trim.openNext .returnParameters (atEnd_of_at (by decide) hat)) (.refl _)
  · exact .done hd.close

theorem parameters (h : Settled nodes d) : (parameters d).Trim nodes := by
  have hd := h.trim.openNode .parameterList
  unfold Grammar.parameters
  simp only
  exact .bumpIf hd (by decide) (.refl _) (.done (hd.expect (by decide)).close)

theorem parameterRow (h : Settled (places :: nodes) d) : (parameterRow d).Trim nodes := by
  unfold Grammar.parameterRow
  split
  · exact .done (h.trim.expect (by decide)).close
  · split
    · exact (h.trim.openNode .variableDeclaration).typeStart.andThen (.refl _)
    · exact .of (h.trim.recover _ _) (.refl _)

theorem parameterEnd (h : Settled (places :: nodes) d) : (parameterEnd d).Trim nodes :=
  .done (h.bumpWhile _).eatName.close

theorem moreParameters (h : Settled (places :: nodes) d) : (moreParameters d).Trim nodes := by
  unfold Grammar.moreParameters
  exact .bumpIf h.trim (by decide) (.refl _) (.done (h.trim.expect (by decide)).close)

/-! ## Expressions -/

/-- Empty brackets take in a type from a place of its node. -/
theorem emptyBrackets (h : Settled (places :: nodes) d) (hm : m ∈ places) :
    Settled (placesUpTo places m :: nodes) (emptyBrackets m d) := by
  fun_induction Grammar.emptyBrackets m d generalizing places with
  | case1 d hmore ih =>
      have hopened := (h.trim.openAt hm .arrayTypeName).bumpAt hmore.1 (by decide)
      have hclosed := (hopened.trim.bumpNext (atEnd_bump_of_kindAt (d := d.openAt m .arrayTypeName)
        (by decide) hmore.2)).close
      exact (ih hclosed (mem_placesUpTo hm)).forget (known_placesUpTo_twice _ _ _)
  | case2 => exact h.forget (known_placesUpTo _ _ _)

end Settled

namespace Trim

theorem noExpression (h : Trim nodes d) : Settled nodes (noExpression d) :=
  h.skipTrivia.fault _

theorem primaryStart (h : Trim nodes d) (hstarts : startsPrimary d.kind = true) :
    (primaryStart d).Trim nodes := by
  have hmore := atEnd_of_test (p := startsPrimary) rfl hstarts
  have hnext := fun k => h.openNext k hmore
  unfold Grammar.primaryStart
  split
  iterate 2
    · have hnumber := hnext .numberLiteral
      simp only
      split
      · rename_i hunit
        rw [Bool.and_eq_true] at hunit
        exact .done (hnumber.trim.bumpAt hunit.1 (by decide)).close
      · exact .done hnumber.close
  iterate 2
    · exact .done (hnext .booleanLiteral).close
  · exact .done ((hnext .stringLiteral).bumpWhile _).close
  · exact .done ((hnext .hexLiteral).bumpWhile _).close
  iterate 2
    · exact .of (hnext .tupleExpression) ⟨by decide, .refl _⟩
  · exact .of (hnext .newExpression) (.refl _)
  iterate 2
    · have hmarked := (h.openNode .typeNameExpression).marked ahead_skipTrivia
      have htype := hmarked.elementaryType (by rwa [atEnd_openNode])
      exact .done (htype.emptyBrackets (.inl rfl)).close
  · exact .done ((h.openNode .identifier).bumpAs (by rwa [atEnd_openNode])).close

/-- An expression starts at a place of the node around it. -/
theorem expressionStart (h : Trim (places :: nodes) d) (min : Nat)
    (hstarts : startsExpression d.kind = true) :
    (expressionStart min d).Trim (places :: nodes) := by
  have hd := h.skipTrivia
  have hmarked := hd.marked ahead_skipTrivia
  rw [← kind_skipTrivia, startsExpression, Bool.or_eq_true] at hstarts
  unfold Grammar.expressionStart
  simp only
  split
  · rename_i hfront
    have hmore := atEnd_of_test (p := isUnaryFront) rfl hfront
    exact .of (hmarked.openNext .unaryOperation hmore) ⟨.inl rfl, hd.known_marked⟩
  · rename_i hfront
    exact (hmarked.primaryStart (hstarts.resolve_left hfront)).andThen
      ⟨.inl rfl, mem_placesUpTo (.inl rfl), hd.known_marked.trans (known_placesUpTo_twice _ _ _)⟩

theorem expression (h : Trim (places :: nodes) d) (min : Nat) :
    (expression min d).Trim (places :: nodes) := by
  unfold Grammar.expression
  split
  · rename_i hstarts
    exact h.expressionStart min hstarts
  · exact .done h.noExpression

/-- An operand that is missing leaves a fault. -/
theorem operand (h : Trim (places :: nodes) d) (min : Nat) (missing : FaultCause) :
    (operand min missing d).Trim (places :: nodes) := by
  unfold Grammar.operand
  split
  · rename_i hstarts
    exact h.expressionStart min hstarts
  · exact .done (h.noExpression.trim.fault _)

theorem argumentsStart (h : Trim nodes d) (hat : d.isAt .lParen = true) :
    (argumentsStart d).Trim nodes := by
  have hd := h.openNext .callArguments (atEnd_of_at (by decide) hat)
  unfold Grammar.argumentsStart
  simp only
  split
  · rename_i hbrace
    exact .of (hd.trim.openNext .nameValueList (atEnd_of_at (by decide) hbrace))
      ⟨by decide, .refl _⟩
  · exact .of hd (.refl _)

end Trim

namespace Settled

/-- The operators behind an operand take it in from a place of the node around it. -/
theorem operators (h : Settled (places :: nodes) d) (hm : m ∈ places) (min : Nat) :
    (operators m min d).Trim (placesUpTo places m :: nodes) := by
  have hoperators : Goal.SuitAll (placesUpTo places m :: nodes) [.operators m min]
      (placesUpTo places m :: nodes) :=
    ⟨mem_placesUpTo hm, known_placesUpTo_twice _ _ _⟩
  have hnone : Pursuit.Trim (placesUpTo places m :: nodes) (d, []) :=
    .of h (known_placesUpTo _ _ _)
  unfold Grammar.operators
  split
  · rename_i hat
    split
    · exact .of ((h.trim.openAt hm .conditional).bumpAt hat (by decide)) ⟨by decide, hoperators⟩
    · exact hnone
  · split
    · rename_i hpowers
      split
      · have hmore := atEnd_of_test (p := fun k => (powers? k).isSome) rfl
          (Option.isSome_of_eq_some hpowers)
        exact .of ((h.trim.openAt hm .binaryOperation).bumpNext hmore) hoperators
      · exact hnone
    · exact hnone

theorem memberName (h : Settled nodes d) : Settled nodes (memberName d) := by
  unfold Grammar.memberName
  split
  · rename_i hname
    exact h.trim.bumpAs (atEnd_of_test (p := fun k => k == .ident || k.isName || k.isKeyword) rfl
      hname)
  · exact h.trim.fault _

/-- The suffixes behind an operand take it in from a place of the node around it. -/
theorem suffixes (h : Settled (places :: nodes) d) (hm : m ∈ places) (last : Option NodeKind) :
    (suffixes m last d).Trim (placesUpTo places m :: nodes) := by
  have hsuffixes : ∀ k, Goal.SuitAll (placesUpTo places m :: nodes) [.suffixes m (some k)]
      (placesUpTo places m :: nodes) :=
    fun _ => ⟨mem_placesUpTo hm, known_placesUpTo_twice _ _ _⟩
  have hnone : Pursuit.Trim (placesUpTo places m :: nodes) (d, []) :=
    .of h (known_placesUpTo _ _ _)
  have hopened := fun k => h.trim.openAt hm k
  unfold Grammar.suffixes
  split
  · rename_i hkind
    exact .of ((hopened .memberAccess).bumpNext (atEnd_of_kind (by decide) hkind)).memberName.close
      (hsuffixes _)
  · rename_i hkind
    have hbump := h.trim.bumpNext (atEnd_of_kind (by decide) hkind)
    simp only
    split
    · exact .of hbump ⟨hm, .refl _⟩
    · exact .of hbump ⟨hm, .refl _⟩
  · rename_i hkind
    exact ((hopened .functionCall).argumentsStart (beq_of_eq hkind)).andThen
      (hsuffixes .functionCall)
  · rename_i hkind
    split
    · exact .of ((hopened .nameValueExpression).openNext .nameValueList
        (atEnd_of_kind (by decide) hkind)) (hsuffixes .nameValueExpression)
    · exact hnone
  iterate 2
    · rename_i hkind
      exact .of ((hopened .unaryOperation).bumpNext (atEnd_of_kind (by decide) hkind)).close
        (hsuffixes _)
  · exact hnone

theorem indexMiddle (h : Settled (places :: nodes) d) (hm : m ∈ places) :
    (indexMiddle m d).Trim (placesUpTo places m :: nodes) := by
  unfold Grammar.indexMiddle
  split
  · rename_i hat
    have hbump := h.trim.bumpAt hat (by decide)
    simp only
    split
    · exact .of hbump ⟨hm, .refl _⟩
    · exact .of hbump ⟨hm, .refl _⟩
  · exact .of h ⟨hm, .refl _⟩

/-- The bracket that ends an index access is behind all places. So the node that is opened ends with
it. -/
theorem indexEnd (h : Settled (places :: nodes) d) (hm : m ∈ places) (k : NodeKind) :
    (indexEnd m k d).Trim (placesUpTo places m :: nodes) := by
  have hd := h.trim.expect (k := .rBracket) (by decide)
  have hends : (d.expect .rBracket).Faulty ∨
      EndsSolid (SyntaxTree.leavesBack ((d.expect .rBracket).openAt m k).top.taken) := by
    unfold Draft.expect
    split
    · rename_i hat
      obtain ⟨kind, text, taken, hbump, hsolid, hle⟩ :=
        exists_taken_bump (atEnd_of_at (by decide) hat)
      have hlength : m ≤ taken.length := Nat.le_trans (FramesTrim.le_length h.trim hm) hle
      refine .inr ?_
      rw [Draft.openAt, hbump, List.length_cons, Nat.succ_sub hlength, List.take_succ_cons,
        SyntaxTree.leavesBack_cons]
      exact (endsSolid_singleton hsolid).append_left _
    · exact .inl (faulty_fault _)
  have hopened : Settled (∅ :: placesUpTo places m :: nodes) ((d.expect .rBracket).openAt m k) :=
    ⟨hd.trim.openAt hm k, .inr hends⟩
  exact .of hopened.close ⟨mem_placesUpTo hm, known_placesUpTo_twice _ _ _⟩

end Settled

/-- A parenthesis is closed, or its fault lets the node be closed. -/
theorem Trim.closeParen (h : Trim (places :: nodes) d) : Settled nodes (closeParen d) :=
  (h.expect (by decide)).close

theorem Trim.closeBrace (h : Trim (places :: nodes) d) : Settled nodes (closeBrace d) :=
  (h.expect (by decide)).close

theorem Trim.tupleEnd (h : Trim (places :: nodes) d) {opening closing : TokenKind}
    (hclosing : closing ≠ .error) : Settled nodes (tupleEnd opening closing d) := by
  unfold Grammar.tupleEnd
  split
  · rename_i hat
    exact (h.bumpAt hat hclosing).close
  · exact (h.fault _).close

namespace Settled

theorem arguments (h : Settled (places :: nodes) d) : (arguments d).Trim nodes := by
  unfold Grammar.arguments
  split
  · exact .done h.trim.closeParen
  · split
    · rename_i hstarts
      exact (h.trim.expressionStart 0 hstarts).andThen (.refl _)
    · exact .done h.trim.noExpression.trim.closeParen

theorem moreArguments (h : Settled (places :: nodes) d) : (moreArguments d).Trim nodes := by
  unfold Grammar.moreArguments
  exact .bumpIf h.trim (by decide) (.refl _) (.done h.trim.closeParen)

theorem namedValues (h : Settled (places :: nodes) d) : (namedValues d).Trim nodes := by
  unfold Grammar.namedValues
  split
  · exact .of ((h.trim.openNode .namedArgument).expectName.trim.expect (by decide)) (.refl _)
  · exact .done h.trim.closeBrace

theorem moreNamedValues (h : Settled (places :: nodes) d) : (moreNamedValues d).Trim nodes := by
  unfold Grammar.moreNamedValues
  exact .bumpIf h.trim (by decide) (.refl _) (.done h.trim.closeBrace)

theorem tupleItems (h : Settled (places :: nodes) d) {opening closing : TokenKind}
    (hclosing : closing ≠ .error) : (tupleItems opening closing d).Trim nodes := by
  unfold Grammar.tupleItems
  split
  · rename_i hat
    exact .of (h.trim.bumpAt hat (by decide)) ⟨hclosing, .refl _⟩
  · split
    · exact .done (h.trim.tupleEnd hclosing)
    · split
      · rename_i hstarts
        exact (h.trim.expressionStart 0 hstarts).andThen ⟨hclosing, .refl _⟩
      · exact .done (h.trim.noExpression.trim.tupleEnd hclosing)

/-- Behind a comma of a tuple an item may be missing; the tuple ends with its bracket still. -/
theorem moreTupleItems (h : Settled (places :: nodes) d) {opening closing : TokenKind}
    (hclosing : closing ≠ .error) : (moreTupleItems opening closing d).Trim nodes := by
  unfold Grammar.moreTupleItems
  exact .bumpIf h.trim (by decide) ⟨hclosing, .refl _⟩ (.done (h.trim.tupleEnd hclosing))

end Settled

end Draft

end SolidityAtlas

import SolidityAtlas.Proofs.Syntax.Extents.Expressions

/-!
# Extents of statements

Each rule for a statement keeps drafts trim and leaves goals that open nodes only at known places.
A statement that is left empty, and text that is skipped, stand behind a fault.
-/

namespace SolidityAtlas

namespace Draft

open Grammar

variable {d : Draft} {nodes : List (Set Nat)} {places : Set Nat}

namespace Trim

variable (h : Trim nodes d)

include h

/-- Where no statement stands there is a fault. -/
theorem noStatement : Settled nodes (noStatement d) := by
  have htried := ((h.openNode .expressionStatement).fault (.expectedExpression d.kind)).close
  unfold Grammar.noStatement
  simp only
  split
  · exact htried
  · exact (htried.trim.recover _ _).eat (by decide)

theorem localVariable : (localVariable d).Trim nodes :=
  (h.openNode .variableDeclaration).typeStart.andThen (.refl _)

theorem declaration : (declaration d).Trim nodes := by
  have hd := h.openNode .variableDeclarationStatement
  unfold Grammar.declaration
  simp only
  split
  · rename_i hat
    exact .of (hd.bumpAt hat (by decide)) (.refl _)
  · exact hd.localVariable.andThen (.refl _)

theorem expressionStatement (hstarts : startsExpression d.kind = true) :
    (expressionStatement d).Trim nodes := by
  rw [← kind_openNode .expressionStatement] at hstarts
  exact ((h.openNode .expressionStatement).expressionStart 0 hstarts).andThen ⟨by decide, .refl _⟩

theorem wordStatement (k : NodeKind) : (wordStatement k d).Trim nodes :=
  .done ((h.openNode k).bump.expect (by decide)).close

theorem wordAndExpression (k : NodeKind) : (wordAndExpression k d).Trim nodes :=
  .expression (h.openNode k).bump ⟨by decide, .refl _⟩

/-- An assembly block ends with its brace, or in a fault. -/
theorem inlineAssembly (hmore : d.atEnd = false) : Settled nodes (inlineAssembly d) := by
  have hd := (h.openNext .inlineAssemblyStatement hmore).eat (k := .string) (by decide)
  unfold Grammar.inlineAssembly
  generalize ((d.openNode .inlineAssemblyStatement).bump.eat .string) = taken at hd
  have hflags : Settled (∅ :: nodes)
      (if taken.isAt .lParen then taken.bumpBalanced .lParen .rParen 0 else taken) := by
    split
    · exact hd.trim.bumpBalanced _ _ _
    · exact hd
  simp only
  generalize (if taken.isAt .lParen then taken.bumpBalanced .lParen .rParen 0 else taken) = flagged
    at hflags
  split
  · exact ((hflags.trim.openNode .assemblyBlock).bumpBalanced _ _ _).close.close
  · exact (hflags.trim.fault _).close

/-- A block ends with its brace, or in a fault. -/
theorem block : (block d).Trim nodes := by
  have hd := h.openNode .block
  unfold Grammar.block
  simp only
  exact .bumpIf hd (by decide) (.refl _) (.done (hd.expect (by decide)).close)

theorem plainStatement : (plainStatement d).Trim nodes := by
  unfold Grammar.plainStatement
  split
  · exact h.declaration
  · split
    · rename_i hstarts
      exact h.expressionStatement hstarts
    · exact .done h.noStatement

/-- A statement begins and ends with no trivia, whichever it is. -/
theorem statement : (statement d).Trim nodes := by
  have hnext : ∀ {k : TokenKind} (n : NodeKind), k ≠ .error → d.kind = k →
      Settled (∅ :: nodes) (d.openNode n).bump := fun n hk hkind =>
    h.openNext n (atEnd_of_kind hk hkind)
  unfold Grammar.statement
  split
  · exact h.block
  · split
    · exact (h.openNode .uncheckedStatement).bump.block.andThen (.refl _)
    · exact h.plainStatement
  · exact .of ((h.openNode .ifStatement).bump.expect (by decide)) ⟨by decide, .refl _⟩
  · exact .of ((h.openNode .whileStatement).bump.expect (by decide)) ⟨by decide, .refl _⟩
  · rename_i hkind
    exact .of (hnext .doWhileStatement (by decide) hkind) (.refl _)
  · exact .of ((h.openNode .forStatement).bump.expect (by decide)) (.refl _)
  · exact h.wordStatement .continueStatement
  · exact h.wordStatement .breakStatement
  · rename_i hkind
    have hd := hnext .returnStatement (by decide) hkind
    simp only
    split
    · rename_i hat
      exact .done (hd.trim.bumpAt hat (by decide)).close
    · exact .of hd ⟨by decide, .refl _⟩
  · exact h.wordAndExpression .emitStatement
  · exact .expression (h.openNode .tryStatement).bump (.refl _)
  · rename_i hkind
    exact .done (h.inlineAssembly (atEnd_of_kind (by decide) hkind))
  · split
    · exact h.wordAndExpression .revertStatement
    · exact h.plainStatement
  · exact h.plainStatement

end Trim

namespace Settled

theorem localEnd (h : Settled (places :: nodes) d) : (localEnd d).Trim nodes :=
  .done (h.bumpWhile _).trim.expectName.close

theorem declarators (h : Settled (places :: nodes) d) : (declarators d).Trim (places :: nodes) := by
  unfold Grammar.declarators
  split
  · rename_i hat
    exact .of (h.trim.bumpAt hat (by decide)) (.refl _)
  · split
    · exact .done (h.trim.expect (by decide))
    · exact h.trim.localVariable.andThen (.refl _)

theorem moreDeclarators (h : Settled (places :: nodes) d) :
    (moreDeclarators d).Trim (places :: nodes) := by
  unfold Grammar.moreDeclarators
  exact .bumpIf h.trim (by decide) (.refl _) (.done (h.trim.expect (by decide)))

theorem initialiser (h : Settled (places :: nodes) d) : (initialiser d).Trim nodes := by
  unfold Grammar.initialiser
  exact .bumpIf h.trim (by decide) ⟨by decide, .refl _⟩ (.done (h.trim.expect (by decide)).close)

/-- A row of statements ends with the brace of its block. -/
theorem statements (h : Settled (places :: nodes) d) : (statements d).Trim nodes := by
  unfold Grammar.statements
  split
  · exact .done h.trim.closeBrace
  · exact h.trim.statement.andThen (.refl _)

theorem elseBranch (h : Settled (places :: nodes) d) : (elseBranch d).Trim nodes := by
  unfold Grammar.elseBranch
  exact .bumpIf h.trim (by decide) (.refl _) (.done h.close)

theorem doWhileEnd (h : Settled (places :: nodes) d) : (doWhileEnd d).Trim nodes :=
  .of ((h.trim.expect (by decide)).trim.expect (by decide)) ⟨by decide, by decide, .refl _⟩

theorem forInit (h : Settled (places :: nodes) d) : (forInit d).Trim (places :: nodes) := by
  unfold Grammar.forInit
  split
  · rename_i hat
    exact .done (h.trim.bumpAt hat (by decide))
  · split
    · exact h.trim.declaration
    · split
      · rename_i hstarts
        exact h.trim.expressionStatement hstarts
      · exact .done (h.trim.openNode .expressionStatement).noExpression.close

theorem forCondition (h : Settled (places :: nodes) d) : (forCondition d).Trim (places :: nodes) := by
  unfold Grammar.forCondition
  exact .bumpIf h.trim (by decide) (.refl _) (.of h ⟨by decide, .refl _⟩)

theorem forUpdate (h : Settled (places :: nodes) d) : (forUpdate d).Trim (places :: nodes) := by
  unfold Grammar.forUpdate
  exact .bumpIf h.trim (by decide) (.refl _)
    (.expression (h.trim.openNode .expressionStatement) ⟨by decide, .refl _⟩)

theorem tryReturns (h : Settled (places :: nodes) d) : (tryReturns d).Trim (places :: nodes) := by
  unfold Grammar.tryReturns
  exact .bumpIf h.trim (by decide) (.refl _) (.done h)

theorem catches (h : Settled (places :: nodes) d) : (catches d).Trim nodes := by
  unfold Grammar.catches
  split
  · rename_i hat
    have hd := (h.trim.openNext .catchClause (atEnd_of_at (by decide) hat)).eatName
    simp only
    split
    · exact .of hd (.refl _)
    · exact .of hd (.refl _)
  · exact .done h.close

end Settled

end Draft

end SolidityAtlas

import SolidityAtlas.Proofs.Syntax.Alike.Expressions

/-!
# Statements that differ in trivia

Each rule for a statement makes drafts that are alike of drafts that are alike, or notes a fault.
Text is skipped only behind a fault.
-/

namespace SolidityAtlas

namespace Draft

open Grammar

variable {d e : Draft} {nodes : List Marks} {marks : Marks}

/-- Where no statement stands there is a fault. -/
theorem faulty_noStatement : (noStatement d).Faulty := by
  unfold noStatement
  simp only
  split
  · exact faulty_close.2 (faulty_fault _)
  · exact (faulty_eat _).2 (faulty_recover _ _)

/-- Drafts that follow each other do so when an assembly block is read. -/
theorem Follows.assemblyBody (h : Follows (marks :: nodes) d e) :
    Follows nodes
      (if d.isAt .lBrace then ((d.openNode .assemblyBlock).bumpBalanced .lBrace .rBrace 0).close
        else d.fault .expectedAssembly).close
      (if e.isAt .lBrace then ((e.openNode .assemblyBlock).bumpBalanced .lBrace .rBrace 0).close
        else e.fault .expectedAssembly).close := by
  rcases h with hfaulty | h
  · refine .inl (faulty_close.2 ?_)
    split
    · exact faulty_close.2 (((faulty_openNode _).2 hfaulty).bumpBalanced _ _ _)
    · exact faulty_fault _
  · rw [h.isAt]
    split
    · exact ((h.openNode .assemblyBlock).bumpBalanced _ _ _).close.close
    · exact .inl (faulty_close.2 (faulty_fault _))

namespace Alike

theorem localVariable (h : Alike nodes d e) :
    (localVariable d).Alike nodes (localVariable e) :=
  (h.openNode .variableDeclaration).typeStart.andThen ⟨rfl, .refl _⟩

theorem localEnd (h : Alike (marks :: nodes) d e) : (localEnd d).Alike nodes (localEnd e) :=
  .done (h.bumpWhile _).expectName.close

/-- Whether a tuple or a single variable is declared is seen in the tokens ahead. -/
theorem declaration (h : Alike nodes d e) : (declaration d).Alike nodes (declaration e) := by
  have hd := h.openNode .variableDeclarationStatement
  unfold Grammar.declaration
  simp only [hd.isAt]
  split
  · exact .of hd.bump.follows ⟨rfl, rfl, .refl _⟩
  · exact hd.localVariable.andThen ⟨rfl, .refl _⟩

theorem declarators (h : Alike (marks :: nodes) d e) :
    (declarators d).Alike (marks :: nodes) (declarators e) := by
  unfold Grammar.declarators
  rw [h.isAt, h.isAt, h.atEnd]
  split
  · exact .of h.bump.follows ⟨rfl, .refl _⟩
  · split
    · exact .done (h.expect _)
    · exact h.localVariable.andThen ⟨rfl, .refl _⟩

theorem moreDeclarators (h : Alike (marks :: nodes) d e) :
    (moreDeclarators d).Alike (marks :: nodes) (moreDeclarators e) := by
  unfold Grammar.moreDeclarators
  rw [h.isAt]
  split
  · exact .of h.bump.follows ⟨rfl, .refl _⟩
  · exact .done (h.expect _)

theorem initialiser (h : Alike (marks :: nodes) d e) :
    (initialiser d).Alike nodes (initialiser e) := by
  unfold Grammar.initialiser
  rw [h.isAt]
  split
  · exact .of h.bump.follows ⟨rfl, rfl, rfl, .refl _⟩
  · exact .done (h.expect _).close

theorem expressionStatement (h : Alike nodes d e) :
    (expressionStatement d).Alike nodes (expressionStatement e) :=
  ((h.openNode .expressionStatement).expressionStart 0).andThen ⟨rfl, rfl, .refl _⟩

theorem wordStatement (h : Alike nodes d e) (k : NodeKind) :
    (wordStatement k d).Alike nodes (wordStatement k e) :=
  .done ((h.openNode k).bump.expect _).close

theorem wordAndExpression (h : Alike nodes d e) (k : NodeKind) :
    (wordAndExpression k d).Alike nodes (wordAndExpression k e) :=
  .of (h.openNode k).bump.follows ⟨rfl, rfl, rfl, .refl _⟩

theorem inlineAssembly (h : Alike nodes d e) :
    Follows nodes (inlineAssembly d) (inlineAssembly e) := by
  have hd := (h.openNode .inlineAssemblyStatement).bump.eat .string
  unfold Grammar.inlineAssembly
  simp only [hd.isAt]
  split
  · exact (hd.bumpBalanced _ _ _).assemblyBody
  · exact hd.follows.assemblyBody

theorem block (h : Alike nodes d e) : (block d).Alike nodes (block e) := by
  have hd := h.openNode .block
  unfold Grammar.block
  simp only [hd.isAt]
  split
  · exact .of hd.bump.follows ⟨rfl, .refl _⟩
  · exact .done (hd.expect _).close

/-- Whether a declaration or an expression stands there is seen in the tokens ahead. -/
theorem plainStatement (h : Alike nodes d e) :
    (plainStatement d).Alike nodes (plainStatement e) := by
  unfold Grammar.plainStatement
  rw [h.solidKinds, h.kind]
  split
  · exact h.declaration
  · split
    · exact h.expressionStatement
    · exact .inl faulty_noStatement

/-- Which statement starts is seen in the next token. -/
theorem statement (h : Alike nodes d e) : (statement d).Alike nodes (statement e) := by
  unfold Grammar.statement
  have hreturn := (h.openNode .returnStatement).bump
  simp only [h.kind, h.kindAt, h.textHere, hreturn.isAt]
  split
  · exact h.block
  · split
    · exact (h.openNode .uncheckedStatement).bump.block.andThen ⟨rfl, .refl _⟩
    · exact h.plainStatement
  · exact .of ((h.openNode .ifStatement).bump.expect _) ⟨rfl, rfl, rfl, rfl, .refl _⟩
  · exact .of ((h.openNode .whileStatement).bump.expect _) ⟨rfl, rfl, rfl, rfl, .refl _⟩
  · exact .of (h.openNode .doWhileStatement).bump.follows ⟨rfl, rfl, .refl _⟩
  · exact .of ((h.openNode .forStatement).bump.expect _) ⟨rfl, rfl, rfl, rfl, rfl, .refl _⟩
  · exact h.wordStatement .continueStatement
  · exact h.wordStatement .breakStatement
  · split
    · exact .done hreturn.bump.close.follows
    · exact .of hreturn.follows ⟨rfl, rfl, rfl, .refl _⟩
  · exact h.wordAndExpression .emitStatement
  · exact .of (h.openNode .tryStatement).bump.follows ⟨rfl, rfl, rfl, rfl, .refl _⟩
  · exact .done h.inlineAssembly
  · split
    · exact h.wordAndExpression .revertStatement
    · exact h.plainStatement
  · exact h.plainStatement

/-- The statements of a block are read alike, one after the other. -/
theorem statements (h : Alike (marks :: nodes) d e) :
    (statements d).Alike nodes (statements e) := by
  unfold Grammar.statements
  rw [h.atEnd, h.isAt]
  split
  · exact .done h.follows.closeBrace
  · exact h.statement.andThen ⟨rfl, .refl _⟩

theorem elseBranch (h : Alike (marks :: nodes) d e) :
    (elseBranch d).Alike nodes (elseBranch e) := by
  unfold Grammar.elseBranch
  rw [h.isAt]
  split
  · exact .of h.bump.follows ⟨rfl, rfl, .refl _⟩
  · exact .done h.close.follows

theorem doWhileEnd (h : Alike (marks :: nodes) d e) :
    (doWhileEnd d).Alike nodes (doWhileEnd e) :=
  .of ((h.expect _).expect _) ⟨rfl, rfl, rfl, rfl, .refl _⟩

/-- The parts of a loop head are told apart by the tokens ahead. -/
theorem forInit (h : Alike (marks :: nodes) d e) :
    (forInit d).Alike (marks :: nodes) (forInit e) := by
  unfold Grammar.forInit
  rw [h.isAt, h.solidKinds, h.kind]
  split
  · exact .done h.bump.follows
  · split
    · exact h.declaration
    · split
      · exact h.expressionStatement
      · exact .inl (faulty_close.2 (faulty_fault _))

theorem forCondition (h : Alike (marks :: nodes) d e) :
    (forCondition d).Alike (marks :: nodes) (forCondition e) := by
  unfold Grammar.forCondition
  rw [h.isAt]
  split
  · exact .done h.bump.follows
  · exact .of h.follows ⟨rfl, rfl, .refl _⟩

theorem forUpdate (h : Alike (marks :: nodes) d e) :
    (forUpdate d).Alike (marks :: nodes) (forUpdate e) := by
  unfold Grammar.forUpdate
  rw [h.isAt]
  split
  · exact .done h.bump.follows
  · exact .of (h.openNode .expressionStatement).follows ⟨rfl, rfl, rfl, .refl _⟩

theorem tryReturns (h : Alike (marks :: nodes) d e) :
    (tryReturns d).Alike (marks :: nodes) (tryReturns e) := by
  unfold Grammar.tryReturns
  rw [h.isAt]
  split
  · exact .of h.bump.follows ⟨rfl, .refl _⟩
  · exact .done h.follows

theorem catches (h : Alike (marks :: nodes) d e) : (catches d).Alike nodes (catches e) := by
  have hd := (h.openNode .catchClause).bump.eatName
  unfold Grammar.catches
  simp only [h.isAt, hd.isAt]
  split
  · split
    · exact .of hd.follows ⟨rfl, rfl, rfl, rfl, .refl _⟩
    · exact .of hd.follows ⟨rfl, rfl, rfl, .refl _⟩
  · exact .done h.close.follows

end Alike

end Draft

end SolidityAtlas

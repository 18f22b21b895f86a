import SolidityAtlas.Proofs.Syntax.Steps.Expressions

/-!
# The steps of statements

Each rule for a statement is a sequence of steps and leaves goals that close what it has
opened. The statements of a block are read inside the block, which the goal for them closes.
-/

namespace SolidityAtlas

namespace Draft.Steps

open Grammar

variable {start d : Draft} {o : OpenNode} {nodes : List OpenNode}

/-- Where no statement stands a fault is noted and perhaps a token taken. -/
theorem noStatement (h : Steps start nodes d) : Steps start nodes (noStatement d) := by
  have htried := ((h.openNode .expressionStatement rfl).fault (.expectedExpression d.kind)).close
  unfold Grammar.noStatement
  simp only
  split
  · exact htried
  · exact (htried.recover _ _).eat _

theorem localVariable (h : Steps start nodes d) : (localVariable d).Keeps start nodes :=
  (h.openNode .variableDeclaration rfl).typeStart.andThen (And.intro rfl rfl)

theorem localEnd (h : Steps start (o :: nodes) d) (hkind : o.kind = .variableDeclaration) :
    (localEnd d).Keeps start nodes :=
  ⟨_, ((h.bumpWhile _).expectName (NodeKind.takesNames_of_eq _ (.inl hkind))).close, rfl⟩

theorem declaration (h : Steps start nodes d) : (declaration d).Keeps start nodes := by
  have hd := h.openNode .variableDeclarationStatement rfl
  unfold Grammar.declaration
  simp only
  split
  · exact ⟨_, hd.bump, rfl⟩
  · exact hd.localVariable.andThen rfl

theorem declarators (h : Steps start (o :: nodes) d) :
    (declarators d).Keeps start (o :: nodes) := by
  unfold Grammar.declarators
  split
  · exact ⟨_, h.bump, rfl⟩
  · split
    · exact ⟨_, h.expect _, rfl⟩
    · exact h.localVariable.andThen rfl

theorem moreDeclarators (h : Steps start (o :: nodes) d) :
    (moreDeclarators d).Keeps start (o :: nodes) := by
  unfold Grammar.moreDeclarators
  split
  · exact ⟨_, h.bump, rfl⟩
  · exact ⟨_, h.expect _, rfl⟩

theorem initialiser (h : Steps start (o :: nodes) d) : (initialiser d).Keeps start nodes := by
  unfold Grammar.initialiser
  split
  · exact ⟨_, h.bump, rfl⟩
  · exact ⟨_, (h.expect _).close, rfl⟩

theorem expressionStatement (h : Steps start nodes d) (hstarts : startsExpression d.kind = true) :
    (expressionStatement d).Keeps start nodes := by
  have hd := h.openNode .expressionStatement rfl
  rw [← Draft.kind_openNode .expressionStatement] at hstarts
  exact (hd.expressionStart 0 hstarts).andThen rfl

theorem wordStatement (h : Steps start nodes d) (k : NodeKind)
    (hk : k.opensAt nodes.length = true) : (wordStatement k d).Keeps start nodes :=
  ⟨_, ((h.openNode k hk).bump.expect _).close, rfl⟩

theorem wordAndExpression (h : Steps start nodes d) (k : NodeKind)
    (hk : k.opensAt nodes.length = true) : (wordAndExpression k d).Keeps start nodes :=
  ⟨_, (h.openNode k hk).bump, rfl⟩

theorem inlineAssembly (h : Steps start nodes d) : Steps start nodes (inlineAssembly d) := by
  have hd := (h.openNode .inlineAssemblyStatement rfl).bump.eat .string
  unfold Grammar.inlineAssembly
  generalize ((d.openNode .inlineAssemblyStatement).bump.eat .string) = taken at hd
  have hflags : Steps start (⟨.inlineAssemblyStatement, 0⟩ :: nodes)
      (if taken.isAt .lParen then taken.bumpBalanced .lParen .rParen 0 else taken) := by
    split
    · exact hd.bumpBalanced .lParen .rParen 0
    · exact hd
  simp only
  generalize (if taken.isAt .lParen then taken.bumpBalanced .lParen .rParen 0 else taken) = flagged
    at hflags
  split
  · exact ((hflags.openNode .assemblyBlock rfl).bumpBalanced _ _ _).close.close
  · exact (hflags.fault _).close

theorem block (h : Steps start nodes d) : (block d).Keeps start nodes := by
  have hd := h.openNode .block rfl
  unfold Grammar.block
  simp only
  split
  · exact ⟨_, hd.bump, rfl⟩
  · exact ⟨_, (hd.expect _).close, rfl⟩

theorem plainStatement (h : Steps start nodes d) : (plainStatement d).Keeps start nodes := by
  unfold Grammar.plainStatement
  split
  · exact h.declaration
  · split
    · rename_i hstarts
      exact h.expressionStatement hstarts
    · exact ⟨_, h.noStatement, rfl⟩

theorem statement (h : Steps start nodes d) : (statement d).Keeps start nodes := by
  unfold Grammar.statement
  split
  · exact h.block
  · split
    · exact (h.openNode .uncheckedStatement rfl).bump.block.andThen rfl
    · exact h.plainStatement
  · exact ⟨_, (h.openNode .ifStatement rfl).bump.expect _, rfl⟩
  · exact ⟨_, (h.openNode .whileStatement rfl).bump.expect _, rfl⟩
  · exact ⟨_, (h.openNode .doWhileStatement rfl).bump, rfl⟩
  · exact ⟨_, (h.openNode .forStatement rfl).bump.expect _, rfl⟩
  · exact h.wordStatement .continueStatement rfl
  · exact h.wordStatement .breakStatement rfl
  · have hd := (h.openNode .returnStatement rfl).bump
    simp only
    split
    · exact ⟨_, hd.bump.close, rfl⟩
    · exact ⟨_, hd, rfl⟩
  · exact h.wordAndExpression .emitStatement rfl
  · exact ⟨_, (h.openNode .tryStatement rfl).bump, rfl⟩
  · exact ⟨_, h.inlineAssembly, rfl⟩
  · split
    · exact h.wordAndExpression .revertStatement rfl
    · exact h.plainStatement
  · exact h.plainStatement

theorem statements (h : Steps start (o :: nodes) d) : (statements d).Keeps start nodes := by
  unfold Grammar.statements
  split
  · exact ⟨_, h.closeBrace, rfl⟩
  · exact h.statement.andThen rfl

theorem elseBranch (h : Steps start (o :: nodes) d) : (elseBranch d).Keeps start nodes := by
  unfold Grammar.elseBranch
  split
  · exact ⟨_, h.bump, rfl⟩
  · exact ⟨_, h.close, rfl⟩

theorem doWhileEnd (h : Steps start (o :: nodes) d) : (doWhileEnd d).Keeps start nodes :=
  ⟨_, (h.expect _).expect _, rfl⟩

theorem forInit (h : Steps start (o :: nodes) d) : (forInit d).Keeps start (o :: nodes) := by
  unfold Grammar.forInit
  split
  · exact ⟨_, h.bump, rfl⟩
  · split
    · exact h.declaration
    · split
      · rename_i hstarts
        exact h.expressionStatement hstarts
      · exact ⟨_, (h.openNode .expressionStatement rfl).noExpression.close, rfl⟩

theorem forCondition (h : Steps start (o :: nodes) d) :
    (forCondition d).Keeps start (o :: nodes) := by
  unfold Grammar.forCondition
  split
  · exact ⟨_, h.bump, rfl⟩
  · exact ⟨_, h, rfl⟩

theorem forUpdate (h : Steps start (o :: nodes) d) : (forUpdate d).Keeps start (o :: nodes) := by
  unfold Grammar.forUpdate
  split
  · exact ⟨_, h.bump, rfl⟩
  · exact ⟨_, h.openNode .expressionStatement rfl, rfl⟩

theorem tryReturns (h : Steps start (o :: nodes) d) : (tryReturns d).Keeps start (o :: nodes) := by
  unfold Grammar.tryReturns
  split
  · exact ⟨_, h.bump, rfl⟩
  · exact ⟨_, h, rfl⟩

theorem catches (h : Steps start (o :: nodes) d) : (catches d).Keeps start nodes := by
  unfold Grammar.catches
  split
  · have hd := (h.openNode .catchClause rfl).bump.eatName fun _ => id
    simp only
    split
    · exact ⟨_, hd, rfl⟩
    · exact ⟨_, hd, rfl⟩
  · exact ⟨_, h.close, rfl⟩

end Draft.Steps

end SolidityAtlas

import SolidityAtlas.Proofs.Syntax.Alike.Statements

/-!
# Members of files and contracts that differ in trivia

The rules for the members of files and contracts keep drafts alike too, and with them all rules have
been gone through. Some of them look ahead behind a name that may be missing; then there is a fault
already.

## Main Results

* `Goal.alike_advance`: pursuing goals that go together
-/

namespace SolidityAtlas

namespace Draft

open Grammar

variable {d e : Draft} {nodes : List Marks} {marks : Marks}

/-! ## Behind a fault -/

/-- A fault stays up to the end of an import. -/
theorem Faulty.importEnd (h : d.Faulty) : (Grammar.importEnd d).Faulty := by
  unfold Grammar.importEnd
  split <;> simp [h]

theorem Faulty.importFrom (h : d.Faulty) : (Grammar.importFrom d).Faulty :=
  (((h.expect _).expect _).expect _).importEnd

/-- The end of an import is the same token on both sides, or missing on both. -/
theorem Follows.importEnd (h : Follows (marks :: nodes) d e) :
    Follows nodes (importEnd d) (importEnd e) := by
  rcases h with hfaulty | h
  · exact .inl hfaulty.importEnd
  · unfold Grammar.importEnd
    rw [h.isAt]
    split
    · exact h.bump.close.follows
    · exact .inl (by simp)

/-- An alias is read where both drafts have the word for it. -/
theorem Follows.eatAlias (h : Follows nodes d e) : Follows nodes (eatAlias d) (eatAlias e) := by
  unfold Grammar.eatAlias
  rcases h with hfaulty | h
  · refine .inl ?_
    split
    · exact Faulty.expectName (faulty_bump.2 hfaulty)
    · exact hfaulty
  · rw [h.isAt]
    split
    · exact h.bump.expectName
    · exact h.follows

theorem Follows.importFrom (h : Follows (marks :: nodes) d e) :
    Follows nodes (importFrom d) (importFrom e) :=
  (((h.expect _).expect _).expect _).importEnd

/-- Behind a name or a path that may be missing, the next token decides how it goes on. -/
theorem Follows.decide {now : List Marks} {p p' q q' : Pursuit} (h : Follows now d e)
    (k : TokenKind) (hfaulty : d.Faulty → p.1.Faulty ∧ p'.1.Faulty)
    (hp : Alike now d e → p.Alike nodes q) (hp' : Alike now d e → p'.Alike nodes q') :
    Pursuit.Alike nodes (if d.isAt k then p else p') (if e.isAt k then q else q') := by
  rcases h with hd | h
  · refine .inl ?_
    split
    · exact (hfaulty hd).1
    · exact (hfaulty hd).2
  · rw [h.isAt]
    split
    · exact hp h
    · exact hp' h

namespace Alike

/-! ## Members of contracts -/

theorem overrideStart (h : Alike nodes d e) : (overrideStart d).Alike nodes (overrideStart e) := by
  have hd := (h.openNode .overrideSpecifier).bump
  unfold Grammar.overrideStart
  simp only [hd.isAt]
  split
  · exact .of hd.bump.follows ⟨rfl, .refl _⟩
  · exact .done hd.close.follows

theorem overrideNames (h : Alike (marks :: nodes) d e) :
    (overrideNames d).Alike nodes (overrideNames e) := by
  unfold Grammar.overrideNames
  rw [h.atName]
  split
  · exact h.typePath.decide .comma (fun hd => ⟨faulty_bump.2 hd, hd.closeParen⟩)
      (fun hd => .of hd.bump.follows ⟨rfl, .refl _⟩) fun hd => .done hd.follows.closeParen
  · exact .done h.follows.closeParen

/-- A body is read where both drafts have its brace. -/
theorem bodyStart (h : Alike (marks :: nodes) d e) : (bodyStart d).Alike nodes (bodyStart e) := by
  unfold Grammar.bodyStart
  rw [h.isAt]
  split
  · exact .of (h.openNode .block).bump.follows ⟨rfl, rfl, .refl _⟩
  · exact .done (h.expect _).close

theorem structStart (h : Alike nodes d e) : (structStart d).Alike nodes (structStart e) :=
  (h.openNode .structDefinition).bump.expectName.decide .lBrace
    (fun hd => ⟨faulty_bump.2 hd, faulty_close.2 (hd.expect _)⟩)
    (fun hd => .of hd.bump.follows ⟨rfl, .refl _⟩) fun hd => .done (hd.expect _).close

theorem fields (h : Alike (marks :: nodes) d e) : (fields d).Alike nodes (fields e) := by
  unfold Grammar.fields
  rw [h.atEnd, h.isAt, h.kind]
  split
  · exact .done h.follows.closeBrace
  · split
    · exact (h.openNode .variableDeclaration).typeStart.andThen ⟨rfl, rfl, .refl _⟩
    · have hnameless : ((d.openNode .variableDeclaration).fault (.expectedTypeName d.kind)).Faulty :=
        faulty_fault _
      refine .inl ?_
      simp only
      split
      · exact (faulty_close.2 hnameless.expectName).expect _
      · exact faulty_recover _ _

theorem fieldEnd (h : Alike (marks :: nodes) d e) : (fieldEnd d).Alike nodes (fieldEnd e) :=
  .done (h.expectName.close.expect _)

theorem enumStart (h : Alike nodes d e) : (enumStart d).Alike nodes (enumStart e) :=
  (h.openNode .enumDefinition).bump.expectName.decide .lBrace
    (fun hd => ⟨faulty_bump.2 hd, faulty_close.2 (hd.expect _)⟩)
    (fun hd => .of hd.bump.follows ⟨rfl, .refl _⟩) fun hd => .done (hd.expect _).close

theorem enumValues (h : Alike (marks :: nodes) d e) :
    (enumValues d).Alike nodes (enumValues e) := by
  unfold Grammar.enumValues
  rw [h.atName]
  split
  · exact (h.openNode .enumValue).expectName.close.decide .comma
      (fun hd => ⟨faulty_bump.2 hd, faulty_close.2 (hd.expect _)⟩)
      (fun hd => .of hd.bump.follows ⟨rfl, .refl _⟩) fun hd => .done hd.follows.closeBrace
  · exact .done h.follows.closeBrace

theorem eventEnd (h : Alike (marks :: nodes) d e) : (eventEnd d).Alike nodes (eventEnd e) :=
  .done ((h.eat _).expect _).close

theorem modifierStart (h : Alike nodes d e) : (modifierStart d).Alike nodes (modifierStart e) := by
  unfold Grammar.modifierStart
  rcases (h.openNode .modifierDefinition).bump.expectName with hfaulty | hd
  · exact .inl hfaulty
  · simp only [hd.isAt]
    split
    · exact .of hd.follows ⟨rfl, rfl, .refl _⟩
    · exact .of hd.follows ⟨rfl, .refl _⟩

theorem modifierAttributes (h : Alike (marks :: nodes) d e) :
    (modifierAttributes d).Alike nodes (modifierAttributes e) := by
  unfold Grammar.modifierAttributes
  rw [h.kind]
  split
  · exact .of h.bump.follows ⟨rfl, .refl _⟩
  · exact h.overrideStart.andThen ⟨rfl, .refl _⟩
  · exact h.bodyStart

theorem functionStart (h : Alike nodes d e) : (functionStart d).Alike nodes (functionStart e) := by
  have hd := (h.openNode .functionDefinition).bump
  unfold Grammar.functionStart
  simp only [h.isAt]
  split
  · exact .of hd.eatName.follows ⟨rfl, rfl, .refl _⟩
  · exact .of hd.follows ⟨rfl, rfl, .refl _⟩

theorem modifierUse (h : Alike nodes d e) : (modifierUse d).Alike nodes (modifierUse e) :=
  (h.openNode .modifierInvocation).expectName.moreSegments.decide .lParen
    (fun hd => ⟨hd.argumentsStart, faulty_close.2 hd⟩)
    (fun hd => hd.argumentsStart.andThen ⟨rfl, .refl _⟩) fun hd => .done hd.close.follows

/-- Which attributes a function has is seen in the tokens ahead. -/
theorem functionAttributes (h : Alike (marks :: nodes) d e) :
    (functionAttributes d).Alike nodes (functionAttributes e) := by
  unfold Grammar.functionAttributes
  rw [h.kind, h.isAt, h.isAt, h.atName]
  split
  · exact .of h.bump.follows ⟨rfl, .refl _⟩
  · split
    · exact h.overrideStart.andThen ⟨rfl, .refl _⟩
    · split
      · exact .of (h.openNode .returnParameters).bump.follows ⟨rfl, rfl, rfl, .refl _⟩
      · split
        · exact h.modifierUse.andThen ⟨rfl, .refl _⟩
        · exact h.bodyStart

theorem usingStart (h : Alike nodes d e) : (usingStart d).Alike nodes (usingStart e) := by
  have hd := (h.openNode .usingForDeclaration).bump
  unfold Grammar.usingStart
  simp only [hd.isAt]
  split
  · exact .of hd.bump.follows ⟨rfl, .refl _⟩
  · exact .of hd.typePath ⟨rfl, .refl _⟩

theorem usingNames (h : Alike (marks :: nodes) d e) :
    (usingNames d).Alike nodes (usingNames e) := by
  -- The operator, if there is one, makes no difference to how it goes on.
  have hnext : ∀ {d e : Draft}, Follows (marks :: nodes) d e → Pursuit.Alike nodes
      (if d.isAt .comma then (d.bump, [.usingNames]) else (d.expect .rBrace, [.usingFor]))
      (if e.isAt .comma then (e.bump, [.usingNames]) else (e.expect .rBrace, [.usingFor])) :=
    fun h => h.decide .comma (fun hd => ⟨faulty_bump.2 hd, hd.expect _⟩)
      (fun hd => .of hd.bump.follows ⟨rfl, .refl _⟩) fun hd => .of (hd.expect _) ⟨rfl, .refl _⟩
  unfold Grammar.usingNames
  rw [h.atName]
  split
  · simp only
    rcases h.typePath with hfaulty | hpath
    · refine .inl ?_
      split <;> split <;> simp [hfaulty, Faulty.expect]
    · rw [hpath.isAt]
      split
      · exact hnext hpath.bump.bump.follows
      · exact hnext hpath.follows
  · exact .of (h.expect _) ⟨rfl, .refl _⟩

theorem usingFor (h : Alike (marks :: nodes) d e) : (usingFor d).Alike nodes (usingFor e) :=
  (h.expect .forKw).decide .star (fun hd => ⟨faulty_bump.2 hd, hd⟩)
    (fun hd => .of hd.bump.follows ⟨rfl, .refl _⟩) fun hd => .of hd.follows ⟨rfl, rfl, .refl _⟩

theorem usingEnd (h : Alike (marks :: nodes) d e) : (usingEnd d).Alike nodes (usingEnd e) := by
  unfold Grammar.usingEnd
  rw [h.isAt, h.textHere]
  split
  · exact .done (h.bump.expect _).close
  · exact .done (h.expect _).close

theorem stateVariableStart (h : Alike nodes d e) :
    (stateVariableStart d).Alike nodes (stateVariableStart e) :=
  ((h.openNode .stateVariableDeclaration).openNode .variableDeclaration).typeStart.andThen
    ⟨rfl, rfl, .refl _⟩

/-- Whether an attribute follows is seen in the next token. -/
theorem atStateVariableAttribute (h : Alike nodes d e) :
    atStateVariableAttribute e = atStateVariableAttribute d := by
  unfold Grammar.atStateVariableAttribute
  rw [h.kind, h.textHere, h.kindAt]

theorem stateVariableAttributes (h : Alike (marks :: nodes) d e) :
    (stateVariableAttributes d).Alike nodes (stateVariableAttributes e) := by
  unfold Grammar.stateVariableAttributes
  rw [h.atStateVariableAttribute, h.isAt]
  split
  · exact .of h.bump.follows ⟨rfl, .refl _⟩
  · split
    · exact h.overrideStart.andThen ⟨rfl, .refl _⟩
    · exact .done h.expectName.close

/-- Which member starts is seen in the tokens ahead, and a recovery is a fault on both sides. -/
theorem member (h : Alike nodes d e) (stops : List TokenKind) :
    (member stops d).Alike nodes (member stops e) := by
  have hother : Pursuit.Alike nodes
      (if startsType d.kind then Grammar.stateVariableStart d
        else (d.recover (.expectedMember d.kind) stops, []))
      (if startsType d.kind then Grammar.stateVariableStart e
        else (e.recover (.expectedMember d.kind) stops, [])) := by
    split
    · exact h.stateVariableStart
    · exact .inl (faulty_recover _ _)
  unfold Grammar.member
  simp only [h.kind, h.kindAt]
  split
  · exact h.structStart
  · exact h.enumStart
  · exact .of (h.openNode .eventDefinition).bump.expectName ⟨rfl, rfl, .refl _⟩
  · split
    · exact .of (h.openNode .customErrorDefinition).bump.expectName ⟨rfl, rfl, rfl, .refl _⟩
    · exact hother
  · exact h.modifierStart
  iterate 4
    · split
      · exact h.functionStart
      · exact hother
  · exact .of ((h.openNode .userDefinedValueTypeDefinition).bump.expectName.expect _)
      ⟨rfl, rfl, rfl, .refl _⟩
  · exact h.usingStart
  · exact .done h.bump.follows
  · exact hother

/-- The members of a contract are read alike, one after the other. -/
theorem members (h : Alike (marks :: nodes) d e) : (members d).Alike nodes (members e) := by
  unfold Grammar.members
  rw [h.atEnd, h.isAt]
  split
  · exact .done h.follows.closeBrace
  · exact (h.member _).andThen ⟨rfl, .refl _⟩

/-! ## Contracts -/

theorem contractStart (h : Alike nodes d e) :
    (contractStart d).Alike nodes (contractStart e) := by
  have hd := (h.openNode .contractDefinition).eat .abstractKw
  have hnamed : ∀ {d e : Draft}, Follows (Marks.none :: nodes) d e → Pursuit.Alike nodes
      (if d.expectName.isAt .isKw then (d.expectName.bump, [.bases])
        else (d.expectName, [.contractBody]))
      (if e.expectName.isAt .isKw then (e.expectName.bump, [.bases])
        else (e.expectName, [.contractBody])) :=
    fun h => h.expectName.decide .isKw (fun hd => ⟨faulty_bump.2 hd, hd⟩)
      (fun hd => .of hd.bump.follows ⟨rfl, .refl _⟩) fun hd => .of hd.follows ⟨rfl, .refl _⟩
  unfold Grammar.contractStart
  simp only [hd.kind]
  split
  iterate 3
    · exact hnamed hd.bump.follows
  · exact hnamed (.inl (faulty_fault _))

theorem bases (h : Alike (marks :: nodes) d e) : (bases d).Alike nodes (bases e) :=
  (h.openNode .inheritanceSpecifier).typePath.decide .lParen
    (fun hd => ⟨hd.argumentsStart, faulty_close.2 hd⟩)
    (fun hd => hd.argumentsStart.andThen ⟨rfl, rfl, .refl _⟩)
    fun hd => .of hd.close.follows ⟨rfl, .refl _⟩

theorem moreBases (h : Alike (marks :: nodes) d e) : (moreBases d).Alike nodes (moreBases e) := by
  unfold Grammar.moreBases
  rw [h.isAt]
  split
  · exact .of h.bump.follows ⟨rfl, .refl _⟩
  · exact .of h.follows ⟨rfl, .refl _⟩

theorem contractBody (h : Alike (marks :: nodes) d e) :
    (contractBody d).Alike nodes (contractBody e) := by
  unfold Grammar.contractBody
  rw [h.isAt]
  split
  · exact .of h.bump.follows ⟨rfl, .refl _⟩
  · exact .done (h.expect _).close

/-! ## Members of files -/

theorem importStart (h : Alike nodes d e) : (importStart d).Alike nodes (importStart e) := by
  have hd := (h.openNode .importDirective).bump
  unfold Grammar.importStart
  simp only [hd.kind]
  split
  · exact .done hd.bump.follows.eatAlias.importEnd
  · exact .done ((((hd.bump.expect _).expectName.expect _).expect _).importEnd)
  · exact .of hd.bump.follows ⟨rfl, .refl _⟩
  · exact .inl (Faulty.importEnd (faulty_fault _))

theorem importSymbols (h : Alike (marks :: nodes) d e) :
    (importSymbols d).Alike nodes (importSymbols e) := by
  unfold Grammar.importSymbols
  rw [h.atName]
  split
  · have hd := (h.openNode .importSymbol).expectName.eatAlias.close
    refine hd.decide .comma (fun hd => ⟨faulty_bump.2 hd, ?_⟩)
      (fun hd => .of hd.bump.follows ⟨rfl, .refl _⟩) fun hd => .done hd.follows.importFrom
    dsimp only
    exact hd.importFrom
  · exact .done h.follows.importFrom

/-- A pragma is taken up to its end on both sides. -/
theorem pragma (h : Alike nodes d e) : Follows nodes (pragma d) (pragma e) :=
  (((h.openNode .pragmaDirective).bump.skipTo _).expect _).close

/-- Which item starts is seen in the tokens ahead, and a recovery is a fault on both sides. -/
theorem item (h : Alike nodes d e) : (item d).Alike nodes (item e) := by
  unfold Grammar.item
  rw [h.kind]
  split
  · exact .done h.pragma
  · exact h.importStart
  iterate 4
    · exact h.contractStart
  · exact .done h.bump.follows
  · exact h.member _

/-- The items of a file are read alike, one after the other. -/
theorem items (h : Alike nodes d e) : (items d).Alike nodes (items e) := by
  unfold Grammar.items
  rw [h.atEnd]
  split
  · exact .done h.follows
  · cases nodes with
    | nil => exact h.item.andThen ⟨rfl, rfl, .refl _⟩
    | cons marks nodes => exact h.item.andThen ⟨rfl, .refl _⟩

end Alike

end Draft

/-! ## Goals -/

namespace Goal

variable {d e : Draft} {nodes : List Marks} {g g' : Goal}

/-- What pursuing goals that go together makes of drafts that are alike, if the first reading notes no
fault. -/
theorem alike_advance (h : Draft.Alike nodes d e) {after : List Marks → Prop}
    (hlasting : Lasting after) (hg : g.LeadsAlike after g' nodes) :
    (g.advance d).1.Faulty ∨ ∃ now, Draft.Alike now (g.advance d).1 (g'.advance e).1 ∧
      LeadAllAlike after (g.advance d).2 (g'.advance e).2 now := by
  cases nodes with
  | nil =>
      obtain ⟨rfl, rfl, hafter⟩ := hg
      exact h.items.leads hlasting hafter
  | cons marks nodes =>
      cases hmark : g.mark? with
      | some m =>
          simp only [LeadsAlike, hmark] at hg
          obtain ⟨m', hm, rfl, hafter⟩ := hg
          cases g with
          | arraySuffix m =>
              cases hmark
              exact (h.arraySuffix hm).leads hlasting hafter
          | operators m min =>
              cases hmark
              exact (h.operators hm min).leads hlasting hafter
          | suffixes m last =>
              cases hmark
              exact (h.suffixes hm last).leads hlasting hafter
          | indexMiddle m =>
              cases hmark
              exact (h.indexMiddle hm).leads hlasting hafter
          | indexEnd m k =>
              cases hmark
              exact (h.indexEnd hm k).leads hlasting hafter
          | _ => cases hmark
      | none =>
          simp only [LeadsAlike, hmark] at hg
          obtain ⟨rfl, hafter⟩ := hg
          cases g' with
          | arraySuffix | operators | suffixes | indexMiddle | indexEnd => cases hmark
          | expect k => exact (Pursuit.Alike.done (h.expect k)).leads hlasting hafter
          | close => exact (Pursuit.Alike.done h.close.follows).leads hlasting hafter
          | importSymbols => exact h.importSymbols.leads hlasting hafter
          | bases => exact h.bases.leads hlasting hafter
          | moreBases => exact h.moreBases.leads hlasting hafter
          | contractBody => exact h.contractBody.leads hlasting hafter
          | members => exact h.members.leads hlasting hafter
          | fields => exact h.fields.leads hlasting hafter
          | enumValues => exact h.enumValues.leads hlasting hafter
          | eventEnd => exact h.eventEnd.leads hlasting hafter
          | modifierAttributes => exact h.modifierAttributes.leads hlasting hafter
          | functionAttributes => exact h.functionAttributes.leads hlasting hafter
          | overrideNames => exact h.overrideNames.leads hlasting hafter
          | usingNames => exact h.usingNames.leads hlasting hafter
          | usingFor => exact h.usingFor.leads hlasting hafter
          | usingEnd => exact h.usingEnd.leads hlasting hafter
          | initialiser => exact h.initialiser.leads hlasting hafter
          | parameters => exact h.parameters.leads hlasting hafter
          | parameterRow => exact h.parameterRow.leads hlasting hafter
          | moreParameters => exact h.moreParameters.leads hlasting hafter
          | typeName => exact h.typeStart.leads hlasting hafter
          | functionTypeEnd => exact h.functionTypeEnd.leads hlasting hafter
          | expression min => exact (h.expression min).leads hlasting hafter
          | operand min missing => exact (h.operand min missing).leads hlasting hafter
          | arguments => exact h.arguments.leads hlasting hafter
          | moreArguments => exact h.moreArguments.leads hlasting hafter
          | namedValues => exact h.namedValues.leads hlasting hafter
          | moreNamedValues => exact h.moreNamedValues.leads hlasting hafter
          | tupleItems opening closing => exact (h.tupleItems opening closing).leads hlasting hafter
          | moreTupleItems opening closing => exact (h.moreTupleItems opening closing).leads hlasting hafter
          | statements => exact h.statements.leads hlasting hafter
          | statement => exact h.statement.leads hlasting hafter
          | block => exact h.block.leads hlasting hafter
          | elseBranch => exact h.elseBranch.leads hlasting hafter
          | doWhileEnd => exact h.doWhileEnd.leads hlasting hafter
          | forInit => exact h.forInit.leads hlasting hafter
          | forCondition => exact h.forCondition.leads hlasting hafter
          | forUpdate => exact h.forUpdate.leads hlasting hafter
          | tryReturns => exact h.tryReturns.leads hlasting hafter
          | catches => exact h.catches.leads hlasting hafter
          | declarators => exact h.declarators.leads hlasting hafter
          | moreDeclarators => exact h.moreDeclarators.leads hlasting hafter
          | fieldEnd => exact h.fieldEnd.leads hlasting hafter
          | parameterEnd => exact h.parameterEnd.leads hlasting hafter
          | localEnd => exact h.localEnd.leads hlasting hafter
          | stateVariableAttributes => exact h.stateVariableAttributes.leads hlasting hafter
          | mappingEnd => exact h.mappingEnd.leads hlasting hafter
          | mappingArrow => exact h.mappingArrow.leads hlasting hafter
          | items => exact h.items.leads hlasting hafter

end Goal

end SolidityAtlas

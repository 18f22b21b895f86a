import SolidityAtlas.Proofs.Syntax.Steps.Statements

/-!
# The steps of a text

The rules for the members of files and contracts are sequences of steps too, and with them
all rules have been gone through. So pursuing a goal is a sequence of steps that ends at
the number of open nodes that the goal leads to (`Goal.keeps_advance`), and reading a text
is one that ends in the root (`Draft.steps_reading`).

Directives and contracts are opened only by `item`, and that is used only in the root.

## Main Results

* `Goal.keeps_advance`: pursuing one goal
* `Draft.steps_reading`: reading a text
-/

namespace SolidityAtlas

namespace Draft.Steps

open Grammar

variable {start d : Draft} {o : OpenNode} {nodes : List OpenNode}

/-! ### Members of contracts -/

theorem overrideStart (h : Steps start nodes d) : (overrideStart d).Keeps start nodes := by
  have hd := (h.openNode .overrideSpecifier rfl).bump
  unfold Grammar.overrideStart
  simp only
  split
  · exact ⟨_, hd.bump, rfl⟩
  · exact ⟨_, hd.close, rfl⟩

theorem overrideNames (h : Steps start (o :: nodes) d) : (overrideNames d).Keeps start nodes := by
  unfold Grammar.overrideNames
  split
  · simp only
    split
    · exact ⟨_, h.typePath.bump, rfl⟩
    · exact ⟨_, h.typePath.closeParen, rfl⟩
  · exact ⟨_, h.closeParen, rfl⟩

theorem bodyStart (h : Steps start (o :: nodes) d) : (bodyStart d).Keeps start nodes := by
  unfold Grammar.bodyStart
  split
  · exact ⟨_, (h.openNode .block rfl).bump, rfl⟩
  · exact ⟨_, (h.expect _).close, rfl⟩

theorem structStart (h : Steps start nodes d) : (structStart d).Keeps start nodes := by
  have hd := (h.openNode .structDefinition rfl).bump.expectName fun _ => id
  unfold Grammar.structStart
  simp only
  split
  · exact ⟨_, hd.bump, rfl⟩
  · exact ⟨_, (hd.expect _).close, rfl⟩

theorem fields (h : Steps start (o :: nodes) d) : (fields d).Keeps start nodes := by
  have hnameless := ((h.openNode .variableDeclaration rfl).fault
    (.expectedTypeName d.kind)).expectName fun _ => id
  have htried := hnameless.close.expect .semicolon
  unfold Grammar.fields
  split
  · exact ⟨_, h.closeBrace, rfl⟩
  · split
    · exact (h.openNode .variableDeclaration rfl).typeStart.andThen (And.intro rfl rfl)
    · simp only
      split
      · exact ⟨_, htried, rfl⟩
      · exact ⟨_, htried.recover _ _, rfl⟩

theorem fieldEnd (h : Steps start (o :: nodes) d) (hkind : o.kind = .variableDeclaration) :
    (fieldEnd d).Keeps start nodes :=
  ⟨_, (h.expectName (NodeKind.takesNames_of_eq _ (.inl hkind))).close.expect _, rfl⟩

theorem enumStart (h : Steps start nodes d) : (enumStart d).Keeps start nodes := by
  have hd := (h.openNode .enumDefinition rfl).bump.expectName fun _ => id
  unfold Grammar.enumStart
  simp only
  split
  · exact ⟨_, hd.bump, rfl⟩
  · exact ⟨_, (hd.expect _).close, rfl⟩

theorem enumValues (h : Steps start (o :: nodes) d) : (enumValues d).Keeps start nodes := by
  have hd := ((h.openNode .enumValue rfl).expectName fun _ => id).close
  unfold Grammar.enumValues
  split
  · simp only
    split
    · exact ⟨_, hd.bump, rfl⟩
    · exact ⟨_, hd.closeBrace, rfl⟩
  · exact ⟨_, h.closeBrace, rfl⟩

theorem eventEnd (h : Steps start (o :: nodes) d) : (eventEnd d).Keeps start nodes :=
  ⟨_, ((h.eat _).expect _).close, rfl⟩

theorem modifierStart (h : Steps start nodes d) : (modifierStart d).Keeps start nodes := by
  have hd := (h.openNode .modifierDefinition rfl).bump.expectName fun _ => id
  unfold Grammar.modifierStart
  simp only
  split
  · exact ⟨_, hd, rfl⟩
  · exact ⟨_, hd, rfl⟩

theorem modifierAttributes (h : Steps start (o :: nodes) d) :
    (modifierAttributes d).Keeps start nodes := by
  unfold Grammar.modifierAttributes
  split
  · exact ⟨_, h.bump, rfl⟩
  · exact h.overrideStart.andThen rfl
  · exact h.bodyStart

theorem functionStart (h : Steps start nodes d) : (functionStart d).Keeps start nodes := by
  have hd := (h.openNode .functionDefinition rfl).bump
  unfold Grammar.functionStart
  simp only
  split
  · rename_i hnamed
    have hword : (d.openNode .functionDefinition).bump.top.before? = some .functionKw :=
      before?_bump_of_kind (by decide) (by rw [Draft.kind_openNode]; exact eq_of_beq hnamed)
    refine ⟨_, hd.eatName ?_, rfl⟩
    rw [hword]
    exact fun _ => id
  · exact ⟨_, hd, rfl⟩

theorem modifierUse (h : Steps start nodes d) : (modifierUse d).Keeps start nodes := by
  have hd := ((h.openNode .modifierInvocation rfl).expectName fun _ => id).moreSegments
    fun _ _ => id
  unfold Grammar.modifierUse
  simp only
  split
  · exact hd.argumentsStart.andThen rfl
  · exact ⟨_, hd.close, rfl⟩

theorem functionAttributes (h : Steps start (o :: nodes) d) :
    (functionAttributes d).Keeps start nodes := by
  unfold Grammar.functionAttributes
  split
  · exact ⟨_, h.bump, rfl⟩
  · split
    · exact h.overrideStart.andThen rfl
    · split
      · exact ⟨_, (h.openNode .returnParameters rfl).bump, rfl⟩
      · split
        · exact h.modifierUse.andThen rfl
        · exact h.bodyStart

theorem usingStart (h : Steps start nodes d) : (usingStart d).Keeps start nodes := by
  have hd := (h.openNode .usingForDeclaration rfl).bump
  unfold Grammar.usingStart
  simp only
  split
  · exact ⟨_, hd.bump, rfl⟩
  · exact ⟨_, hd.typePath, rfl⟩

theorem usingNames (h : Steps start (o :: nodes) d) : (usingNames d).Keeps start nodes := by
  unfold Grammar.usingNames
  split
  · have hpath := h.typePath
    simp only
    generalize Grammar.typePath d = path at hpath
    have hoperator : Steps start (o :: nodes) (if path.isAt .asKw then path.bump.bump else path) := by
      split
      · exact hpath.bump.bump
      · exact hpath
    generalize (if path.isAt .asKw then path.bump.bump else path) = named at hoperator
    split
    · exact ⟨_, hoperator.bump, rfl⟩
    · exact ⟨_, hoperator.expect _, rfl⟩
  · exact ⟨_, h.expect _, rfl⟩

theorem usingFor (h : Steps start (o :: nodes) d) : (usingFor d).Keeps start nodes := by
  unfold Grammar.usingFor
  simp only
  split
  · exact ⟨_, (h.expect _).bump, rfl⟩
  · exact ⟨_, h.expect _, rfl⟩

theorem usingEnd (h : Steps start (o :: nodes) d) : (usingEnd d).Keeps start nodes := by
  unfold Grammar.usingEnd
  split
  · exact ⟨_, (h.bump.expect _).close, rfl⟩
  · exact ⟨_, (h.expect _).close, rfl⟩

theorem stateVariableStart (h : Steps start nodes d) : (stateVariableStart d).Keeps start nodes :=
  ((h.openNode .stateVariableDeclaration rfl).openNode .variableDeclaration rfl).typeStart.andThen
    (And.intro rfl rfl)

theorem stateVariableAttributes (h : Steps start (o :: nodes) d)
    (hkind : o.kind = .variableDeclaration) : (stateVariableAttributes d).Keeps start nodes := by
  unfold Grammar.stateVariableAttributes
  split
  · exact ⟨_, h.bump, And.intro hkind rfl⟩
  · split
    · exact h.overrideStart.andThen (And.intro hkind rfl)
    · exact ⟨_, (h.expectName (NodeKind.takesNames_of_eq _ (.inl hkind))).close, rfl⟩

theorem member (h : Steps start nodes d) (stops : List TokenKind) :
    (member stops d).Keeps start nodes := by
  have hother : Pursuit.Keeps start nodes (if startsType d.kind then Grammar.stateVariableStart d
      else (d.recover (.expectedMember d.kind) stops, [])) := by
    split
    · exact h.stateVariableStart
    · exact ⟨_, h.recover _ _, rfl⟩
  unfold Grammar.member
  simp only
  generalize (if startsType d.kind then Grammar.stateVariableStart d
      else (d.recover (.expectedMember d.kind) stops, [])) = other at hother
  split
  · exact h.structStart
  · exact h.enumStart
  · exact ⟨_, (h.openNode .eventDefinition rfl).bump.expectName fun _ => id, rfl⟩
  · rename_i hkind
    split
    · have hword : (d.openNode .customErrorDefinition).bump.top.before? = some .errorKw :=
        before?_bump_of_kind (by decide) (by rw [Draft.kind_openNode]; exact hkind)
      refine ⟨_, (h.openNode .customErrorDefinition rfl).bump.expectName ?_, rfl⟩
      rw [hword]
      exact fun _ => id
    · exact hother
  · exact h.modifierStart
  · split
    · exact h.functionStart
    · exact hother
  iterate 3
    · split
      · exact h.functionStart
      · exact hother
  · have hd := (h.openNode .userDefinedValueTypeDefinition rfl).bump.expectName fun _ => id
    exact ⟨_, hd.expect _, rfl⟩
  · exact h.usingStart
  · exact ⟨_, h.bump, rfl⟩
  · exact hother

theorem members (h : Steps start (o :: nodes) d) : (members d).Keeps start nodes := by
  unfold Grammar.members
  split
  · exact ⟨_, h.closeBrace, rfl⟩
  · exact (h.member _).andThen rfl

/-! ### Contracts -/

theorem contractStart (h : Steps start [] d) : (contractStart d).Keeps start [] := by
  have hd := (h.openNode .contractDefinition rfl).eat .abstractKw
  unfold Grammar.contractStart
  generalize (d.openNode .contractDefinition).eat .abstractKw = opened at hd
  have hnamed : ∀ {e}, Steps start [⟨.contractDefinition, 0⟩] e → Pursuit.Keeps start []
      (if e.expectName.isAt .isKw then (e.expectName.bump, [.bases])
        else (e.expectName, [.contractBody])) := by
    intro e he
    have hname := he.expectName fun _ => id
    split
    · exact ⟨_, hname.bump, rfl⟩
    · exact ⟨_, hname, rfl⟩
  simp only
  split
  iterate 3
    · exact hnamed hd.bump
  · exact hnamed (hd.fault _)

theorem bases (h : Steps start (o :: nodes) d) : (bases d).Keeps start nodes := by
  have hd := (h.openNode .inheritanceSpecifier rfl).typePath
  unfold Grammar.bases
  simp only
  split
  · exact hd.argumentsStart.andThen rfl
  · exact ⟨_, hd.close, rfl⟩

theorem moreBases (h : Steps start (o :: nodes) d) : (moreBases d).Keeps start nodes := by
  unfold Grammar.moreBases
  split
  · exact ⟨_, h.bump, rfl⟩
  · exact ⟨_, h, rfl⟩

theorem contractBody (h : Steps start (o :: nodes) d) : (contractBody d).Keeps start nodes := by
  unfold Grammar.contractBody
  split
  · exact ⟨_, h.bump, rfl⟩
  · exact ⟨_, (h.expect _).close, rfl⟩

/-! ### Members of files -/

theorem importEnd (h : Steps start (o :: nodes) d) : Steps start nodes (importEnd d) := by
  unfold Grammar.importEnd
  split
  · exact h.bump.close
  · exact ((h.fault _).skipTo _).close

theorem eatAlias (h : Steps start (o :: nodes) d)
    (hnames : o.kind.TakesNames (some .asKw)) :
    Steps start (⟨o.kind, (eatAlias d).mark⟩ :: nodes) (eatAlias d) := by
  unfold Grammar.eatAlias
  split
  · rename_i has
    refine h.bump.expectName ?_
    rw [before?_bump_of_kind (by decide) (eq_of_beq has)]
    exact hnames
  · exact h.forget

theorem importStart (h : Steps start [] d) : (importStart d).Keeps start [] := by
  have hd := (h.openNode .importDirective rfl).bump
  unfold Grammar.importStart
  simp only
  split
  · exact .done (hd.bump.eatAlias fun _ => id).importEnd
  · rename_i hstar
    have hstarred := before?_bump_of_kind (by decide) hstar
    have hnames : NodeKind.TakesNames .importDirective
        ((d.openNode .importDirective).bump.bump.expect .asKw).top.before? := by
      -- Without the word the name stands behind the star.
      rcases before?_expect (k := .asKw) (by decide) with hbefore | hbefore
      · rw [hbefore]
        exact fun _ => id
      · rw [hbefore, hstarred]
        exact fun _ => id
    have hname := (hd.bump.expect .asKw).expectName hnames
    exact .done ((hname.expect .fromKw).expect .string).importEnd
  · exact ⟨_, hd.bump, rfl⟩
  · exact .done (hd.fault .expectedImportPath).importEnd

theorem importFrom (h : Steps start (o :: nodes) d) : Steps start nodes (importFrom d) :=
  (((h.expect .rBrace).expect .fromKw).expect .string).importEnd

theorem importSymbols (h : Steps start (o :: nodes) d) : (importSymbols d).Keeps start nodes := by
  have hd := (((h.openNode .importSymbol rfl).expectName fun _ => id).eatAlias fun _ => id).close
  unfold Grammar.importSymbols
  split
  · simp only
    split
    · exact ⟨_, hd.bump, rfl⟩
    · exact .done hd.importFrom
  · exact .done h.importFrom

theorem pragma (h : Steps start [] d) : Steps start [] (pragma d) :=
  (((h.openNode .pragmaDirective rfl).bump.skipTo _).expect _).close

theorem item (h : Steps start [] d) : (item d).Keeps start [] := by
  unfold Grammar.item
  split
  · exact ⟨_, h.pragma, rfl⟩
  · exact h.importStart
  iterate 4
    · exact h.contractStart
  · exact ⟨_, h.bump, rfl⟩
  · exact h.member _

theorem items (h : Steps start [] d) : (items d).Keeps start [] := by
  unfold Grammar.items
  split
  · exact ⟨_, h, rfl⟩
  · exact h.item.andThen rfl

end Draft.Steps

/-! ## Goals -/

namespace Goal

variable {start d : Draft} {nodes : List OpenNode}

/-- Pursuing a goal is a sequence of steps, and what it leaves leads to where the goal leads. -/
theorem keeps_advance (h : Draft.Steps start nodes d) {after : List OpenNode → Prop} {g : Goal}
    (hg : g.Leads after nodes) :
    ∃ now, Draft.Steps start now (g.advance d).1 ∧ LeadAll after (g.advance d).2 now := by
  cases nodes with
  | nil =>
      cases g with
      | items => exact h.items.leads hg
      | _ => exact hg.elim
  | cons o nodes =>
      cases g with
      | items => exact hg.elim
      | mappingArrow => exact h.mappingArrow hg.1 hg.2
      | fieldEnd => exact (h.fieldEnd hg.1).leads hg.2
      | parameterEnd => exact (h.parameterEnd hg.1).leads hg.2
      | localEnd => exact (h.localEnd hg.1).leads hg.2
      | stateVariableAttributes => exact (h.stateVariableAttributes hg.1).leads hg.2
      | mappingEnd => exact (h.mappingEnd hg.1).leads hg.2
      | arraySuffix mark => exact (h.arraySuffix hg.1).leads hg.2
      | operators mark min => exact (h.operators hg.1 min).leads hg.2
      | suffixes mark last => exact (h.suffixes hg.1 last).leads hg.2
      | indexMiddle mark => exact (h.indexMiddle hg.1).leads hg.2
      | indexEnd mark k => exact (h.indexEnd hg.1.1 hg.1.2).leads hg.2
      | expect k => exact (Pursuit.Keeps.done (h.expect k)).leads hg
      | close => exact (Pursuit.Keeps.done h.close).leads hg
      | importSymbols => exact h.importSymbols.leads hg
      | bases => exact h.bases.leads hg
      | moreBases => exact h.moreBases.leads hg
      | contractBody => exact h.contractBody.leads hg
      | members => exact h.members.leads hg
      | fields => exact h.fields.leads hg
      | enumValues => exact h.enumValues.leads hg
      | eventEnd => exact h.eventEnd.leads hg
      | modifierAttributes => exact h.modifierAttributes.leads hg
      | functionAttributes => exact h.functionAttributes.leads hg
      | overrideNames => exact h.overrideNames.leads hg
      | usingNames => exact h.usingNames.leads hg
      | usingFor => exact h.usingFor.leads hg
      | usingEnd => exact h.usingEnd.leads hg
      | initialiser => exact h.initialiser.leads hg
      | parameters => exact h.parameters.leads hg
      | parameterRow => exact h.parameterRow.leads hg
      | moreParameters => exact h.moreParameters.leads hg
      | typeName => exact h.typeStart.leads hg
      | functionTypeEnd => exact h.functionTypeEnd.leads hg
      | expression min => exact (h.expression min).leads hg
      | operand min missing => exact (h.operand min missing).leads hg
      | arguments => exact h.arguments.leads hg
      | moreArguments => exact h.moreArguments.leads hg
      | namedValues => exact h.namedValues.leads hg
      | moreNamedValues => exact h.moreNamedValues.leads hg
      | tupleItems opening closing => exact (h.tupleItems opening closing).leads hg
      | moreTupleItems opening closing => exact (h.moreTupleItems opening closing).leads hg
      | statements => exact h.statements.leads hg
      | statement => exact h.statement.leads hg
      | block => exact h.block.leads hg
      | elseBranch => exact h.elseBranch.leads hg
      | doWhileEnd => exact h.doWhileEnd.leads hg
      | forInit => exact h.forInit.leads hg
      | forCondition => exact h.forCondition.leads hg
      | forUpdate => exact h.forUpdate.leads hg
      | tryReturns => exact h.tryReturns.leads hg
      | catches => exact h.catches.leads hg
      | declarators => exact h.declarators.leads hg
      | moreDeclarators => exact h.moreDeclarators.leads hg

end Goal

namespace Draft

/-- Pursuing a row of goals is a sequence of steps to where the goals lead. -/
theorem Steps.pursue {start d : Draft} {nodes : List OpenNode} (h : Steps start nodes d)
    {after : List OpenNode → Prop} {goals : List Goal} (hgoals : Goal.LeadAll after goals nodes) :
    ∃ now, Steps start now (pursue goals d) ∧ after now := by
  induction goals, d using SolidityAtlas.pursue.induct generalizing nodes with
  | case1 d =>
      rw [SolidityAtlas.pursue]
      exact ⟨nodes, h, hgoals⟩
  | case2 g gs d p =>
      rename_i ih
      obtain ⟨now, hnow, hleft⟩ := Goal.keeps_advance h hgoals
      rw [← Goal.leadAll_append] at hleft
      rw [SolidityAtlas.pursue]
      exact ih hnow hleft

/-- Reading a text is a sequence of steps that ends in the root. -/
theorem steps_reading (tokens : List Token) :
    Steps (start .sourceUnit tokens) []
      (SolidityAtlas.pursue [.items] (start .sourceUnit tokens)).skipTrivia := by
  have hleads : Goal.LeadAll (· = []) [.items] [] := rfl
  obtain ⟨now, hnow, rfl⟩ := Steps.start.pursue hleads
  exact hnow.skipTrivia

end Draft

end SolidityAtlas

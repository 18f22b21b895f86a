import SolidityAtlas.Proofs.Syntax.Extents.Statements

/-!
# Extents of a text

The rules for the members of files and contracts keep drafts trim too, and with them all rules have
been gone through. So pursuing a goal that suits the places that are known keeps a draft trim, with
goals that suit them (`Goal.trim_advance`).

## Main Results

* `Goal.trim_advance`: pursuing one goal
* `Draft.Trim.pursue`: pursuing a row of goals
-/

namespace SolidityAtlas

namespace Draft

open Grammar

variable {d : Draft} {nodes : List (Set Nat)} {places : Set Nat}

/-! ### Members of contracts -/

namespace Trim

variable (h : Trim nodes d)

include h

theorem overrideStart (hmore : d.atEnd = false) : (overrideStart d).Trim nodes := by
  have hd := h.openNext .overrideSpecifier hmore
  unfold Grammar.overrideStart
  simp only
  exact .bumpIf hd.trim (by decide) (.refl _) (.done hd.close)

theorem structStart : (structStart d).Trim nodes := by
  have hd := (h.openNode .structDefinition).bump.expectName
  unfold Grammar.structStart
  simp only
  exact .bumpIf hd.trim (by decide) (.refl _) (.done (hd.trim.expect (by decide)).close)

theorem enumStart : (enumStart d).Trim nodes := by
  have hd := (h.openNode .enumDefinition).bump.expectName
  unfold Grammar.enumStart
  simp only
  exact .bumpIf hd.trim (by decide) (.refl _) (.done (hd.trim.expect (by decide)).close)

theorem modifierStart : (modifierStart d).Trim nodes := by
  have hd := (h.openNode .modifierDefinition).bump.expectName
  unfold Grammar.modifierStart
  simp only
  split
  · exact .of hd (.refl _)
  · exact .of hd (.refl _)

theorem functionStart (hmore : d.atEnd = false) : (functionStart d).Trim nodes := by
  have hd := h.openNext .functionDefinition hmore
  unfold Grammar.functionStart
  simp only
  split
  · exact .of hd.eatName (.refl _)
  · exact .of hd (.refl _)

theorem modifierUse : (modifierUse d).Trim nodes := by
  have hd := (h.openNode .modifierInvocation).expectName.moreSegments
  unfold Grammar.modifierUse
  simp only
  split
  · rename_i hat
    exact (hd.trim.argumentsStart hat).andThen (.refl _)
  · exact .done hd.close

theorem usingStart : (usingStart d).Trim nodes := by
  have hd := (h.openNode .usingForDeclaration).bump
  unfold Grammar.usingStart
  simp only
  exact .bumpIf hd (by decide) (.refl _) (.of hd.typePath (.refl _))

theorem stateVariableStart : (stateVariableStart d).Trim nodes :=
  ((h.openNode .stateVariableDeclaration).openNode .variableDeclaration).typeStart.andThen (.refl _)

theorem member (stops : List TokenKind) : (member stops d).Trim nodes := by
  have hother : Pursuit.Trim nodes (if startsType d.kind then Grammar.stateVariableStart d
      else (d.recover (.expectedMember d.kind) stops, [])) := by
    split
    · exact h.stateVariableStart
    · exact .done (h.recover _ _)
  unfold Grammar.member
  simp only
  generalize (if startsType d.kind then Grammar.stateVariableStart d
      else (d.recover (.expectedMember d.kind) stops, [])) = other at hother
  split
  · exact h.structStart
  · exact h.enumStart
  · exact .of (h.openNode .eventDefinition).bump.expectName (.refl _)
  · split
    · exact .of (h.openNode .customErrorDefinition).bump.expectName ⟨by decide, .refl _⟩
    · exact hother
  · exact h.modifierStart
  iterate 4
    · rename_i hkind
      split
      · exact h.functionStart (atEnd_of_kind (by decide) hkind)
      · exact hother
  · exact .of ((h.openNode .userDefinedValueTypeDefinition).bump.expectName.trim.expect (by decide))
      ⟨by decide, .refl _⟩
  · exact h.usingStart
  · rename_i hkind
    exact .done (h.bumpNext (atEnd_of_kind (by decide) hkind))
  · exact hother

end Trim

namespace Settled

theorem overrideNames (h : Settled (places :: nodes) d) : (overrideNames d).Trim nodes := by
  unfold Grammar.overrideNames
  split
  · have hd := h.trim.typePath
    simp only
    exact .bumpIf hd.trim (by decide) (.refl _) (.done hd.trim.closeParen)
  · exact .done h.trim.closeParen

theorem bodyStart (h : Settled (places :: nodes) d) : (bodyStart d).Trim nodes := by
  unfold Grammar.bodyStart
  split
  · rename_i hat
    exact .of (h.trim.openNext .block (atEnd_of_at (by decide) hat)) (.refl _)
  · exact .done (h.trim.expect (by decide)).close

theorem fields (h : Settled (places :: nodes) d) : (fields d).Trim nodes := by
  have hnameless := (h.trim.openNode .variableDeclaration).fault (.expectedTypeName d.kind)
  have htried : Settled (places :: nodes) _ :=
    hnameless.trim.expectName.close.trim.expect (k := .semicolon) (by decide)
  unfold Grammar.fields
  split
  · exact .done h.trim.closeBrace
  · split
    · exact (h.trim.openNode .variableDeclaration).typeStart.andThen (.refl _)
    · simp only
      split
      · exact .of htried (.refl _)
      · exact .of (htried.trim.recover _ _) (.refl _)

theorem fieldEnd (h : Settled (places :: nodes) d) : (fieldEnd d).Trim nodes :=
  .done (h.trim.expectName.close.trim.expect (by decide))

theorem enumValues (h : Settled (places :: nodes) d) : (enumValues d).Trim nodes := by
  have hd := (h.trim.openNode .enumValue).expectName.close
  unfold Grammar.enumValues
  split
  · simp only
    exact .bumpIf hd.trim (by decide) (.refl _) (.done hd.trim.closeBrace)
  · exact .done h.trim.closeBrace

theorem eventEnd (h : Settled (places :: nodes) d) : (eventEnd d).Trim nodes :=
  .done ((h.eat (by decide)).trim.expect (by decide)).close

theorem modifierAttributes (h : Settled (places :: nodes) d) :
    (modifierAttributes d).Trim nodes := by
  unfold Grammar.modifierAttributes
  split
  · rename_i hkind
    exact .of (h.trim.bumpNext (atEnd_of_kind (by decide) hkind)) (.refl _)
  · rename_i hkind
    exact (h.trim.overrideStart (atEnd_of_kind (by decide) hkind)).andThen (.refl _)
  · exact h.bodyStart

theorem functionAttributes (h : Settled (places :: nodes) d) :
    (functionAttributes d).Trim nodes := by
  unfold Grammar.functionAttributes
  split
  · rename_i hattribute
    exact .of (h.trim.bumpNext (atEnd_of_test (p := isFunctionAttribute) rfl hattribute)) (.refl _)
  · split
    · rename_i hat
      exact (h.trim.overrideStart (atEnd_of_at (by decide) hat)).andThen (.refl _)
    · split
      · rename_i hat
        exact .of (h.trim.openNext .returnParameters (atEnd_of_at (by decide) hat)) (.refl _)
      · split
        · exact h.trim.modifierUse.andThen (.refl _)
        · exact h.bodyStart

theorem usingNames (h : Settled (places :: nodes) d) : (usingNames d).Trim nodes := by
  unfold Grammar.usingNames
  split
  · have hpath := h.trim.typePath
    simp only
    generalize Grammar.typePath d = path at hpath
    have hoperator : Trim (places :: nodes) (if path.isAt .asKw then path.bump.bump else path) := by
      split
      · exact hpath.trim.bump.bump
      · exact hpath.trim
    generalize (if path.isAt .asKw then path.bump.bump else path) = named at hoperator
    exact .bumpIf hoperator (by decide) (.refl _) (.of (hoperator.expect (by decide)) (.refl _))
  · exact .of (h.trim.expect (by decide)) (.refl _)

theorem usingFor (h : Settled (places :: nodes) d) : (usingFor d).Trim nodes := by
  have hd := h.trim.expect (k := .forKw) (by decide)
  unfold Grammar.usingFor
  simp only
  exact .bumpIf hd.trim (by decide) (.refl _) (.of hd (.refl _))

theorem usingEnd (h : Settled (places :: nodes) d) : (usingEnd d).Trim nodes := by
  unfold Grammar.usingEnd
  split
  · exact .done (h.trim.bump.expect (by decide)).close
  · exact .done (h.trim.expect (by decide)).close

theorem stateVariableAttributes (h : Settled (places :: nodes) d) :
    (stateVariableAttributes d).Trim nodes := by
  unfold Grammar.stateVariableAttributes
  split
  · rename_i hattribute
    have hmore : d.atEnd = false := by
      refine atEnd_of_kind_ne fun herror => ?_
      rw [atStateVariableAttribute, herror] at hattribute
      cases hattribute
    exact .of (h.trim.bumpNext hmore) (.refl _)
  · split
    · rename_i hat
      exact (h.trim.overrideStart (atEnd_of_at (by decide) hat)).andThen (.refl _)
    · exact .done h.trim.expectName.close

theorem members (h : Settled (places :: nodes) d) : (members d).Trim nodes := by
  unfold Grammar.members
  split
  · exact .done h.trim.closeBrace
  · exact (h.trim.member _).andThen (.refl _)

end Settled

/-! ### Contracts -/

theorem Trim.contractStart (h : Trim nodes d) : (contractStart d).Trim nodes := by
  have hnamed : ∀ {e}, Trim (∅ :: nodes) e → Pursuit.Trim nodes
      (if e.expectName.isAt .isKw then (e.expectName.bump, [.bases])
        else (e.expectName, [.contractBody])) := by
    intro e he
    exact .bumpIf he.expectName.trim (by decide) (.refl _) (.of he.expectName (.refl _))
  have hd : Trim (∅ :: nodes) ((d.openNode .contractDefinition).eat .abstractKw) := by
    unfold Draft.eat
    split
    · exact (h.openNode .contractDefinition).bump
    · exact h.openNode .contractDefinition
  unfold Grammar.contractStart
  simp only
  split
  iterate 3
    · exact hnamed hd.bump
  · exact hnamed (hd.fault _).trim

namespace Settled

theorem bases (h : Settled (places :: nodes) d) : (bases d).Trim nodes := by
  have hd := (h.trim.openNode .inheritanceSpecifier).typePath
  unfold Grammar.bases
  simp only
  split
  · rename_i hat
    exact (hd.trim.argumentsStart hat).andThen (.refl _)
  · exact .of hd.close (.refl _)

theorem moreBases (h : Settled (places :: nodes) d) : (moreBases d).Trim nodes := by
  unfold Grammar.moreBases
  exact .bumpIf h.trim (by decide) (.refl _) (.of h (.refl _))

theorem contractBody (h : Settled (places :: nodes) d) : (contractBody d).Trim nodes := by
  unfold Grammar.contractBody
  exact .bumpIf h.trim (by decide) (.refl _) (.done (h.trim.expect (by decide)).close)

end Settled

/-! ### Members of files -/

namespace Trim

theorem importEnd (h : Trim (places :: nodes) d) : Settled nodes (importEnd d) := by
  unfold Grammar.importEnd
  split
  · rename_i hat
    exact (h.bumpAt hat (by decide)).close
  · exact ((h.fault _).skipTo _).close

theorem importSource (h : Trim (places :: nodes) d) :
    Settled nodes (Grammar.importEnd ((d.expect .fromKw).expect .string)) :=
  ((h.expect (by decide)).trim.expect (by decide)).trim.importEnd

theorem importFrom (h : Trim (places :: nodes) d) : Settled nodes (importFrom d) :=
  (h.expect (by decide)).trim.importSource

end Trim

theorem Settled.eatAlias (h : Settled nodes d) : Settled nodes (eatAlias d) := by
  unfold Grammar.eatAlias
  split
  · exact h.trim.bump.expectName
  · exact h

namespace Trim

theorem importStart (h : Trim nodes d) : (importStart d).Trim nodes := by
  have hd := (h.openNode .importDirective).bump
  unfold Grammar.importStart
  simp only
  split
  · rename_i hkind
    exact .done (hd.bumpNext (atEnd_of_kind (by decide) hkind)).eatAlias.trim.importEnd
  · have hname := (hd.bump.expect (k := .asKw) (by decide)).trim.expectName
    exact .done hname.trim.importSource
  · rename_i hkind
    exact .of (hd.bumpNext (atEnd_of_kind (by decide) hkind)) (.refl _)
  · exact .done (hd.fault .expectedImportPath).trim.importEnd

theorem pragma (h : Trim nodes d) (hmore : d.atEnd = false) : Settled nodes (pragma d) :=
  (((h.openNext .pragmaDirective hmore).skipTo _).trim.expect (by decide)).close

theorem item (h : Trim nodes d) : (item d).Trim nodes := by
  unfold Grammar.item
  split
  · rename_i hkind
    exact .done (h.pragma (atEnd_of_kind (by decide) hkind))
  · exact h.importStart
  iterate 4
    · exact h.contractStart
  · rename_i hkind
    exact .done (h.bumpNext (atEnd_of_kind (by decide) hkind))
  · exact h.member _

end Trim

theorem Settled.importSymbols (h : Settled (places :: nodes) d) : (importSymbols d).Trim nodes := by
  have hd := (h.trim.openNode .importSymbol).expectName.eatAlias.close
  unfold Grammar.importSymbols
  split
  · simp only
    exact .bumpIf hd.trim (by decide) (.refl _) (.done hd.trim.importFrom)
  · exact .done h.trim.importFrom

theorem Settled.items (h : Settled nodes d) : (items d).Trim nodes := by
  unfold Grammar.items
  split
  · exact .done h
  · cases nodes with
    | nil => exact h.trim.item.andThen ⟨rfl, .refl _⟩
    | cons places nodes => exact h.trim.item.andThen (.refl _)

end Draft

/-! ## Goals -/

namespace Goal

variable {d : Draft} {nodes last : List (Set Nat)} {g : Goal} {gs : List Goal}

/-- Pursuing a goal where it suits keeps a draft trim, and what it leaves suits too. -/
theorem trim_advance (h : d.Ready nodes (g :: gs)) (hg : SuitAll last (g :: gs) nodes) :
    ((g.advance d).andThen gs).Trim last := by
  have htrim : d.Trim nodes := h.elim (·.trim) (·.1)
  by_cases hexpression : ∃ min, g = .expression min
  · obtain ⟨min, rfl⟩ := hexpression
    cases nodes with
    | nil => exact absurd hg.1 nofun
    | cons places nodes => exact (htrim.expression min).andThen hg
  · have hsettled : d.Settled nodes := h.resolve_right fun ⟨_, min, _, heq⟩ =>
      hexpression ⟨min, (List.cons.inj heq).1⟩
    cases nodes with
    | nil =>
        obtain ⟨rfl, hafter⟩ := hg
        exact hsettled.items.andThen hafter
    | cons places nodes =>
        cases g with
        | expression min => exact absurd ⟨min, rfl⟩ hexpression
        | arraySuffix m => exact (hsettled.arraySuffix hg.1).andThen hg.2
        | operators m min => exact (hsettled.operators hg.1 min).andThen hg.2
        | suffixes m before => exact (hsettled.suffixes hg.1 before).andThen hg.2
        | indexMiddle m => exact (hsettled.indexMiddle hg.1).andThen hg.2
        | indexEnd m k => exact (hsettled.indexEnd hg.1 k).andThen hg.2
        | expect k => exact (Pursuit.Trim.done (htrim.expect hg.1)).andThen hg.2
        | tupleItems opening closing => exact (hsettled.tupleItems hg.1).andThen hg.2
        | moreTupleItems opening closing => exact (hsettled.moreTupleItems hg.1).andThen hg.2
        | close => exact (Pursuit.Trim.done hsettled.close).andThen hg
        | items => exact hsettled.items.andThen hg
        | typeName => exact htrim.typeStart.andThen hg
        | operand min missing => exact (htrim.operand min missing).andThen hg
        | block => exact htrim.block.andThen hg
        | statement => exact htrim.statement.andThen hg
        | importSymbols => exact hsettled.importSymbols.andThen hg
        | bases => exact hsettled.bases.andThen hg
        | moreBases => exact hsettled.moreBases.andThen hg
        | contractBody => exact hsettled.contractBody.andThen hg
        | members => exact hsettled.members.andThen hg
        | fields => exact hsettled.fields.andThen hg
        | fieldEnd => exact hsettled.fieldEnd.andThen hg
        | enumValues => exact hsettled.enumValues.andThen hg
        | eventEnd => exact hsettled.eventEnd.andThen hg
        | modifierAttributes => exact hsettled.modifierAttributes.andThen hg
        | functionAttributes => exact hsettled.functionAttributes.andThen hg
        | overrideNames => exact hsettled.overrideNames.andThen hg
        | usingNames => exact hsettled.usingNames.andThen hg
        | usingFor => exact hsettled.usingFor.andThen hg
        | usingEnd => exact hsettled.usingEnd.andThen hg
        | stateVariableAttributes => exact hsettled.stateVariableAttributes.andThen hg
        | initialiser => exact hsettled.initialiser.andThen hg
        | parameters => exact hsettled.parameters.andThen hg
        | parameterRow => exact hsettled.parameterRow.andThen hg
        | parameterEnd => exact hsettled.parameterEnd.andThen hg
        | moreParameters => exact hsettled.moreParameters.andThen hg
        | mappingArrow => exact hsettled.mappingArrow.andThen hg
        | mappingEnd => exact hsettled.mappingEnd.andThen hg
        | functionTypeEnd => exact hsettled.functionTypeEnd.andThen hg
        | arguments => exact hsettled.arguments.andThen hg
        | moreArguments => exact hsettled.moreArguments.andThen hg
        | namedValues => exact hsettled.namedValues.andThen hg
        | moreNamedValues => exact hsettled.moreNamedValues.andThen hg
        | statements => exact hsettled.statements.andThen hg
        | elseBranch => exact hsettled.elseBranch.andThen hg
        | doWhileEnd => exact hsettled.doWhileEnd.andThen hg
        | forInit => exact hsettled.forInit.andThen hg
        | forCondition => exact hsettled.forCondition.andThen hg
        | forUpdate => exact hsettled.forUpdate.andThen hg
        | tryReturns => exact hsettled.tryReturns.andThen hg
        | catches => exact hsettled.catches.andThen hg
        | declarators => exact hsettled.declarators.andThen hg
        | moreDeclarators => exact hsettled.moreDeclarators.andThen hg
        | localEnd => exact hsettled.localEnd.andThen hg

end Goal

namespace Draft

/-- Pursuing goals where they suit keeps a draft trim. -/
theorem Trim.pursue {d : Draft} {nodes last : List (Set Nat)} {goals : List Goal}
    (h : d.Ready nodes goals) (hgoals : Goal.SuitAll last goals nodes) :
    (SolidityAtlas.pursue goals d).Trim last := by
  induction goals, d using SolidityAtlas.pursue.induct generalizing nodes with
  | case1 d =>
      rw [SolidityAtlas.pursue]
      have hsettled : d.Settled nodes := h.resolve_right fun ⟨_, _, _, heq⟩ => nomatch heq
      exact hsettled.trim.forget hgoals
  | case2 g gs d p =>
      rename_i ih
      obtain ⟨now, hready, hsuits⟩ := Goal.trim_advance h hgoals
      rw [SolidityAtlas.pursue]
      exact ih hready hsuits

end Draft

end SolidityAtlas

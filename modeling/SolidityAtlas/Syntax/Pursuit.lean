import SolidityAtlas.Syntax.Progress

/-!
# Pursuing goals

The reading of a text is a loop: take the goal on top, advance it, put the goals
that it leaves in its place.
-/

namespace SolidityAtlas

namespace Goal

/-- What pursuing a goal takes into the draft, and the goals it leaves. -/
def advance (d : Draft) : Goal → Pursuit
  | expect k => (d.expect k, [])
  | close => (d.close, [])
  | items => Grammar.items d
  | importSymbols => Grammar.importSymbols d
  | bases => Grammar.bases d
  | moreBases => Grammar.moreBases d
  | contractBody => Grammar.contractBody d
  | members => Grammar.members d
  | fields => Grammar.fields d
  | fieldEnd => Grammar.fieldEnd d
  | enumValues => Grammar.enumValues d
  | eventEnd => Grammar.eventEnd d
  | modifierAttributes => Grammar.modifierAttributes d
  | functionAttributes => Grammar.functionAttributes d
  | overrideNames => Grammar.overrideNames d
  | usingNames => Grammar.usingNames d
  | usingFor => Grammar.usingFor d
  | usingEnd => Grammar.usingEnd d
  | stateVariableAttributes => Grammar.stateVariableAttributes d
  | initialiser => Grammar.initialiser d
  | parameters => Grammar.parameters d
  | parameterRow => Grammar.parameterRow d
  | parameterEnd => Grammar.parameterEnd d
  | moreParameters => Grammar.moreParameters d
  | typeName => Grammar.typeStart d
  | arraySuffix mark => Grammar.arraySuffix mark d
  | mappingArrow => Grammar.mappingArrow d
  | mappingEnd => Grammar.mappingEnd d
  | functionTypeEnd => Grammar.functionTypeEnd d
  | expression min => Grammar.expression min d
  | operand min missing => Grammar.operand min missing d
  | operators mark min => Grammar.operators mark min d
  | suffixes mark last => Grammar.suffixes mark last d
  | indexMiddle mark => Grammar.indexMiddle mark d
  | indexEnd mark kind => Grammar.indexEnd mark kind d
  | arguments => Grammar.arguments d
  | moreArguments => Grammar.moreArguments d
  | namedValues => Grammar.namedValues d
  | moreNamedValues => Grammar.moreNamedValues d
  | tupleItems opening closing => Grammar.tupleItems opening closing d
  | moreTupleItems opening closing => Grammar.moreTupleItems opening closing d
  | statements => Grammar.statements d
  | statement => Grammar.statement d
  | block => Grammar.block d
  | elseBranch => Grammar.elseBranch d
  | doWhileEnd => Grammar.doWhileEnd d
  | forInit => Grammar.forInit d
  | forCondition => Grammar.forCondition d
  | forUpdate => Grammar.forUpdate d
  | tryReturns => Grammar.tryReturns d
  | catches => Grammar.catches d
  | declarators => Grammar.declarators d
  | moreDeclarators => Grammar.moreDeclarators d
  | localEnd => Grammar.localEnd d

open Grammar

/-- Pursuing a goal makes the load smaller, by the weight of the goal at least. -/
theorem load_advance_lt (d : Draft) (g : Goal) : (g.advance d).load < 16 * d.size + g.weight := by
  cases g with
  | expect k => exact Nat.lt_succ_of_le (Nat.mul_le_mul_left 16 (Draft.size_expect_le k))
  | close => exact Nat.lt_succ_of_le (Nat.mul_le_mul_left 16 (Nat.le_of_eq Draft.size_close))
  | items => exact Nat.lt_succ_of_le load_items_le
  | importSymbols => exact Nat.lt_succ_of_le load_importSymbols_le
  | bases => exact Nat.lt_succ_of_le load_bases_le
  | moreBases => exact Nat.lt_succ_of_le load_moreBases_le
  | contractBody => exact Nat.lt_succ_of_le load_contractBody_le
  | members => exact Nat.lt_succ_of_le load_members_le
  | fields => exact Nat.lt_succ_of_le load_fields_le
  | fieldEnd => exact Nat.lt_succ_of_le load_fieldEnd_le
  | enumValues => exact Nat.lt_succ_of_le load_enumValues_le
  | eventEnd => exact Nat.lt_succ_of_le load_eventEnd_le
  | modifierAttributes => exact Nat.lt_succ_of_le load_modifierAttributes_le
  | functionAttributes => exact Nat.lt_succ_of_le load_functionAttributes_le
  | overrideNames => exact Nat.lt_succ_of_le load_overrideNames_le
  | usingNames => exact Nat.lt_succ_of_le load_usingNames_le
  | usingFor => exact Nat.lt_succ_of_le load_usingFor_le
  | usingEnd => exact Nat.lt_succ_of_le load_usingEnd_le
  | stateVariableAttributes => exact Nat.lt_succ_of_le load_stateVariableAttributes_le
  | initialiser => exact Nat.lt_succ_of_le load_initialiser_le
  | parameters => exact Nat.lt_succ_of_le load_parameters_le
  | parameterRow => exact Nat.lt_succ_of_le load_parameterRow_le
  | parameterEnd => exact Nat.lt_succ_of_le load_parameterEnd_le
  | moreParameters => exact Nat.lt_succ_of_le load_moreParameters_le
  | typeName => exact Nat.lt_succ_of_le load_typeStart_le
  | arraySuffix mark => exact Nat.lt_succ_of_le (load_arraySuffix_le mark)
  | mappingArrow => exact Nat.lt_succ_of_le load_mappingArrow_le
  | mappingEnd => exact Nat.lt_succ_of_le load_mappingEnd_le
  | functionTypeEnd => exact Nat.lt_succ_of_le load_functionTypeEnd_le
  | expression min => exact Nat.lt_succ_of_le (load_expression_le min)
  | operand min missing => exact Nat.lt_succ_of_le (load_operand_le min missing)
  | operators mark min => exact Nat.lt_succ_of_le (load_operators_le mark min)
  | suffixes mark last => exact Nat.lt_succ_of_le (load_suffixes_le mark last)
  | indexMiddle mark => exact Nat.lt_succ_of_le (load_indexMiddle_le mark)
  | indexEnd mark kind => exact Nat.lt_succ_of_le (load_indexEnd_le mark kind)
  | arguments => exact Nat.lt_succ_of_le load_arguments_le
  | moreArguments => exact Nat.lt_succ_of_le load_moreArguments_le
  | namedValues => exact Nat.lt_succ_of_le load_namedValues_le
  | moreNamedValues => exact Nat.lt_succ_of_le load_moreNamedValues_le
  | tupleItems opening closing => exact Nat.lt_succ_of_le (load_tupleItems_le opening closing)
  | moreTupleItems opening closing =>
    exact Nat.lt_succ_of_le (load_moreTupleItems_le opening closing)
  | statements => exact Nat.lt_succ_of_le load_statements_le
  | statement => exact Nat.lt_succ_of_le load_statement_le
  | block => exact Nat.lt_succ_of_le load_block_le
  | elseBranch => exact Nat.lt_succ_of_le load_elseBranch_le
  | doWhileEnd => exact Nat.lt_succ_of_le load_doWhileEnd_le
  | forInit => exact Nat.lt_succ_of_le load_forInit_le
  | forCondition => exact Nat.lt_succ_of_le load_forCondition_le
  | forUpdate => exact Nat.lt_succ_of_le load_forUpdate_le
  | tryReturns => exact Nat.lt_succ_of_le load_tryReturns_le
  | catches => exact Nat.lt_succ_of_le load_catches_le
  | declarators => exact Nat.lt_succ_of_le load_declarators_le
  | moreDeclarators => exact Nat.lt_succ_of_le load_moreDeclarators_le
  | localEnd => exact Nat.lt_succ_of_le load_localEnd_le

end Goal

/-- The draft after a row of goals has been pursued. -/
def pursue : List Goal → Draft → Draft
  | [], d => d
  | g :: gs, d =>
    let p := g.advance d
    pursue (p.2 ++ gs) p.1
termination_by goals d => 16 * d.size + Goal.weights goals
decreasing_by
  have h := Goal.load_advance_lt d g
  simp only [Pursuit.load, Goal.tokenWeight] at h
  simp only [Goal.weights_append, Goal.weights_cons]
  omega

end SolidityAtlas

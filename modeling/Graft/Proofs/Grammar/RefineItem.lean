import Graft.Proofs.Grammar.RefineExpression
import Graft.Grammar.Level

/-!
# Items and statements of deeper grammars
-/

set_option synthInstance.maxSize 200000

namespace Graft.Grammar

open Graft.Parser

variable {g g' : Grammar} [Refines g g']

/-! ## Functions and macro calls -/

instance refines_visibilityScope : visibilityScope.Refines visibilityScope := by
  unfold visibilityScope
  infer_instance

instance refines_visibility : visibility.Refines visibility := by
  unfold visibility
  infer_instance

instance refines_optional (s : String) : (optional s).Refines (optional s) := by
  unfold optional
  infer_instance

instance refines_functionMarks (safe : Bool) :
    (functionMarks safe).Refines (functionMarks safe) := by
  unfold functionMarks
  infer_instance

instance refines_startsSignature (safe : Bool) :
    (startsSignature safe).Refines (startsSignature safe) := by
  unfold startsSignature
  infer_instance

instance refines_receiver : g.receiver.Refines g'.receiver := by
  unfold receiver
  infer_instance

instance refines_param : g.param.Refines g'.param := by
  unfold param
  refine .andThen fun _ => .andThen fun variadic => ?_
  split
  · infer_instance
  refine .andThen fun start => ?_
  cases start <;> infer_instance

instance refines_checkedParam (first received : Bool) :
    (g.checkedParam first received).Refines (g'.checkedParam first received) := by
  unfold checkedParam
  refine .andThen fun p => ?_
  cases p <;> infer_instance

instance refines_params : g.params.Refines g'.params := by
  unfold params
  infer_instance

instance refines_signature (safe : Bool) : (g.signature safe).Refines (g'.signature safe) := by
  unfold signature
  infer_instance

instance refines_macroCall : macroCall.Refines macroCall := by
  unfold macroCall
  infer_instance

instance refines_macroMember : macroMember.Refines macroMember := by
  unfold macroMember
  infer_instance

instance refines_macroItem : macroItem.Refines macroItem := by
  unfold macroItem
  infer_instance

instance refines_value? : g.value?.Refines g'.value? := by
  unfold value?
  infer_instance

instance refines_constantRest : g.constantRest.Refines g'.constantRest := by
  unfold constantRest
  infer_instance

instance refines_boundsUntil (stop : List Token → Bool) :
    (g.boundsUntil stop).Refines (g'.boundsUntil stop) := by
  unfold boundsUntil
  infer_instance

instance refines_typeAlias (conditions : ConditionPlace) :
    (g.typeAlias conditions).Refines (g'.typeAlias conditions) := by
  unfold typeAlias
  infer_instance

/-! ## Members -/

instance refines_traitFunction : g.traitFunction.Refines g'.traitFunction := by
  unfold traitFunction
  infer_instance

instance refines_traitMember : g.traitMember.Refines g'.traitMember := by
  unfold traitMember
  infer_instance

instance refines_implMember : g.implMember.Refines g'.implMember := by
  unfold implMember
  infer_instance

instance refines_foreignStatic : g.foreignStatic.Refines g'.foreignStatic := by
  unfold foreignStatic
  infer_instance

instance refines_foreignMember : g.foreignMember.Refines g'.foreignMember := by
  unfold foreignMember
  infer_instance

instance refines_members {member member' : Parser PUnit} [member.Refines member'] :
    (g.members member).Refines (g'.members member') := by
  unfold members
  infer_instance

/-! ## Items -/

instance refines_namedField : g.namedField.Refines g'.namedField := by
  unfold namedField
  infer_instance

instance refines_positionalField : g.positionalField.Refines g'.positionalField := by
  unfold positionalField
  infer_instance

instance refines_namedFields : g.namedFields.Refines g'.namedFields := by
  unfold namedFields
  infer_instance

instance refines_positionalFields : g.positionalFields.Refines g'.positionalFields := by
  unfold positionalFields
  infer_instance

instance refines_structRest : g.structRest.Refines g'.structRest := by
  unfold structRest
  infer_instance

instance refines_variant : g.variant.Refines g'.variant := by
  unfold variant
  infer_instance

instance refines_useForm (root : Bool) : (g.useForm root).Refines (g'.useForm root) := by
  unfold useForm
  infer_instance

instance refines_useItem : g.useItem.Refines g'.useItem := by
  unfold useItem
  infer_instance

instance refines_crateItem : crateItem.Refines crateItem := by
  unfold crateItem
  infer_instance

instance refines_externItem : g.externItem.Refines g'.externItem := by
  unfold externItem
  infer_instance

instance refines_staticItem : g.staticItem.Refines g'.staticItem := by
  unfold staticItem
  infer_instance

instance refines_moduleItem : g.moduleItem.Refines g'.moduleItem := by
  unfold moduleItem
  infer_instance

instance refines_traitRest : g.traitRest.Refines g'.traitRest := by
  unfold traitRest
  infer_instance

instance refines_traitItem (marked : Bool) :
    (g.traitItem marked).Refines (g'.traitItem marked) := by
  unfold traitItem
  infer_instance

instance refines_implItem : g.implItem.Refines g'.implItem := by
  unfold implItem
  infer_instance

instance refines_macroDefinition : macroDefinition.Refines macroDefinition := by
  unfold macroDefinition
  infer_instance

instance refines_uncheckedItem : g.uncheckedItem.Refines g'.uncheckedItem := by
  unfold uncheckedItem
  infer_instance

instance refines_dataItem : g.dataItem.Refines g'.dataItem := by
  unfold dataItem
  infer_instance

instance refines_itemRest : g.itemRest.Refines g'.itemRest := by
  unfold itemRest
  infer_instance

instance refines_itemForm : g.itemForm.Refines g'.itemForm := by
  unfold itemForm
  infer_instance

instance refines_item? : g.item?.Refines g'.item? := by
  unfold item?
  infer_instance

instance refines_items : g.items.Refines g'.items := by
  unfold items
  infer_instance

/-! ## Statements -/

instance refines_letStatement : g.letStatement.Refines g'.letStatement := by
  unfold letStatement
  infer_instance

instance refines_macroAhead : macroAhead.Refines macroAhead := by
  unfold macroAhead
  infer_instance

instance refines_statement : g.statement.Refines g'.statement := by
  unfold statement
  refine .andThen fun _ => .andThen fun form => ?_
  cases form <;> infer_instance

instance refines_statementsForm : g.statementsForm.Refines g'.statementsForm := by
  unfold statementsForm
  infer_instance

/-! ## Levels -/

instance refines_above : Refines (above g) (above g') where
  type := refines_typeTree
  bound := refines_boundForm
  expr := refines_exprForm
  operand := refines_operandForm
  operators := refines_operatorsForm
  boundary := refines_boundaryForm
  pattern := refines_patternForm
  statements := refines_statementsForm
  item := refines_itemForm
  useTree := refines_useForm

instance refines_bottom (g : Grammar) : Refines bottom g where
  type _ := refines_default
  bound _ _ := refines_default
  expr _ := refines_default
  operand _ := refines_default
  operators _ _ _ := refines_default
  boundary := refines_default
  pattern := refines_default
  statements := refines_default
  item := refines_default
  useTree _ := refines_default

/-- **More levels do not change what is read.** A parser of a grammar fails for want of a level or
does what that of any grammar with more levels does, and what it writes counts no more slashes than
what it reads. -/
theorem refines_level {m n : Nat} (h : m ≤ n) : Refines (level m) (level n) := by
  induction m generalizing n with
  | zero => exact refines_bottom _
  | succ m ih =>
    obtain ⟨n, rfl⟩ := Nat.exists_eq_add_of_le' (Nat.one_le_of_lt h)
    have hbelow := ih (Nat.le_of_succ_le_succ h)
    exact refines_above

end Graft.Grammar

import Graft.Proofs.Grammar.RefineType
import Graft.Grammar.Expression

/-!
# Patterns and expressions of deeper grammars
-/

set_option synthInstance.maxSize 200000

namespace Graft.Grammar

open Graft.Parser
open Token (skips skipsAll)

variable {g g' : Grammar} [Refines g g']

/-! ## Patterns -/

instance refines_rangeLimits (old : Bool) : (rangeLimits old).Refines (rangeLimits old) := by
  have hclosed : (write (Token.operator "..=" .nowhere)).Refines _ := refines_write (by decide)
  unfold rangeLimits
  infer_instance

instance refines_alternatives : g.alternatives.Refines g'.alternatives := by
  unfold alternatives
  infer_instance

instance refines_fieldIndex : fieldIndex.Refines fieldIndex := by
  unfold fieldIndex
  refine .andThen fun start => .andThen fun ts => ?_
  split
  next text span _ =>
    have hnumber : (write [.literal (toString (Literal.intParts text).1) span]).Refines _ :=
      refines_write (Token.skipsOf_number _)
    infer_instance
  · infer_instance

instance refines_member : member.Refines member := by
  unfold member
  infer_instance

instance refines_constBlock : g.constBlock.Refines g'.constBlock := by
  unfold constBlock
  infer_instance

instance refines_patternBound : g.patternBound.Refines g'.patternBound := by
  unfold patternBound
  infer_instance

instance refines_rangePattern : g.rangePattern.Refines g'.rangePattern := by
  unfold rangePattern
  infer_instance

instance refines_openPattern : g.openPattern.Refines g'.openPattern := by
  unfold openPattern
  infer_instance

instance refines_fieldPattern : g.fieldPattern.Refines g'.fieldPattern := by
  unfold fieldPattern
  infer_instance

instance refines_fieldPatterns : g.fieldPatterns.Refines g'.fieldPatterns := by
  unfold fieldPatterns
  infer_instance

instance refines_pathPattern : g.pathPattern.Refines g'.pathPattern := by
  unfold pathPattern
  infer_instance

instance refines_namePattern : g.namePattern.Refines g'.namePattern := by
  unfold namePattern
  infer_instance

instance refines_literalPattern : g.literalPattern.Refines g'.literalPattern := by
  unfold literalPattern
  infer_instance

instance refines_elementPattern : g.elementPattern.Refines g'.elementPattern := by
  unfold elementPattern
  refine .andThen fun form => ?_
  split <;> infer_instance

instance refines_patternForm : g.patternForm.Refines g'.patternForm := by
  unfold patternForm
  infer_instance

/-! ## Expressions -/

instance refines_body : g.body.Refines g'.body := by
  unfold body
  infer_instance

instance refines_label? : label?.Refines label? := by
  unfold label?
  infer_instance

instance refines_rightOperand (structs : Bool) (precedence : Nat) :
    (g.rightOperand structs precedence).Refines (g'.rightOperand structs precedence) := by
  unfold rightOperand
  infer_instance

instance refines_rangeRest (structs : Bool) :
    (g.rangeRest structs).Refines (g'.rangeRest structs) := by
  unfold rangeRest
  infer_instance

instance refines_afterCast : afterCast.Refines afterCast := by
  unfold afterCast
  infer_instance

instance refines_operatorStep (structs : Bool) (base : Nat) (left : ExprForm) :
    (g.operatorStep structs base left).Refines (g'.operatorStep structs base left) := by
  unfold operatorStep
  refine .andThen fun ts => ?_
  split
  · infer_instance
  split <;> infer_instance

instance refines_operatorsForm (left : ExprForm) (structs : Bool) (base : Nat) :
    (g.operatorsForm left structs base).Refines (g'.operatorsForm left structs base) := by
  unfold operatorsForm
  infer_instance

/-- The positions of fields count nothing, nor do the points between them. -/
theorem skipsAll_positions (parts : List String) (span : Span) :
    skipsAll ((parts.map fun part =>
      [Token.literal (toString (Literal.intParts part).1) span]).intersperse [.mark '.']).flatten =
      0 := by
  have hpoint : (Token.mark '.').skips = 0 := by decide
  induction parts with
  | nil => rfl
  | cons part parts ih =>
    have hpart : (Token.literal (toString (Literal.intParts part).1) span).skips = 0 :=
      Token.skipsOf_number _
    cases parts with
    | nil => simpa using hpart
    | cons next parts =>
      simp only [List.map_cons, List.intersperse_cons_cons, List.flatten_cons,
        Token.skipsAll_append, Token.skipsAll_cons, Token.skipsAll_nil, hpart, hpoint,
        Nat.zero_add] at ih ⊢
      exact ih

instance refines_fieldIndices (text : String) (span : Span) :
    (fieldIndices text span).Refines (fieldIndices text span) := by
  have hpoint : (write [.mark '.']).Refines _ := refines_write (by decide)
  have hnumbers : ∀ parts : List String, (write ((parts.map fun part =>
      [.literal (toString (Literal.intParts part).1) span]).intersperse
        [.mark '.']).flatten).Refines _ :=
    fun parts => refines_write (skipsAll_positions parts span)
  unfold fieldIndices
  infer_instance

instance refines_memberAccess : g.memberAccess.Refines g'.memberAccess := by
  unfold memberAccess
  infer_instance

instance refines_trailer (e : ExprForm) : (g.trailer e).Refines (g'.trailer e) := by
  unfold trailer
  refine .andThen fun ts => ?_
  split
  · infer_instance
  split
  · refine .andThen fun _ => .andThen fun ts => ?_
    split <;> infer_instance
  · infer_instance

instance refines_trailers (e : ExprForm) : (g.trailers e).Refines (g'.trailers e) := by
  unfold trailers
  infer_instance

instance refines_closure (structs : Bool) : (g.closure structs).Refines (g'.closure structs) := by
  unfold closure
  infer_instance

instance refines_fieldValue : g.fieldValue.Refines g'.fieldValue := by
  unfold fieldValue
  infer_instance

instance refines_fieldValues : g.fieldValues.Refines g'.fieldValues := by
  unfold fieldValues
  infer_instance

instance refines_pathExpression (structs : Bool) :
    (g.pathExpression structs).Refines (g'.pathExpression structs) := by
  unfold pathExpression
  infer_instance

instance refines_arrayItems : g.arrayItems.Refines g'.arrayItems := by
  unfold arrayItems
  infer_instance

instance refines_ifExpression : g.ifExpression.Refines g'.ifExpression := by
  unfold ifExpression
  infer_instance

instance refines_loopExpression : g.loopExpression.Refines g'.loopExpression := by
  unfold loopExpression
  infer_instance

instance refines_blockExpression : g.blockExpression.Refines g'.blockExpression := by
  unfold blockExpression
  infer_instance

instance refines_labelled : g.labelled.Refines g'.labelled := by
  unfold labelled
  infer_instance

instance refines_breakExpression (structs : Bool) :
    (g.breakExpression structs).Refines (g'.breakExpression structs) := by
  unfold breakExpression
  infer_instance

instance refines_jump (s : String) : (g.jump s).Refines (g'.jump s) := by
  unfold jump
  infer_instance

instance refines_letExpression (structs : Bool) :
    (g.letExpression structs).Refines (g'.letExpression structs) := by
  unfold letExpression
  infer_instance

instance refines_builtin : builtin.Refines builtin := by
  unfold builtin
  infer_instance

instance refines_arm : g.arm.Refines g'.arm := by
  unfold arm
  infer_instance

instance refines_matchExpression : g.matchExpression.Refines g'.matchExpression := by
  unfold matchExpression
  infer_instance

instance refines_blockLike? : g.blockLike?.Refines g'.blockLike? := by
  unfold blockLike?
  infer_instance

instance refines_asyncBlock : g.asyncBlock.Refines g'.asyncBlock := by
  unfold asyncBlock
  infer_instance

instance refines_jump? (structs : Bool) : (g.jump? structs).Refines (g'.jump? structs) := by
  unfold jump?
  infer_instance

instance refines_atom (structs : Bool) : (g.atom structs).Refines (g'.atom structs) := by
  unfold atom
  infer_instance

instance refines_operandForm (structs : Bool) :
    (g.operandForm structs).Refines (g'.operandForm structs) := by
  unfold operandForm
  dsimp only
  refine .andThen fun marked => .andThen fun ts => ?_
  split
  · infer_instance
  refine .andThen fun found => ?_

  split <;> infer_instance

instance refines_exprForm (structs : Bool) :
    (g.exprForm structs).Refines (g'.exprForm structs) := by
  unfold exprForm
  infer_instance

instance refines_boundaryForm : g.boundaryForm.Refines g'.boundaryForm := by
  unfold boundaryForm
  infer_instance

end Graft.Grammar

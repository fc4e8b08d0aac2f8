import Graft.Proofs.Grammar.BlindType
import Graft.Proofs.Grammar.RefineExpression
import Mathlib.Data.List.Find

/-!
# Patterns and expressions apart from places and blanks
-/

set_option synthInstance.maxSize 200000

namespace Graft.Grammar

open Graft.Parser
open Spaced (unspaced)
open Token (Respaced IsOperator AreOperators joins)

variable {g g' : Grammar} [Blind g g'] {ts ts' : List Token}

/-! ## What is read -/

instance alike_restPattern : Alike PatternForm.rest .rest := ⟨rfl⟩
instance alike_otherPattern : Alike PatternForm.other .other := ⟨rfl⟩
instance alike_openRange (start start' : Position) :
    Alike (PatternForm.openRange start) (.openRange start') := ⟨rfl⟩

instance alike_anyPlain {p p' : Option PathForm} [h : Alike p p'] :
    Alike (p.any (·.plain)) (p'.any (·.plain)) :=
  ⟨by
    obtain ⟨rfl, rfl⟩ | ⟨p, p', rfl, rfl, hp⟩ := h.option
    · rfl
    · exact (alike_plain (h := hp)).eq⟩

instance blind_operators {left : ExprForm} {structs : Bool} {base base' : Nat}
    [h : Alike base base'] :
    (g.operators left structs base).Blind (g'.operators left structs base') := by
  obtain rfl := h.eq_of_spaceless
  infer_instance

/-! ## Tests on the tokens ahead -/

section Tests

theorem isOperator_of_mem {entry : String × Nat} (h : entry ∈ Precedence.operators) :
    IsOperator entry.1 := by
  have hall : ∀ entry ∈ Precedence.operators,
      ∀ p ∈ entry.1.toList.zip entry.1.toList.tail, joins p.1 p.2 = true := by decide
  exact ⟨hall entry h⟩

theorem operator?_respaced (h : Respaced ts ts') :
    Precedence.operator? ts = Precedence.operator? ts' := by
  have hlook : ∀ entry ∈ Precedence.operators, Look.op entry.1 ts = Look.op entry.1 ts' :=
    fun _ hmem => Look.go_respaced (isOperator_of_mem hmem).joined h
  exact List.find?_congr hlook

instance alike_next [h : Respaced ts ts'] : Alike (Precedence.next ts) (Precedence.next ts') := by
  unfold Precedence.next
  rw [operator?_respaced h]
  split <;> infer_instance

variable [Respaced ts ts']

instance alike_startsExpression : Alike (startsExpression ts) (startsExpression ts') := by
  unfold startsExpression
  infer_instance

instance alike_endsRange (structs : Bool) :
    Alike (endsRange structs ts) (endsRange structs ts') := by
  unfold endsRange
  infer_instance

instance alike_startsClosure : Alike (startsClosure ts) (startsClosure ts') := by
  unfold startsClosure
  infer_instance

end Tests

instance blind_rangeLimits (old : Bool) : (rangeLimits old).Blind (rangeLimits old) := by
  unfold rangeLimits
  infer_instance

instance blind_alternatives : g.alternatives.Blind g'.alternatives := by
  unfold alternatives
  infer_instance

instance blind_fieldIndex : fieldIndex.Blind fieldIndex := by
  refine .seq fun start start' _ => .looking fun ts ts' hts => ?_
  cases hts <;> dsimp only <;> infer_instance

instance blind_member : member.Blind member := by
  unfold member
  infer_instance

instance blind_constBlock : g.constBlock.Blind g'.constBlock := by
  unfold constBlock
  infer_instance

instance blind_patternBound : g.patternBound.Blind g'.patternBound := by
  unfold patternBound
  infer_instance

instance blind_rangePattern : g.rangePattern.Blind g'.rangePattern := by
  unfold rangePattern
  infer_instance

instance blind_openPattern : g.openPattern.Blind g'.openPattern := by
  unfold openPattern
  infer_instance

instance blind_fieldPattern : g.fieldPattern.Blind g'.fieldPattern := by
  unfold fieldPattern
  infer_instance

instance blind_fieldPatterns : g.fieldPatterns.Blind g'.fieldPatterns := by
  unfold fieldPatterns
  infer_instance

instance blind_pathPattern : g.pathPattern.Blind g'.pathPattern := by
  unfold pathPattern
  infer_instance

instance blind_namePattern : g.namePattern.Blind g'.namePattern := by
  unfold namePattern
  infer_instance

instance blind_literalPattern : g.literalPattern.Blind g'.literalPattern := by
  unfold literalPattern
  infer_instance

instance blind_elementPattern : g.elementPattern.Blind g'.elementPattern := by
  refine .seq fun form form' h => ?_
  cases form <;> cases form' <;> first | cases h.eq; done | dsimp only; infer_instance

instance blind_patternForm : g.patternForm.Blind g'.patternForm := by
  unfold patternForm
  infer_instance

instance blind_body : g.body.Blind g'.body := by
  unfold body
  infer_instance

instance blind_label? : label?.Blind label? := by
  unfold label?
  infer_instance

instance blind_rightOperand (structs : Bool) (precedence : Nat) :
    (g.rightOperand structs precedence).Blind (g'.rightOperand structs precedence) := by
  unfold rightOperand
  infer_instance

instance blind_rangeRest (structs : Bool) : (g.rangeRest structs).Blind (g'.rangeRest structs) := by
  unfold rangeRest
  infer_instance

instance blind_afterCast : afterCast.Blind afterCast := by
  unfold afterCast
  infer_instance

instance blind_operatorStep (structs : Bool) (base : Nat) (left : ExprForm) :
    (g.operatorStep structs base left).Blind (g'.operatorStep structs base left) := by
  refine .looking fun ts ts' hts => .orElse ?_
  rw [← operator?_respaced hts]
  split
  next s precedence hfound =>
    have hop : IsOperator s := isOperator_of_mem (List.mem_of_find?_eq_some hfound)
    infer_instance
  next => infer_instance

instance blind_operatorsForm (left : ExprForm) (structs : Bool) (base : Nat) :
    (g.operatorsForm left structs base).Blind (g'.operatorsForm left structs base) := by
  unfold operatorsForm
  infer_instance

instance alike_fieldIndices (parts : List String) (span span' : Span) :
    Alike ((parts.map fun part =>
        [Token.literal (toString (Literal.intParts part).1) span]).intersperse [.mark '.']).flatten
      ((parts.map fun part =>
        [Token.literal (toString (Literal.intParts part).1) span']).intersperse
          [.mark '.']).flatten where
  eq := by
    induction parts with
    | nil => rfl
    | cons part parts ih =>
      cases parts with
      | nil => rfl
      | cons next parts =>
        simp only [List.map_cons, List.intersperse_cons_cons, List.flatten_cons] at ih ⊢
        rw [unspaced_append, unspaced_append, unspaced_append, unspaced_append, ih]
        rfl

instance blind_fieldIndices (text : String) (span span' : Span) :
    (fieldIndices text span).Blind (fieldIndices text span') := by
  unfold fieldIndices
  infer_instance

instance blind_memberAccess : g.memberAccess.Blind g'.memberAccess := by
  unfold memberAccess
  infer_instance

instance blind_trailer (e : ExprForm) : (g.trailer e).Blind (g'.trailer e) := by
  refine .looking fun _ _ _ => .orElse (.ifSo (.step fun _ => .looking fun ts ts' hts => ?_))
  cases hts <;> dsimp only <;> infer_instance

instance blind_trailers (e : ExprForm) : (g.trailers e).Blind (g'.trailers e) := by
  unfold trailers
  infer_instance

instance blind_closure (structs : Bool) : (g.closure structs).Blind (g'.closure structs) := by
  unfold closure
  infer_instance

instance blind_fieldValue : g.fieldValue.Blind g'.fieldValue := by
  unfold fieldValue
  infer_instance

instance blind_fieldValues : g.fieldValues.Blind g'.fieldValues := by
  unfold fieldValues
  infer_instance

instance blind_pathExpression (structs : Bool) :
    (g.pathExpression structs).Blind (g'.pathExpression structs) := by
  unfold pathExpression
  infer_instance

instance blind_arrayItems : g.arrayItems.Blind g'.arrayItems := by
  unfold arrayItems
  infer_instance

instance blind_ifExpression : g.ifExpression.Blind g'.ifExpression := by
  unfold ifExpression
  infer_instance

instance blind_loopExpression : g.loopExpression.Blind g'.loopExpression := by
  unfold loopExpression
  infer_instance

instance blind_blockExpression : g.blockExpression.Blind g'.blockExpression := by
  unfold blockExpression
  infer_instance

instance blind_labelled : g.labelled.Blind g'.labelled := by
  unfold labelled
  infer_instance

instance blind_breakExpression (structs : Bool) :
    (g.breakExpression structs).Blind (g'.breakExpression structs) := by
  unfold breakExpression
  infer_instance

instance blind_jump (s : String) : (g.jump s).Blind (g'.jump s) := by
  unfold jump
  infer_instance

instance blind_letExpression (structs : Bool) :
    (g.letExpression structs).Blind (g'.letExpression structs) := by
  unfold letExpression
  infer_instance

instance blind_builtin : builtin.Blind builtin := by
  unfold builtin
  infer_instance

instance blind_arm : g.arm.Blind g'.arm := by
  unfold arm
  infer_instance

instance blind_matchExpression : g.matchExpression.Blind g'.matchExpression := by
  unfold matchExpression
  infer_instance

instance blind_blockLike? : g.blockLike?.Blind g'.blockLike? := by
  unfold blockLike?
  infer_instance

instance blind_asyncBlock : g.asyncBlock.Blind g'.asyncBlock := by
  unfold asyncBlock
  infer_instance

instance blind_jump? (structs : Bool) : (g.jump? structs).Blind (g'.jump? structs) := by
  unfold jump?
  infer_instance

instance blind_atom (structs : Bool) : (g.atom structs).Blind (g'.atom structs) := by
  unfold atom
  infer_instance

instance blind_operandForm (structs : Bool) :
    (g.operandForm structs).Blind (g'.operandForm structs) := by
  refine .step fun marked => .looking fun ts ts' hts => .orElse ?_
  refine @Blind.step _ _ _ _ _ _ _ _ _ (blind_forIn_of_mem _ fun sign hsign _ => ?_)
    fun (found, _) => ?_
  · have hop : IsOperator sign := AreOperators.isOperator sign hsign
    infer_instance
  · cases found <;> infer_instance

instance blind_exprForm (structs : Bool) : (g.exprForm structs).Blind (g'.exprForm structs) := by
  unfold exprForm
  infer_instance

instance blind_boundaryForm : g.boundaryForm.Blind g'.boundaryForm := by
  unfold boundaryForm
  infer_instance

end Graft.Grammar

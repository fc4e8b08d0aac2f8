import Graft.Proofs.Grammar.RefineExpression
import Graft.Proofs.Grammar.SteadyType

/-!
# Patterns and expressions before more tokens
-/

set_option synthInstance.maxSize 200000

namespace Graft.Grammar

open Graft.Parser

variable {more ts : List Token} {g : Grammar} [Refines g g] [Steady more g]

/-! ## Patterns -/

instance steady_rangeLimits (old : Bool) : (rangeLimits old).Steady more (rangeLimits old) := by
  have hclosed : (write (Token.operator "..=" .nowhere)).Refines _ := refines_write (by decide)
  unfold rangeLimits
  infer_instance

instance steady_alternatives : g.alternatives.Steady more g.alternatives := by
  unfold alternatives
  infer_instance

instance steady_fieldIndex : fieldIndex.Steady more fieldIndex := by
  refine .andThen fun start => .lookingOn (fun ts => ?_) fun e => ?_
  · split <;> infer_instance
  · obtain ⟨t, ts, hts⟩ := e.exists_cons
    rw [hts]
    cases t <;> dsimp only [List.cons_append] <;> infer_instance

instance steady_member : member.Steady more member := by
  unfold member
  infer_instance

instance steady_constBlock : g.constBlock.Steady more g.constBlock := by
  unfold constBlock
  infer_instance

instance steady_patternBound : g.patternBound.Steady more g.patternBound := by
  unfold patternBound
  infer_instance

instance steady_rangePattern : g.rangePattern.Steady more g.rangePattern := by
  unfold rangePattern
  infer_instance

instance steady_openPattern : g.openPattern.Steady more g.openPattern := by
  unfold openPattern
  infer_instance

instance steady_pathPattern : g.pathPattern.Steady more g.pathPattern := by
  unfold pathPattern
  infer_instance

instance steady_namePattern : g.namePattern.Steady more g.namePattern := by
  unfold namePattern
  infer_instance

instance steady_literalPattern : g.literalPattern.Steady more g.literalPattern := by
  unfold literalPattern
  infer_instance

instance steady_patternForm : g.patternForm.Steady more g.patternForm := by
  refine .looking refines_patternForm fun e => ?_
  have hpath := Look.kept_second e.tokens more Look.name fun us => Look.op "::" us ||
    Look.op "!" us || Look.braces us || Look.parens us || Look.op ".." us
  infer_instance

/-! ## Expressions -/

theorem operator?_before (h : HoldsEnd ts) (more : List Token) :
    Precedence.operator? (ts ++ more) = Precedence.operator? ts := by
  have hkept : ∀ s, Look.op s (ts ++ more) = Look.op s ts := fun s => (Look.kept_op s).eq
  unfold Precedence.operator?
  exact congrArg (List.find? · _) (funext fun (s, _) => hkept s)

theorem next_before (h : HoldsEnd ts) (more : List Token) :
    Precedence.next (ts ++ more) = Precedence.next ts := by
  have hassign : Look.opOnly "=" ["=>"] (ts ++ more) = Look.opOnly "=" ["=>"] ts :=
    (Look.kept_opOnly "=" ["=>"]).eq
  have hrange : Look.op ".." (ts ++ more) = Look.op ".." ts := (Look.kept_op "..").eq
  have hcast : Look.word "as" (ts ++ more) = Look.word "as" ts := (Look.kept_word "as").eq
  unfold Precedence.next
  rw [operator?_before h, hassign, hrange, hcast]

instance kept_startsExpression [HoldsEnd ts] :
    Kept (startsExpression ts) (startsExpression (ts ++ more)) := by
  unfold startsExpression
  infer_instance

instance kept_endsRange [HoldsEnd ts] (structs : Bool) :
    Kept (endsRange structs ts) (endsRange structs (ts ++ more)) := by
  unfold endsRange
  infer_instance

instance kept_startsClosure [HoldsEnd ts] :
    Kept (startsClosure ts) (startsClosure (ts ++ more)) := by
  have hparams := fun e : Ending => Look.kept_second e.tokens more (Look.op "<") fun us =>
    Look.lifetime us || Look.op ">" us
  have hbinder := Look.kept_second ts more (Look.word "for") fun us =>
    Look.op "<" us && (Look.lifetime (Look.second us) || Look.op ">" (Look.second us))
  have hconst := Look.kept_second ts more (Look.word "const") fun us => !Look.braces us
  have hasync := Look.kept_second ts more (Look.word "async") fun us =>
    Look.op "|" us || Look.word "move" us
  unfold startsClosure Look.third
  simp only [Bool.and_assoc]
  infer_instance

instance steady_body : g.body.Steady more g.body := by
  unfold body
  infer_instance

instance steady_label? : label?.Steady more label? := by
  unfold label?
  infer_instance

instance steady_rightOperand (structs : Bool) (precedence : Nat) :
    (g.rightOperand structs precedence).Steady more (g.rightOperand structs precedence) := by
  refine .andThen fun first => .behind (.iterating (fun right =>
    .looking inferInstance fun e => ?_) first)
  rw [next_before e.holdsEnd]
  infer_instance

instance steady_rangeRest (structs : Bool) :
    (g.rangeRest structs).Steady more (g.rangeRest structs) := by
  unfold rangeRest
  infer_instance

instance steady_afterCast : afterCast.Steady more afterCast := by
  refine .looking refines_afterCast fun e => .ifSo fun hpoint => ?_
  have hguard : Look.Guard (Look.opOnly "." [".."] e.tokens) e.tokens := by
    have hmark : Look.Guard (Look.op "." e.tokens) e.tokens := Look.guard_op (by decide)
    unfold Look.opOnly
    infer_instance
  obtain ⟨hend, hsecond⟩ := hguard.second hpoint more
  have hcall := Look.kept_second (Look.second e.tokens) more Look.name fun us =>
    Look.parens us || Look.op "::" us
  unfold Look.third
  rw [hsecond]
  infer_instance

instance steady_operatorStep (structs : Bool) (base : Nat) (left : ExprForm) :
    (g.operatorStep structs base left).Steady more (g.operatorStep structs base left) := by
  refine .looking (refines_operatorStep structs base left) fun e => ?_
  rw [operator?_before e.holdsEnd]
  split
  · infer_instance
  split <;> infer_instance

instance steady_operatorsForm (left : ExprForm) (structs : Bool) (base : Nat) :
    (g.operatorsForm left structs base).Steady more (g.operatorsForm left structs base) := by
  unfold operatorsForm
  infer_instance

instance steady_fieldIndices (text : String) (span : Span) :
    (fieldIndices text span).Steady more (fieldIndices text span) := by
  unfold fieldIndices
  infer_instance

instance steady_memberAccess : g.memberAccess.Steady more g.memberAccess := by
  unfold memberAccess
  infer_instance

instance steady_trailer (e : ExprForm) : (g.trailer e).Steady more (g.trailer e) := by
  refine .looking (refines_trailer e) fun ahead => .orElse (.ifSo fun _ => .andThen fun _ =>
    .lookingOn (fun ts => ?_) fun ahead => ?_)
  · split <;> infer_instance
  · obtain ⟨t, ts, hts⟩ := ahead.exists_cons
    rw [hts]
    cases t <;> dsimp only [List.cons_append] <;> infer_instance

instance steady_trailers (e : ExprForm) : (g.trailers e).Steady more (g.trailers e) := by
  unfold trailers
  infer_instance

instance steady_closure (structs : Bool) : (g.closure structs).Steady more (g.closure structs) := by
  unfold closure
  infer_instance

instance steady_pathExpression (structs : Bool) :
    (g.pathExpression structs).Steady more (g.pathExpression structs) := by
  unfold pathExpression
  infer_instance

instance steady_ifExpression : g.ifExpression.Steady more g.ifExpression := by
  unfold ifExpression
  infer_instance

instance steady_loopExpression : g.loopExpression.Steady more g.loopExpression := by
  unfold loopExpression
  infer_instance

instance steady_blockExpression : g.blockExpression.Steady more g.blockExpression := by
  unfold blockExpression
  infer_instance

instance steady_labelled : g.labelled.Steady more g.labelled := by
  unfold labelled
  infer_instance

instance steady_breakExpression (structs : Bool) :
    (g.breakExpression structs).Steady more (g.breakExpression structs) := by
  unfold breakExpression
  infer_instance

instance steady_jump (s : String) : (g.jump s).Steady more (g.jump s) := by
  unfold jump
  infer_instance

instance steady_letExpression (structs : Bool) :
    (g.letExpression structs).Steady more (g.letExpression structs) := by
  unfold letExpression
  infer_instance

instance steady_builtin : builtin.Steady more builtin := by
  unfold builtin
  infer_instance

instance steady_matchExpression : g.matchExpression.Steady more g.matchExpression := by
  unfold matchExpression
  infer_instance

instance steady_blockLike? : g.blockLike?.Steady more g.blockLike? := by
  unfold blockLike?
  infer_instance

instance steady_asyncBlock : g.asyncBlock.Steady more g.asyncBlock := by
  unfold asyncBlock
  infer_instance

instance steady_jump? (structs : Bool) : (g.jump? structs).Steady more (g.jump? structs) := by
  unfold jump?
  infer_instance

instance steady_atom (structs : Bool) : (g.atom structs).Steady more (g.atom structs) := by
  refine .looking (refines_atom structs) fun e => ?_
  have hmoved := fun e : Ending => Look.kept_second e.tokens more (Look.word "move") Look.braces
  have hasync := Look.kept_second e.tokens more (Look.word "async") fun us =>
    Look.braces us || (Look.word "move" us && Look.braces (Look.second us))
  have htry := Look.kept_second e.tokens more (Look.word "try") fun us =>
    Look.op "!" us || Look.op "::" us
  unfold Look.third
  infer_instance

instance steady_operandForm (structs : Bool) :
    (g.operandForm structs).Steady more (g.operandForm structs) := by
  refine .andThen fun marked => .lookingOn (fun ts => ?_) fun e => .ifElse (fun hmark => ?_) ?_
  · refine .orElse (.andThen fun (found, _) => ?_)
    cases found <;> infer_instance
  · obtain ⟨hend, hsecond⟩ := Look.guard_ampersand.second hmark more
    have hraw := Look.kept_second (Look.second e.tokens) more (Look.word "raw")
      (Look.oneOf ["mut", "const"])
    unfold Look.third
    rw [hsecond]
    infer_instance
  · refine .andThen fun (found, _) => ?_
    cases found <;> infer_instance

instance steady_exprForm (structs : Bool) :
    (g.exprForm structs).Steady more (g.exprForm structs) := by
  unfold exprForm
  infer_instance

end Graft.Grammar

import Graft.Proofs.Grammar.RefineType
import Graft.Proofs.Grammar.Steady

/-!
# Types before more tokens
-/

set_option synthInstance.maxSize 200000

namespace Graft.Grammar

open Graft.Parser

variable {more ts : List Token} {g : Grammar} [Refines g g] [Steady more g]

/-! ## Paths -/

instance steady_block : g.block.Steady more g.block := by
  unfold block
  infer_instance

instance steady_macroArguments : macroArguments.Steady more macroArguments where
  suffix h := (Refines.keeps macroArguments h).suffix
  ahead {s c d b} h _ := by
    obtain ⟨rest, written, leftover⟩ := c
    rcases rest with _ | ⟨_ | _ | _ | ⟨dl, inner, span⟩, ts⟩
    any_goals cases h
    rfl

instance steady_constArgument : g.constArgument.Steady more g.constArgument := by
  unfold constArgument
  infer_instance

instance steady_argumentBounds : g.argumentBounds.Steady more g.argumentBounds := by
  unfold argumentBounds
  infer_instance

instance kept_lifetimeAlone [HoldsEnd ts] :
    Kept (Look.lifetime ts && !Look.op "+" (Look.second ts))
      (Look.lifetime (ts ++ more) && !Look.op "+" (Look.second (ts ++ more))) :=
  Look.kept_second ts more Look.lifetime fun us => !Look.op "+" us

instance steady_genericArgument : g.genericArgument.Steady more g.genericArgument := by
  refine .looking refines_genericArgument fun e => .orElse (.orElse (.andThen fun t => ?_))
  split <;> infer_instance

instance steady_argument? : g.argument?.Steady more g.argument? := by
  unfold argument?
  infer_instance

instance steady_genericArguments : g.genericArguments.Steady more g.genericArguments := by
  unfold genericArguments
  infer_instance

instance steady_segmentRest (inExpr : Bool) :
    (g.segmentRest inExpr).Steady more (g.segmentRest inExpr) := by
  unfold segmentRest
  infer_instance

instance steady_pathSegment (inExpr : Bool) :
    (g.pathSegment inExpr).Steady more (g.pathSegment inExpr) := by
  unfold pathSegment
  infer_instance

instance kept_nextSegment [HoldsEnd ts] :
    Kept (Look.op "::" ts && !Look.parens (Look.third ts))
      (Look.op "::" (ts ++ more) && !Look.parens (Look.third (ts ++ more))) :=
  Look.kept_behindColons ts more fun us => !Look.parens us

instance steady_nextSegment? (inExpr : Bool) :
    (g.nextSegment? inExpr).Steady more (g.nextSegment? inExpr) := by
  unfold nextSegment?
  infer_instance

instance steady_morePath (inExpr : Bool) (first : PathForm) :
    (g.morePath inExpr first).Steady more (g.morePath inExpr first) := by
  unfold morePath
  refine .andThen fun found => ?_
  split <;> infer_instance

instance steady_path (inExpr : Bool) :
    (g.path inExpr).Steady more (g.path inExpr) := by
  unfold path
  infer_instance

instance steady_qualifiedPath (inExpr : Bool) :
    (g.qualifiedPath inExpr).Steady more (g.qualifiedPath inExpr) := by
  unfold qualifiedPath
  infer_instance

instance steady_plainPath :
    plainPath.Steady more plainPath := by
  unfold plainPath
  infer_instance

instance steady_outerAttribute :
    g.outerAttribute.Steady more g.outerAttribute := by
  unfold outerAttribute
  infer_instance

instance steady_outerAttributes :
    g.outerAttributes.Steady more g.outerAttributes := by
  unfold outerAttributes
  infer_instance

/-! ## Bounds, binders and generic parameters -/

instance kept_startsBound [HoldsEnd ts] (const : Bool) :
    Kept (startsBound const ts) (startsBound const (ts ++ more)) := by
  unfold startsBound
  infer_instance

/-- How much `p` reads is the same before more tokens. -/
theorem steady_measured {p p' : Parser PUnit} [p.Refines p] [p.Steady more p']
    (test : Nat → Nat → Bool) (htest : ∀ m n k, test (m + k) (n + k) = test m n) :
    Parser.Steady more
      (rest >>= fun ts => p >>= fun _ => rest >>= fun us => pure (test us.length ts.length))
      (rest >>= fun ts => p' >>= fun _ => rest >>= fun us => pure (test us.length ts.length)) where
  suffix {s c d b} h := by
    have hp : p s c = .ok (⟨⟩, d) := by
      obtain ⟨a, m, hp, hd⟩ := bind_eq_ok
        (show (p >>= fun _ => rest >>= fun us => pure (test us.length c.rest.length)) s c = _ from h)
      cases hd
      exact hp
    exact Steady.suffix more p' hp
  ahead {s c d b} h hend := by
    obtain ⟨a, m, hp, hd⟩ := bind_eq_ok
      (show (p >>= fun _ => rest >>= fun us => pure (test us.length c.rest.length)) s c = _ from h)
    cases hd
    have hbefore : p' s (c.before more) = .ok (a, d.before more) := Steady.before p' hp hend
    show (p' >>= fun _ => rest >>= fun us =>
      pure (test us.length (c.before more).rest.length)) s (c.before more) = _
    rw [bind_of_ok hbefore]
    show Except.ok (test (d.before more).rest.length (c.before more).rest.length, d.before more) = _
    rw [length_before, length_before, htest]

instance steady_readsNothing {p p' : Parser PUnit} [p.Refines p] [p.Steady more p'] :
    (readsNothing p).Steady more (readsNothing p') :=
  steady_measured (fun m n => decide (m = n)) fun m n k => by simp

instance steady_colonBounds {p p' : Parser PUnit} [p.Refines p] [p.Steady more p'] :
    (colonBounds p).Steady more (colonBounds p') := by
  unfold colonBounds
  infer_instance

instance steady_lifetimeParam :
    lifetimeParam.Steady more lifetimeParam := by
  unfold lifetimeParam
  infer_instance

instance steady_typeParamBounds :
    g.typeParamBounds.Steady more g.typeParamBounds := by
  unfold typeParamBounds
  infer_instance

instance steady_typeParamRest :
    g.typeParamRest.Steady more g.typeParamRest := by
  unfold typeParamRest
  infer_instance

instance steady_constParam :
    g.constParam.Steady more g.constParam := by
  unfold constParam
  infer_instance

instance steady_binderParam :
    g.binderParam.Steady more g.binderParam := by
  unfold binderParam
  infer_instance

instance steady_binder :
    g.binder.Steady more g.binder := by
  unfold binder
  infer_instance

instance steady_binder? :
    g.binder?.Steady more g.binder? := by
  unfold binder?
  infer_instance

instance steady_returnType (plus : Bool) :
    (g.returnType plus).Steady more (g.returnType plus) := by
  unfold returnType
  infer_instance

instance steady_callableArguments :
    g.callableArguments.Steady more g.callableArguments := by
  unfold callableArguments
  infer_instance

instance steady_traitPath : g.traitPath.Steady more g.traitPath :=
  -- The path without its empty arguments is written again, but nothing is read twice.
  .andThen fun _ => .lookingOn (fun _ => inferInstance) fun _ => inferInstance

instance steady_traitBound (const : Bool) :
    (g.traitBound const).Steady more (g.traitBound const) := by
  unfold traitBound
  infer_instance

instance steady_captureList : captureList.Steady more captureList := by
  unfold captureList
  infer_instance

instance steady_boundForm (capture const : Bool) :
    (g.boundForm capture const).Steady more (g.boundForm capture const) := by
  unfold boundForm
  infer_instance

instance steady_boundSum (plus capture const : Bool) :
    (g.boundSum plus capture const).Steady more (g.boundSum plus capture const) := by
  unfold boundSum
  infer_instance

instance steady_moreBounds : g.moreBounds.Steady more g.moreBounds :=
  steady_measured (fun m n => decide (m < n)) fun m n k => by simp

instance kept_startsParams [HoldsEnd ts] : Kept (startsParams ts) (startsParams (ts ++ more)) := by
  have hnamed := fun e : Ending => Look.kept_second e.tokens more
    (fun us => Look.lifetime us || Look.name us) fun us => Look.op ">" us || Look.op "," us ||
      Look.opOnly ":" ["::"] us || Look.op "=" us
  exact Look.kept_second ts more (Look.op "<") fun us => Look.op ">" us || Look.op "#" us ||
    ((Look.lifetime us || Look.name us) && (Look.op ">" (Look.second us) ||
      Look.op "," (Look.second us) || Look.opOnly ":" ["::"] (Look.second us) ||
      Look.op "=" (Look.second us))) || Look.word "const" us

instance steady_genericParam : g.genericParam.Steady more g.genericParam := by
  unfold genericParam
  infer_instance

instance steady_genericParams : g.genericParams.Steady more g.genericParams := by
  unfold genericParams
  infer_instance

instance kept_endsCondition [HoldsEnd ts] :
    Kept (endsCondition ts) (endsCondition (ts ++ more)) := by
  unfold endsCondition
  infer_instance

instance steady_condition : g.condition.Steady more g.condition := by
  unfold condition
  infer_instance

instance steady_conditions : g.conditions.Steady more g.conditions := by
  unfold conditions
  infer_instance

instance steady_whereClause : g.whereClause.Steady more g.whereClause :=
  .andThen fun _ => .andThen fun _ =>
    .lookingOn (fun _ => inferInstance) fun _ => inferInstance

instance steady_whereClause? : g.whereClause?.Steady more g.whereClause? := by
  unfold whereClause?
  infer_instance

/-! ## Types -/

instance kept_startsPath [HoldsEnd ts] :
    Kept (startsPath ts) (startsPath (ts ++ more)) := by
  unfold startsPath
  infer_instance

instance kept_startsFunction [HoldsEnd ts] :
    Kept (startsFunction ts) (startsFunction (ts ++ more)) := by
  unfold startsFunction
  infer_instance

instance steady_convention? : convention?.Steady more convention? := by
  refine .andThen fun found => .ifSo fun _ => .lookingOn (fun ts => ?_) fun e => ?_
  · split <;> infer_instance
  · obtain ⟨t, ts, hts⟩ := e.exists_cons
    rw [hts]
    cases t <;> dsimp only [List.cons_append] <;> infer_instance

instance steady_functionType : g.functionType.Steady more g.functionType := by
  unfold functionType
  infer_instance

instance steady_traitSum (start : Position) (plus : Bool) :
    (g.traitSum start plus).Steady more (g.traitSum start plus) := by
  unfold traitSum
  infer_instance

instance steady_parenType_sum : (parenType.sum g).Steady more (parenType.sum g) := by
  unfold parenType.sum
  infer_instance

instance steady_parenType (plus : Bool) :
    (g.parenType plus).Steady more (g.parenType plus) := by
  refine .andThen fun content => ?_
  cases content <;> infer_instance

instance steady_pathType (plus bound : Bool) :
    (g.pathType plus bound).Steady more (g.pathType plus bound) := by
  refine .andThen fun p => ?_
  cases p <;> infer_instance

instance steady_boundType (plus : Bool) : (g.boundType plus).Steady more (g.boundType plus) := by
  unfold boundType
  infer_instance

instance steady_bracketType : g.bracketType.Steady more g.bracketType := by
  unfold bracketType
  infer_instance

instance steady_pointerType : g.pointerType.Steady more g.pointerType := by
  unfold pointerType
  infer_instance

instance steady_referenceType : g.referenceType.Steady more g.referenceType := by
  unfold referenceType
  infer_instance

instance steady_implType (plus : Bool) : (g.implType plus).Steady more (g.implType plus) := by
  unfold implType
  infer_instance

instance steady_typeShape (plus : Bool) : (g.typeShape plus).Steady more (g.typeShape plus) := by
  unfold typeShape
  infer_instance

instance steady_typeTree (plus : Bool) : (g.typeTree plus).Steady more (g.typeTree plus) := by
  unfold typeTree
  infer_instance

end Graft.Grammar

import Graft.Proofs.Grammar.Blind
import Graft.Proofs.Grammar.RefineType

/-!
# Types apart from places and blanks
-/

set_option synthInstance.maxSize 200000

namespace Graft

open Spaced (unspaced)
open Token (Respaced)

variable {ts ts' : List Token}

namespace Grammar

open Graft.Parser

/-! ## What is read -/

instance : Spaced PathForm := ⟨fun p => { p with bare := unspaced p.bare }⟩
instance : Spaced Argument := ⟨fun a => ⟨a.isLifetime, unspaced a.tokens, unspaced a.comma⟩⟩

/-- What stands between the parentheses of a type, without places and blanks. -/
def ParenContent.unspaced : ParenContent → ParenContent
  | .tuple => .tuple
  | .bounds t => .bounds (Spaced.unspaced t)
  | .bound => .bound
  | .type t => .type (Spaced.unspaced t)

instance : Spaced ParenContent := ⟨ParenContent.unspaced⟩

variable {g g' : Grammar} [Blind g g'] {p p' : PathForm} {t t' : TypeTree}

instance alike_pathForm {single single' plain plain' lastBare lastBare' : Bool}
    {bare bare' : List Token} [h₁ : Alike single single'] [h₂ : Alike plain plain']
    [h₃ : Alike lastBare lastBare'] [h₄ : Alike bare bare'] :
    Alike (PathForm.mk single plain lastBare bare) (.mk single' plain' lastBare' bare') := by
  obtain rfl := h₁.eq_of_spaceless
  obtain rfl := h₂.eq_of_spaceless
  obtain rfl := h₃.eq_of_spaceless
  exact ⟨congrArg (PathForm.mk single plain lastBare) h₄.eq⟩

instance alike_single [h : Alike p p'] : Alike p.single p'.single :=
  ⟨(congrArg PathForm.single h.eq : (unspaced p).single = (unspaced p').single)⟩
instance alike_plain [h : Alike p p'] : Alike p.plain p'.plain :=
  ⟨(congrArg PathForm.plain h.eq : (unspaced p).plain = (unspaced p').plain)⟩
instance alike_lastBare [h : Alike p p'] : Alike p.lastBare p'.lastBare :=
  ⟨(congrArg PathForm.lastBare h.eq : (unspaced p).lastBare = (unspaced p').lastBare)⟩
instance alike_bare [h : Alike p p'] : Alike p.bare p'.bare := ⟨congrArg PathForm.bare h.eq⟩

instance alike_argument {isLifetime isLifetime' : Bool} {tokens tokens' comma comma' : List Token}
    [h₁ : Alike isLifetime isLifetime'] [h₂ : Alike tokens tokens'] [h₃ : Alike comma comma'] :
    Alike (Argument.mk isLifetime tokens comma) (.mk isLifetime' tokens' comma') := by
  obtain rfl := h₁.eq_of_spaceless
  exact ⟨congrArg₂ (Argument.mk isLifetime) h₂.eq h₃.eq⟩

instance alike_typeTree {shape shape' : TypeShape TypeTree} [h : Alike ts ts']
    [h' : Alike shape shape'] : Alike (TypeTree.mk ts shape) (.mk ts' shape') :=
  ⟨congrArg₂ TypeTree.mk ((unspacedAll_eq ts).trans (h.eq.trans (unspacedAll_eq ts').symm)) h'.eq⟩

instance alike_paren [h : Alike t t'] : Alike (TypeShape.paren t) (.paren t') :=
  ⟨congrArg TypeShape.paren h.eq⟩
instance alike_pointer [h : Alike t t'] : Alike (TypeShape.pointer t) (.pointer t') :=
  ⟨congrArg TypeShape.pointer h.eq⟩

theorem unspacedList_eq (ts : List TypeTree) : TypeTree.unspacedList ts = unspaced ts := by
  induction ts with
  | nil => rfl
  | cons t ts ih => exact congrArg (t.unspaced :: ·) ih

theorem unspacedOption_eq (t : Option TypeTree) : TypeTree.unspacedOption t = unspaced t := by
  cases t <;> rfl

instance alike_function {abi abi' : Option String} {params params' : List TypeTree}
    {variadic variadic' : Bool} {result result' : Option TypeTree} [h₁ : Alike abi abi']
    [h₂ : Alike params params'] [h₃ : Alike variadic variadic'] [h₄ : Alike result result'] :
    Alike (TypeShape.function abi params variadic result)
      (.function abi' params' variadic' result') := by
  obtain rfl := h₁.eq_of_spaceless
  obtain rfl := h₃.eq_of_spaceless
  have hparams : TypeTree.unspacedList params = TypeTree.unspacedList params' := by
    rw [unspacedList_eq, unspacedList_eq, h₂.eq]
  have hresult : TypeTree.unspacedOption result = TypeTree.unspacedOption result' := by
    rw [unspacedOption_eq, unspacedOption_eq, h₄.eq]
  exact ⟨congrArg₂ (TypeShape.function abi · variadic ·) hparams hresult⟩

instance alike_path (qualified : Bool) {single single' : Bool} [h : Alike single single'] :
    Alike (TypeShape.path qualified single : TypeShape TypeTree) (.path qualified single') :=
  ⟨congrArg (TypeShape.path qualified) h.eq⟩
instance alike_bareBounds {single single' : Bool} [h : Alike single single'] :
    Alike (TypeShape.bareBounds single : TypeShape TypeTree) (.bareBounds single') :=
  ⟨congrArg TypeShape.bareBounds h.eq⟩

instance alike_bounds [h : Alike t t'] : Alike (ParenContent.bounds t) (.bounds t') :=
  ⟨congrArg ParenContent.bounds h.eq⟩
instance alike_type [h : Alike t t'] : Alike (ParenContent.type t) (.type t') :=
  ⟨congrArg ParenContent.type h.eq⟩

/-! ## Tests on the tokens ahead -/

section Tests

variable [Respaced ts ts']

instance alike_startsBound (const : Bool) :
    Alike (startsBound const ts) (startsBound const ts') := by
  unfold startsBound
  infer_instance

instance alike_startsParams : Alike (startsParams ts) (startsParams ts') := by
  unfold startsParams
  infer_instance

instance alike_endsCondition : Alike (endsCondition ts) (endsCondition ts') := by
  unfold endsCondition
  infer_instance

instance alike_startsVariadic : Alike (startsVariadic ts) (startsVariadic ts') := by
  unfold startsVariadic
  infer_instance

instance alike_startsPath : Alike (startsPath ts) (startsPath ts') := by
  unfold startsPath
  infer_instance

instance alike_startsFunction : Alike (startsFunction ts) (startsFunction ts') := by
  unfold startsFunction
  infer_instance

theorem startsSum_unspaced (t : TypeTree) : startsSum t.unspaced = startsSum t := by
  rcases t with ⟨ts, _ | _ | _ | ⟨_ | _, _⟩ | ⟨_ | _⟩ | _⟩ <;> rfl

instance alike_startsSum [h : Alike t t'] : Alike (startsSum t) (startsSum t') :=
  ⟨(startsSum_unspaced t).symm.trans ((congrArg startsSum h.eq).trans (startsSum_unspaced t'))⟩

end Tests

/-! ## Paths -/

instance blind_block : g.block.Blind g'.block := by
  unfold block
  infer_instance

instance blind_macroArguments : macroArguments.Blind macroArguments := by
  refine .looking fun ts ts' hts => ?_
  cases hts <;> dsimp only <;> infer_instance

instance blind_constArgument : g.constArgument.Blind g'.constArgument := by
  unfold constArgument
  infer_instance

instance blind_argumentBounds : g.argumentBounds.Blind g'.argumentBounds := by
  unfold argumentBounds
  infer_instance

theorem shape_eq_path {q single : Bool} (h : Alike t t') (ht : t.shape = .path q single) :
    t'.shape = .path q single := by
  obtain ⟨ts, shape⟩ := t
  obtain ⟨ts', shape'⟩ := t'
  obtain rfl : shape = .path q single := ht
  have hshape : TypeShape.path q single = TypeTree.unspacedShape shape' :=
    congrArg TypeTree.shape h.eq
  cases shape' <;> cases hshape
  rfl

instance blind_genericArgument : g.genericArgument.Blind g'.genericArgument := by
  refine .looking fun ts ts' hts => .orElse (.orElse (.seq fun t t' ht => ?_))
  by_cases hsingle : t.shape = .path false true
  · rw [hsingle, shape_eq_path ht hsingle]
    infer_instance
  · have hsingle' : t'.shape ≠ .path false true := fun h => hsingle (shape_eq_path ⟨ht.eq.symm⟩ h)
    split
    next h => exact absurd h hsingle
    next => infer_instance

instance blind_argument? : g.argument?.Blind g'.argument? := by
  unfold argument?
  infer_instance

theorem Argument.joined_unspaced (as : List Argument) :
    joined (unspaced as) = unspaced (joined as) := by
  fun_induction joined as with
  | case1 => rfl
  | case2 a => exact List.map_append.symm
  | case3 a as hne ih =>
    obtain ⟨b, bs, rfl⟩ := List.exists_cons_of_ne_nil hne
    obtain ⟨isLifetime, tokens, comma⟩ := a
    have hcomma : (if (unspaced comma).isEmpty then [Token.mark ','] else unspaced comma) =
        unspaced (if comma.isEmpty then [Token.mark ','] else comma) := by
      cases comma <;> rfl
    show unspaced tokens ++ (if (unspaced comma).isEmpty then _ else unspaced comma) ++
      joined (unspaced (b :: bs)) = _
    rw [ih, hcomma, ← unspaced_append, ← unspaced_append]

theorem Argument.arrange_unspaced (as : List Argument) :
    arrange (unspaced as) = unspaced (arrange as) := by
  have hlifetimes : (unspaced as).filter (·.isLifetime) = unspaced (as.filter (·.isLifetime)) :=
    List.filter_map
  have hothers : (unspaced as).filter (!·.isLifetime) = unspaced (as.filter (!·.isLifetime)) :=
    List.filter_map
  unfold arrange
  simp only [hlifetimes, hothers, joined_unspaced]
  generalize as.filter (·.isLifetime) = lifetimes
  generalize as.filter (!·.isLifetime) = others
  have hmeet : ((unspaced lifetimes).getLast?.any (·.comma.isEmpty) && !(unspaced others).isEmpty) =
      (lifetimes.getLast?.any (·.comma.isEmpty) && !others.isEmpty) := by
    have hlast : (unspaced lifetimes).getLast? = unspaced lifetimes.getLast? := List.getLast?_map
    rw [hlast]
    rcases lifetimes.getLast? with _ | ⟨_, _, _ | _⟩ <;> cases others <;> rfl
  have hmark : ∀ b : Bool, unspaced (if b then [Token.mark ','] else []) =
      if b then [Token.mark ','] else [] := fun b => by
    cases b <;> rfl
  have hflat : (unspaced lifetimes).flatMap (fun a => a.tokens ++ a.comma) =
      unspaced (lifetimes.flatMap fun a => a.tokens ++ a.comma) := by
    simp [unspaced, List.flatMap_map, List.map_flatMap]
  rw [hmeet, hflat, unspaced_append, unspaced_append, hmark]

instance alike_arrange {as as' : List Argument} [h : Alike as as'] :
    Alike (Argument.arrange as) (Argument.arrange as') :=
  ⟨by rw [← Argument.arrange_unspaced, h.eq, Argument.arrange_unspaced]⟩

instance blind_genericArguments : g.genericArguments.Blind g'.genericArguments := by
  unfold genericArguments
  infer_instance

instance blind_segmentRest (inExpr : Bool) :
    (g.segmentRest inExpr).Blind (g'.segmentRest inExpr) := by
  unfold segmentRest
  infer_instance

instance blind_pathSegment (inExpr : Bool) :
    (g.pathSegment inExpr).Blind (g'.pathSegment inExpr) := by
  unfold pathSegment
  infer_instance

instance blind_nextSegment? (inExpr : Bool) :
    (g.nextSegment? inExpr).Blind (g'.nextSegment? inExpr) := by
  unfold nextSegment?
  infer_instance

instance blind_morePath (inExpr : Bool) {first first' : PathForm} [Alike first first'] :
    (g.morePath inExpr first).Blind (g'.morePath inExpr first') := by
  refine .seq fun more more' hmore => ?_
  have hall : ∀ ps : List PathForm, (unspaced ps).all (·.plain) = ps.all (·.plain) := fun ps =>
    List.all_map
  have hplain : Alike (more.all (·.plain)) (more'.all (·.plain)) :=
    ⟨(hall more).symm.trans ((congrArg (·.all (·.plain)) hmore.eq).trans (hall more'))⟩
  have hlast : Alike more.getLast? more'.getLast? := inferInstance
  obtain ⟨hnone, hnone'⟩ | ⟨last, last', hsome, hsome', halike⟩ := hlast.option
  · rw [hnone, hnone']
    dsimp only
    infer_instance
  · rw [hsome, hsome']
    dsimp only
    infer_instance

instance blind_path (inExpr : Bool) : (g.path inExpr).Blind (g'.path inExpr) := by
  unfold path
  infer_instance

instance blind_qualifiedPath (inExpr : Bool) :
    (g.qualifiedPath inExpr).Blind (g'.qualifiedPath inExpr) := by
  unfold qualifiedPath
  infer_instance

instance blind_plainPath : plainPath.Blind plainPath := by
  unfold plainPath
  infer_instance

instance blind_attributeBody : g.attributeBody.Blind g'.attributeBody := by
  unfold attributeBody
  infer_instance

instance blind_outerAttribute : g.outerAttribute.Blind g'.outerAttribute := by
  unfold outerAttribute
  infer_instance

instance blind_outerAttributes : g.outerAttributes.Blind g'.outerAttributes := by
  unfold outerAttributes
  infer_instance

instance blind_innerAttributes : g.innerAttributes.Blind g'.innerAttributes := by
  unfold innerAttributes
  infer_instance

instance blind_readsNothing {p p' : Parser PUnit} [p.Blind p'] :
    (readsNothing p).Blind (readsNothing p') := by
  unfold readsNothing
  infer_instance

instance blind_colonBounds {p p' : Parser PUnit} [p.Blind p'] :
    (colonBounds p).Blind (colonBounds p') := by
  unfold colonBounds
  infer_instance

instance blind_lifetimeParam : lifetimeParam.Blind lifetimeParam := by
  unfold lifetimeParam
  infer_instance

instance blind_typeParamBounds : g.typeParamBounds.Blind g'.typeParamBounds := by
  unfold typeParamBounds
  infer_instance

instance blind_typeParamRest : g.typeParamRest.Blind g'.typeParamRest := by
  unfold typeParamRest
  infer_instance

instance blind_constParam : g.constParam.Blind g'.constParam := by
  unfold constParam
  infer_instance

instance blind_binderParam : g.binderParam.Blind g'.binderParam := by
  unfold binderParam
  infer_instance

instance blind_binder : g.binder.Blind g'.binder := by
  unfold binder
  infer_instance

instance blind_binder? : g.binder?.Blind g'.binder? := by
  unfold binder?
  infer_instance

instance blind_returnType (plus : Bool) : (g.returnType plus).Blind (g'.returnType plus) := by
  unfold returnType
  infer_instance

instance blind_callableArguments : g.callableArguments.Blind g'.callableArguments := by
  unfold callableArguments
  infer_instance

instance blind_traitPath : g.traitPath.Blind g'.traitPath := by
  unfold traitPath
  infer_instance

instance blind_traitBound (const : Bool) : (g.traitBound const).Blind (g'.traitBound const) := by
  unfold traitBound
  infer_instance

instance blind_captureList : captureList.Blind captureList := by
  unfold captureList
  infer_instance

instance blind_boundForm (capture const : Bool) :
    (g.boundForm capture const).Blind (g'.boundForm capture const) := by
  unfold boundForm
  infer_instance

instance blind_boundSum (plus capture const : Bool) :
    (g.boundSum plus capture const).Blind (g'.boundSum plus capture const) := by
  unfold boundSum
  infer_instance

instance blind_moreBounds : g.moreBounds.Blind g'.moreBounds := by
  unfold moreBounds
  infer_instance

instance blind_genericParam : g.genericParam.Blind g'.genericParam := by
  unfold genericParam
  infer_instance

instance blind_genericParams : g.genericParams.Blind g'.genericParams := by
  unfold genericParams
  infer_instance

instance blind_condition : g.condition.Blind g'.condition := by
  unfold condition
  infer_instance

instance blind_conditions : g.conditions.Blind g'.conditions := by
  unfold conditions
  infer_instance

instance blind_whereClause : g.whereClause.Blind g'.whereClause := by
  unfold whereClause
  infer_instance

instance blind_whereClause? : g.whereClause?.Blind g'.whereClause? := by
  unfold whereClause?
  infer_instance

instance blind_convention? : convention?.Blind convention? := by
  refine .step fun found => .ifSo (.looking fun ts ts' hts => ?_)
  cases hts <;> dsimp only <;> infer_instance

instance blind_functionTypeParam (first : Bool) :
    (g.functionTypeParam first).Blind (g'.functionTypeParam first) := by
  refine .step fun _ => .looking fun ts ts' hts => .seq fun (t, read) (t', read') h => ?_
  have ht : Alike t t' := ⟨congrArg Prod.fst h.eq⟩
  have hread : Alike read read' := ⟨congrArg Prod.snd h.eq⟩
  obtain ⟨rfl, rfl⟩ | ⟨t, t', rfl, rfl, ht⟩ := ht.option <;> dsimp only <;> infer_instance

instance blind_variadic : variadic.Blind variadic := by
  unfold variadic
  infer_instance

instance blind_functionTypeParam? (first : Bool) :
    (g.functionTypeParam? first).Blind (g'.functionTypeParam? first) := by
  unfold functionTypeParam?
  infer_instance

instance blind_functionTypeParams : g.functionTypeParams.Blind g'.functionTypeParams := by
  unfold functionTypeParams
  infer_instance

instance blind_functionType : g.functionType.Blind g'.functionType := by
  unfold functionType
  infer_instance

instance blind_traitSum {start start' : Position} [Alike start start'] (plus : Bool) :
    (g.traitSum start plus).Blind (g'.traitSum start' plus) := by
  unfold traitSum
  infer_instance

instance blind_parenContent : g.parenContent.Blind g'.parenContent := by
  unfold parenContent
  infer_instance

instance blind_parenType_sum : (parenType.sum g).Blind (parenType.sum g') := by
  unfold parenType.sum
  infer_instance

instance blind_parenType (plus : Bool) : (g.parenType plus).Blind (g'.parenType plus) := by
  refine .seq fun content content' h => ?_
  cases content with
  | tuple =>
    cases content' with
    | tuple =>
      dsimp only
      infer_instance
    | _ => cases h.eq
  | bounds t =>
    cases content' with
    | bounds t' =>
      have ht : Alike t t' := ⟨ParenContent.bounds.inj h.eq⟩
      dsimp only
      infer_instance
    | _ => cases h.eq
  | bound =>
    cases content' with
    | bound =>
      dsimp only
      infer_instance
    | _ => cases h.eq
  | type t =>
    cases content' with
    | type t' =>
      have ht : Alike t t' := ⟨ParenContent.type.inj h.eq⟩
      dsimp only
      infer_instance
    | _ => cases h.eq

instance blind_pathType (plus bound : Bool) :
    (g.pathType plus bound).Blind (g'.pathType plus bound) := by
  refine .seq fun p p' hp => ?_
  obtain ⟨rfl, rfl⟩ | ⟨p, p', rfl, rfl, hp⟩ := hp.option <;> dsimp only <;> infer_instance

instance blind_boundType (plus : Bool) : (g.boundType plus).Blind (g'.boundType plus) := by
  unfold boundType
  infer_instance

instance blind_bracketType : g.bracketType.Blind g'.bracketType := by
  unfold bracketType
  infer_instance

instance blind_pointerType : g.pointerType.Blind g'.pointerType := by
  unfold pointerType
  infer_instance

instance blind_referenceType : g.referenceType.Blind g'.referenceType := by
  unfold referenceType
  infer_instance

instance blind_implType (plus : Bool) : (g.implType plus).Blind (g'.implType plus) := by
  unfold implType
  infer_instance

instance blind_typeShape (plus : Bool) : (g.typeShape plus).Blind (g'.typeShape plus) := by
  unfold typeShape
  infer_instance

instance blind_typeTree (plus : Bool) : (g.typeTree plus).Blind (g'.typeTree plus) := by
  unfold typeTree
  infer_instance

end Grammar

end Graft

import Graft.Proofs.Grammar.Refine
import Graft.Grammar.Type

/-!
# Types of deeper grammars
-/

set_option synthInstance.maxSize 200000

namespace Graft.Grammar

open Graft.Parser
open Token (skips skipsAll)

variable {g g' : Grammar} [Refines g g']

/-! ## Paths -/

instance refines_block : g.block.Refines g'.block := by
  unfold block
  infer_instance

/-- The arguments of a macro are a group that stays as it is. -/
theorem macroArguments_eq_ok {s : Scope} {c d : Cursor} {b : Bool}
    (h : macroArguments s c = .ok (b, d)) :
    ∃ dl inner span ts, c.rest = .group dl inner span :: ts ∧
      inside dl inner span everything s { c with rest := ts } = .ok (⟨⟩, d) := by
  obtain ⟨rest, written, leftover⟩ := c
  cases rest with
  | nil => cases h
  | cons t ts =>
    cases t with
    | group dl inner span =>
      cases h
      exact ⟨dl, inner, span, ts, rfl, rfl⟩
    | _ => cases h

instance refines_macroArguments : macroArguments.Refines macroArguments :=
  .self fun h => by
    obtain ⟨dl, inner, span, ts, hc, hinside⟩ := macroArguments_eq_ok h
    exact inside_keeps everything hc hinside

instance refines_constArgument : g.constArgument.Refines g'.constArgument := by
  unfold constArgument
  infer_instance

instance refines_argumentBounds : g.argumentBounds.Refines g'.argumentBounds := by
  unfold argumentBounds
  infer_instance

instance refines_genericArgument : g.genericArgument.Refines g'.genericArgument := by
  unfold genericArgument
  refine .andThen fun ts => ?_
  split
  · infer_instance
  split
  · infer_instance
  refine .andThen fun t => ?_
  split <;> infer_instance

/-- What the arguments of a list count, as they were read. -/
def Argument.skipsOf (as : List Argument) : Nat :=
  skipsAll (as.flatMap fun a => a.tokens ++ a.comma)

theorem Argument.skipsOf_nil : skipsOf [] = 0 := rfl

theorem Argument.skipsOf_cons (a : Argument) (as : List Argument) :
    skipsOf (a :: as) = skipsAll a.tokens + skipsAll a.comma + skipsOf as := by
  simp [skipsOf, Nat.add_assoc]

theorem Argument.skipsOf_filter (as : List Argument) (test : Argument → Bool) :
    skipsOf (as.filter test) + skipsOf (as.filter (!test ·)) = skipsOf as := by
  induction as with
  | nil => rfl
  | cons a as ih =>
    cases htest : test a <;> simp only [htest, List.filter_cons, skipsOf_cons] <;>
      simp [skipsOf_cons] <;> omega

theorem skips_comma : (Token.mark ',').skips = 0 := by decide

theorem Argument.skipsAll_joined (as : List Argument) : skipsAll (joined as) = skipsOf as := by
  fun_induction joined as with
  | case1 => rfl
  | case2 a => simp [skipsOf]
  | case3 a as _ ih =>
    rw [skipsOf_cons, ← ih, Token.skipsAll_append, Token.skipsAll_append]
    split
    next hempty =>
      rw [List.isEmpty_iff] at hempty
      simp [hempty, skips_comma]
    next => rfl

/-- In whatever order arguments are written, they count the same. -/
theorem Argument.skipsAll_arrange (as : List Argument) : skipsAll (arrange as) = skipsOf as := by
  rw [← skipsOf_filter as (·.isLifetime)]
  unfold arrange
  simp only [Token.skipsAll_append, skipsAll_joined]
  split <;> simp [skipsOf, skips_comma]

instance refines_argument? : g.argument?.Refines g'.argument? := by
  unfold argument?
  infer_instance

theorem ahead_eq_ok {test : List Token → Bool} {s : Scope} {c d : Cursor} {b : Bool}
    (h : ahead test s c = .ok (b, d)) : b = test c.rest ∧ d = c := by
  cases h
  exact ⟨rfl, rfl⟩

theorem argument?_counts (g' : Grammar) [Refines g g'] {s : Scope} {c d : Cursor}
    {a : Option Argument} (h : g.argument? s c = .ok (a, d)) :
    d.written = c.written ∧ Argument.skipsOf a.toList + skipsAll d.rest ≤ skipsAll c.rest := by
  unfold argument? at h
  obtain ⟨_, c', hahead, h⟩ := bind_eq_ok h
  obtain ⟨rfl, rfl⟩ := ahead_eq_ok hahead
  split at h
  · cases h
    exact ⟨rfl, by simp [Argument.skipsOf]⟩
  obtain ⟨⟨isLifetime, tokens⟩, c₁, hdetached, h⟩ := bind_eq_ok h
  obtain ⟨d₁, hargument, rfl, rfl⟩ := detached_eq_ok hdetached
  have hread := (Parser.Refines.keeps g'.genericArgument hargument).total
  obtain ⟨_, c₂, hahead, h⟩ := bind_eq_ok h
  obtain ⟨rfl, rfl⟩ := ahead_eq_ok hahead
  simp only [Token.skipsAll_nil, Nat.zero_add] at hread
  split at h
  · cases h
    refine ⟨rfl, ?_⟩
    simp only [Option.toList_some, Argument.skipsOf_cons, Argument.skipsOf_nil,
      Token.skipsAll_reverse, Token.skipsAll_nil]
    omega
  obtain ⟨⟨_, comma⟩, c₃, hdetached, h⟩ := bind_eq_ok h
  obtain ⟨d₂, hcomma, rfl, rfl⟩ := detached_eq_ok hdetached
  have hmore := (Parser.Refines.keeps (op ",") hcomma).total
  simp only [Token.skipsAll_nil, Nat.zero_add] at hmore
  cases h
  refine ⟨rfl, ?_⟩
  simp only [Option.toList_some, Argument.skipsOf_cons, Argument.skipsOf_nil,
    Token.skipsAll_reverse]
  omega

theorem arguments_count (g' : Grammar) [Refines g g'] {s : Scope} {c d : Cursor}
    {as : List Argument} (h : many g.argument? s c = .ok (as, d)) :
    d.written = c.written ∧ Argument.skipsOf as + skipsAll d.rest ≤ skipsAll c.rest := by
  refine many_induction (P := fun c as d => d.written = c.written ∧
    Argument.skipsOf as + skipsAll d.rest ≤ skipsAll c.rest) ?_ ?_ ?_ h
  · exact argument?_counts g'
  · exact fun hlast _ => argument?_counts g' hlast
  · intro c a c' as d hstep ⟨hwritten, hcount⟩
    obtain ⟨hwritten', hcount'⟩ := argument?_counts g' hstep
    refine ⟨hwritten.trans hwritten', ?_⟩
    rw [Option.toList_some, Argument.skipsOf_cons, Argument.skipsOf_nil] at hcount'
    rw [Argument.skipsOf_cons]
    omega

instance refines_genericArguments : g.genericArguments.Refines g'.genericArguments where
  toBelow := by
    unfold genericArguments
    infer_instance
  keeps {s c d _} h := by
    unfold genericArguments at h
    obtain ⟨_, c₁, hopen, h⟩ := bind_eq_ok h
    obtain ⟨as, c₂, hmany, h⟩ := bind_eq_ok h
    obtain ⟨_, c₃, hwrite, h⟩ := bind_eq_ok h
    obtain ⟨_, c₄, hclose, h⟩ := bind_eq_ok h
    obtain ⟨hwritten, hcount⟩ := arguments_count g' hmany
    cases h
    cases hwrite
    have harguments : c₁.Keeps
        { c₂ with written := (Argument.arrange as).reverse ++ c₂.written } := by
      constructor
      · exact (Parser.Refines.keeps (many g'.argument?) hmany).suffix
      · simp only [Token.skipsAll_append, Token.skipsAll_reverse, Argument.skipsAll_arrange,
          hwritten]
        omega
    exact ((Parser.Refines.keeps (op "<") hopen).trans harguments).trans
      (Parser.Refines.keeps (op ">") hclose)

instance refines_segmentRest (inExpr : Bool) :
    (g.segmentRest inExpr).Refines (g'.segmentRest inExpr) := by
  unfold segmentRest
  infer_instance

instance refines_pathSegment (inExpr : Bool) :
    (g.pathSegment inExpr).Refines (g'.pathSegment inExpr) := by
  unfold pathSegment
  infer_instance

instance refines_nextSegment? (inExpr : Bool) :
    (g.nextSegment? inExpr).Refines (g'.nextSegment? inExpr) := by
  unfold nextSegment?
  infer_instance

instance refines_morePath (inExpr : Bool) (first : PathForm) :
    (g.morePath inExpr first).Refines (g'.morePath inExpr first) := by
  unfold morePath
  refine .andThen fun more => ?_
  split <;> infer_instance

instance refines_path (inExpr : Bool) : (g.path inExpr).Refines (g'.path inExpr) := by
  unfold path
  infer_instance

instance refines_qualifiedPath (inExpr : Bool) :
    (g.qualifiedPath inExpr).Refines (g'.qualifiedPath inExpr) := by
  unfold qualifiedPath
  infer_instance

instance refines_plainPath : plainPath.Refines plainPath := by
  unfold plainPath
  infer_instance

instance refines_attributeBody : g.attributeBody.Refines g'.attributeBody := by
  unfold attributeBody
  infer_instance

instance refines_outerAttribute : g.outerAttribute.Refines g'.outerAttribute := by
  unfold outerAttribute
  infer_instance

instance refines_outerAttributes : g.outerAttributes.Refines g'.outerAttributes := by
  unfold outerAttributes
  infer_instance

instance refines_innerAttributes : g.innerAttributes.Refines g'.innerAttributes := by
  unfold innerAttributes
  infer_instance

/-! ## Bounds -/

instance refines_readsNothing {p p' : Parser PUnit} [p.Refines p'] :
    (readsNothing p).Refines (readsNothing p') := by
  unfold readsNothing
  infer_instance

/-- What stands before something that turns out empty may be left unwritten. -/
theorem keeps_unlessNothing {p : Parser PUnit} (p' : Parser PUnit) [p.Refines p'] {s : Scope}
    {c c₁ d : Cursor} (hkeeps : c.Keeps c₁)
    (h : (readsNothing p >>= fun empty => if empty then setWritten c.written else pure ⟨⟩) s c₁ =
      .ok (⟨⟩, d)) : c.Keeps d := by
  obtain ⟨empty, c₂, hread, hend⟩ := bind_eq_ok h
  have hmore := hkeeps.trans (Parser.Refines.keeps (readsNothing p') hread)
  split at hend <;> cases hend
  · exact hmore.undo
  · exact hmore

instance refines_colonBounds {p p' : Parser PUnit} [p.Refines p'] :
    (colonBounds p).Refines (colonBounds p') where
  toBelow := by
    unfold colonBounds
    infer_instance
  keeps {s c d _} h := by
    obtain ⟨before, _, hbefore, hrest⟩ := bind_eq_ok h
    cases hbefore
    obtain ⟨colon, c₁, hcolon, hafter⟩ := bind_eq_ok hrest
    have hkeeps := Parser.Refines.keeps (op? ":") hcolon
    split at hafter
    · exact keeps_unlessNothing p' hkeeps hafter
    · cases hafter
      exact hkeeps

instance refines_lifetimeParam : lifetimeParam.Refines lifetimeParam := by
  unfold lifetimeParam
  infer_instance

instance refines_typeParamBounds : g.typeParamBounds.Refines g'.typeParamBounds := by
  unfold typeParamBounds
  infer_instance

instance refines_typeParamRest : g.typeParamRest.Refines g'.typeParamRest := by
  unfold typeParamRest
  infer_instance

instance refines_constParam : g.constParam.Refines g'.constParam := by
  unfold constParam
  infer_instance

instance refines_binderParam : g.binderParam.Refines g'.binderParam := by
  unfold binderParam
  infer_instance

instance refines_binder : g.binder.Refines g'.binder := by
  unfold binder
  infer_instance

instance refines_binder? : g.binder?.Refines g'.binder? := by
  unfold binder?
  infer_instance

instance refines_returnType (plus : Bool) : (g.returnType plus).Refines (g'.returnType plus) := by
  unfold returnType
  infer_instance

instance refines_callableArguments : g.callableArguments.Refines g'.callableArguments := by
  unfold callableArguments
  infer_instance

theorem segmentRest_bare {inExpr : Bool} {s : Scope} {c d : Cursor} {p : PathForm}
    (h : g.segmentRest inExpr s c = .ok (p, d)) : p.bare = c.written := by
  obtain ⟨bare, _, hbare, hrest⟩ := bind_eq_ok h
  cases hbare
  obtain ⟨ts, _, hts, harguments⟩ := bind_eq_ok hrest
  cases hts
  split at harguments
  · obtain ⟨_, _, _, harguments⟩ := bind_eq_ok harguments
    obtain ⟨_, _, _, hend⟩ := bind_eq_ok harguments
    cases hend
    rfl
  · cases harguments
    rfl

/-- What was written up to the last name of a path counts no more than what was read. -/
def BareKept (c : Cursor) (p : PathForm) (d : Cursor) : Prop :=
  skipsAll p.bare + skipsAll d.rest ≤ skipsAll c.written + skipsAll c.rest

theorem BareKept.after {c d e : Cursor} {p : PathForm} (h : BareKept d p e) (hkeeps : c.Keeps d) :
    BareKept c p e := h.trans hkeeps.total

theorem BareKept.before {c d e : Cursor} {p : PathForm} (h : BareKept c p d) (hkeeps : d.Keeps e) :
    BareKept c p e := (Nat.add_le_add_left hkeeps.rest _).trans h

theorem pathSegment_bare (g' : Grammar) [Refines g g'] {inExpr : Bool} {s : Scope} {c d : Cursor}
    {p : PathForm} (h : g.pathSegment inExpr s c = .ok (p, d)) : BareKept c p d := by
  have hrest : ∀ {c₁}, c.Keeps c₁ → g.segmentRest inExpr s c₁ = .ok (p, d) → BareKept c p d := by
    intro c₁ hkeeps hrest
    have hmore := (Parser.Refines.keeps (g'.segmentRest inExpr) hrest).rest
    rw [BareKept, segmentRest_bare hrest]
    exact (Nat.add_le_add_left hmore _).trans hkeeps.total
  unfold pathSegment at h
  obtain ⟨ts, _, hts, hname⟩ := bind_eq_ok h
  cases hts
  split at hname
  · obtain ⟨_, c₁, hword, hwritten⟩ := bind_eq_ok hname
    cases hwritten
    exact (Parser.Refines.keeps anyWord hword).total
  split at hname
  · obtain ⟨_, c₁, hword, hname⟩ := bind_eq_ok hname
    exact hrest (Parser.Refines.keeps anyWord hword) hname
  · obtain ⟨_, c₁, hword, hname⟩ := bind_eq_ok hname
    exact hrest (Parser.Refines.keeps name hword) hname

theorem nextSegment?_bare (g' : Grammar) [Refines g g'] {inExpr : Bool} {s : Scope} {c d : Cursor}
    {p : PathForm} (h : g.nextSegment? inExpr s c = .ok (some p, d)) : BareKept c p d := by
  obtain ⟨ts, _, hts, hname⟩ := bind_eq_ok h
  cases hts
  split at hname
  · obtain ⟨_, c₁, hcolons, hsegment⟩ := bind_eq_ok hname
    obtain ⟨p', _, hsegment, hend⟩ := bind_eq_ok hsegment
    cases hend
    exact (pathSegment_bare g' hsegment).after (Parser.Refines.keeps (op "::") hcolons)
  · cases hname

theorem morePath_bare (g' : Grammar) [Refines g g'] {inExpr : Bool} {first p : PathForm}
    {s : Scope} {c d : Cursor} (h : g.morePath inExpr first s c = .ok (p, d)) :
    p.bare = first.bare ∨ BareKept c p d := by
  obtain ⟨more, c₁, hmore, hend⟩ := bind_eq_ok h
  have hlast : c.Keeps c₁ ∧ ∀ q ∈ more.getLast?, BareKept c q c₁ := by
    refine many_induction (P := fun c more d => c.Keeps d ∧ ∀ q ∈ more.getLast?, BareKept c q d)
      ?_ ?_ ?_ hmore
    · exact fun hnone =>
        ⟨Parser.Refines.keeps (g'.nextSegment? inExpr) hnone, fun q hq => by cases hq⟩
    · refine fun hlast _ => ⟨Parser.Refines.keeps (g'.nextSegment? inExpr) hlast, fun q hq => ?_⟩
      cases hq
      exact nextSegment?_bare g' hlast
    · intro c q c' more d hstep ⟨hkeeps, hmore⟩
      have hfirst := Parser.Refines.keeps (g'.nextSegment? inExpr) hstep
      refine ⟨hfirst.trans hkeeps, fun r hr => ?_⟩
      cases more with
      | nil =>
        cases hr
        exact (nextSegment?_bare g' hstep).before hkeeps
      | cons q' more => exact (hmore r (by rwa [List.getLast?_cons_cons] at hr)).after hfirst
  cases hget : more.getLast? with
  | none =>
    simp only [hget] at hend
    cases hend
    exact .inl rfl
  | some last =>
    simp only [hget] at hend
    cases hend
    exact .inr (hlast.2 last hget)

theorem path_bare (g' : Grammar) [Refines g g'] {inExpr : Bool} {p : PathForm}
    {s : Scope} {c d : Cursor} (h : g.path inExpr s c = .ok (p, d)) : BareKept c p d := by
  obtain ⟨leading, c₁, hleading, hpath⟩ := bind_eq_ok h
  obtain ⟨first, c₂, hfirst, hpath⟩ := bind_eq_ok hpath
  obtain ⟨q, c₃, hmore, hend⟩ := bind_eq_ok hpath
  cases hend
  have hkeeps := Parser.Refines.keeps (op? "::") hleading
  obtain hbare | hbare := morePath_bare g' hmore
  · rw [BareKept, hbare]
    exact ((pathSegment_bare g' hfirst).after hkeeps).before
      (Parser.Refines.keeps (g'.morePath inExpr first) hmore)
  · exact hbare.after (hkeeps.trans (Parser.Refines.keeps (g'.pathSegment inExpr) hfirst))

instance refines_traitPath : g.traitPath.Refines g'.traitPath where
  toBelow := by
    unfold traitPath
    infer_instance
  keeps {s c d _} h := by
    obtain ⟨p, c₁, hpath, hafter⟩ := bind_eq_ok h
    obtain ⟨ts, _, hts, harguments⟩ := bind_eq_ok hafter
    cases hts
    have hkeeps := Parser.Refines.keeps (g'.path false) hpath
    split at harguments
    · obtain ⟨_, c₂, hcolons, hreset⟩ := bind_eq_ok harguments
      obtain ⟨_, c₃, hset, hcall⟩ := bind_eq_ok hreset
      cases hset
      have hcolons := Parser.Refines.keeps (op? "::") hcolons
      have hbare : c.Keeps { c₂ with written := p.bare } :=
        ⟨hcolons.suffix.trans hkeeps.suffix,
          (Nat.add_le_add_left hcolons.rest _).trans (path_bare g' hpath)⟩
      exact hbare.trans (Parser.Refines.keeps g'.callableArguments hcall)
    · cases harguments
      exact hkeeps

instance refines_traitBound (const : Bool) :
    (g.traitBound const).Refines (g'.traitBound const) := by
  unfold traitBound
  infer_instance

instance refines_captureList : captureList.Refines captureList := by
  unfold captureList
  infer_instance

instance refines_boundForm (capture const : Bool) :
    (g.boundForm capture const).Refines (g'.boundForm capture const) := by
  unfold boundForm
  infer_instance

instance refines_boundSum (plus capture const : Bool) :
    (g.boundSum plus capture const).Refines (g'.boundSum plus capture const) := by
  unfold boundSum
  infer_instance

instance refines_moreBounds : g.moreBounds.Refines g'.moreBounds := by
  unfold moreBounds
  infer_instance

instance refines_genericParam : g.genericParam.Refines g'.genericParam := by
  unfold genericParam
  infer_instance

instance refines_genericParams : g.genericParams.Refines g'.genericParams := by
  unfold genericParams
  infer_instance

instance refines_condition : g.condition.Refines g'.condition := by
  unfold condition
  infer_instance

instance refines_conditions : g.conditions.Refines g'.conditions := by
  unfold conditions
  infer_instance

instance refines_whereClause : g.whereClause.Refines g'.whereClause where
  toBelow := by
    unfold whereClause
    infer_instance
  keeps {s c d _} h := by
    obtain ⟨before, _, hbefore, hrest⟩ := bind_eq_ok h
    cases hbefore
    obtain ⟨_, c₁, hword, hafter⟩ := bind_eq_ok hrest
    obtain ⟨ts, _, hts, hclause⟩ := bind_eq_ok hafter
    cases hts
    dsimp only at hclause
    split at hclause
    · obtain ⟨_, _, hfail, -⟩ := bind_eq_ok hclause
      unfold fail at hfail
      split at hfail <;> cases hfail
    · exact keeps_unlessNothing g'.conditions (Parser.Refines.keeps (word "where") hword) hclause

instance refines_whereClause? : g.whereClause?.Refines g'.whereClause? := by
  unfold whereClause?
  infer_instance

/-! ## Types -/

instance refines_convention? : convention?.Refines convention? := by
  unfold convention?
  refine .andThen fun found => ?_
  split
  · refine .andThen fun ts => ?_
    split <;> infer_instance
  · infer_instance

instance refines_functionTypeParam (first : Bool) :
    (g.functionTypeParam first).Refines (g'.functionTypeParam first) := by
  unfold functionTypeParam
  refine .andThen fun _ => .andThen fun ts => .andThen fun (t, read) => ?_
  cases t <;> infer_instance

instance refines_variadic : variadic.Refines variadic := by
  unfold variadic
  infer_instance

instance refines_functionTypeParam? (first : Bool) :
    (g.functionTypeParam? first).Refines (g'.functionTypeParam? first) := by
  unfold functionTypeParam?
  infer_instance

instance refines_functionTypeParams :
    g.functionTypeParams.Refines g'.functionTypeParams := by
  unfold functionTypeParams
  infer_instance

instance refines_functionType : g.functionType.Refines g'.functionType := by
  unfold functionType
  infer_instance

instance refines_traitSum (start : Position) (plus : Bool) :
    (g.traitSum start plus).Refines (g'.traitSum start plus) := by
  unfold traitSum
  infer_instance

instance refines_parenContent : g.parenContent.Refines g'.parenContent := by
  unfold parenContent
  infer_instance

instance refines_parenType_sum : (parenType.sum g).Refines (parenType.sum g') := by
  unfold parenType.sum
  infer_instance

instance refines_parenType (plus : Bool) : (g.parenType plus).Refines (g'.parenType plus) := by
  unfold parenType
  refine .andThen fun content => ?_
  split <;> infer_instance

instance refines_pathType (plus bound : Bool) :
    (g.pathType plus bound).Refines (g'.pathType plus bound) := by
  unfold pathType
  refine .andThen fun p => ?_
  split <;> infer_instance

instance refines_boundType (plus : Bool) : (g.boundType plus).Refines (g'.boundType plus) := by
  unfold boundType
  infer_instance

instance refines_bracketType : g.bracketType.Refines g'.bracketType := by
  unfold bracketType
  infer_instance

instance refines_pointerType : g.pointerType.Refines g'.pointerType := by
  unfold pointerType
  infer_instance

instance refines_referenceType : g.referenceType.Refines g'.referenceType := by
  unfold referenceType
  infer_instance

instance refines_implType (plus : Bool) : (g.implType plus).Refines (g'.implType plus) := by
  unfold implType
  infer_instance

instance refines_typeShape (plus : Bool) : (g.typeShape plus).Refines (g'.typeShape plus) := by
  unfold typeShape
  infer_instance

instance refines_typeTree (plus : Bool) : (g.typeTree plus).Refines (g'.typeTree plus) := by
  unfold typeTree
  infer_instance

end Graft.Grammar

import Graft.Grammar.Type
import Graft.Proofs.Grammar.Plain

/-!
# Reading function types

Functions of the C convention, with their binder of lifetimes, their parameters and their result.
-/

namespace Graft

open Token (Word Whole Bare Sign Written)

namespace Grammar

open Graft.Parser

variable {g : Grammar} {ts us tail : List Token}

theorem takes_outerAttributes (h : Look.op "#" tail = false) :
    Takes g.outerAttributes [] tail [] (· = false) := by
  refine (takes_many_nil ?_).look (.pure rfl)
  refine (takes_ahead _).look ?_
  simp only [List.nil_append, h, Bool.false_eq_true, if_false]
  exact .pure rfl

/-! ## Binders -/

theorem takes_binderParam (name : Word) (hts : Written [.lifetime name] ts)
    (htail : Look.op ":" tail = false) :
    Takes g.binderParam ts tail [.lifetime name] fun _ => True := by
  cases hts with
  | lifetime _ span span' hts =>
    cases hts
    refine (takes_outerAttributes rfl).look ((takes_rest _).look ?_)
    refine (takes_lifetime name span span').last fun _ _ => ?_
    -- No bounds follow.
    refine takes_written.last fun _ _ => ?_
    refine (takes_op?_of_not htail).look ?_
    exact .pure trivial

theorem takes_binder (names : Commas Word) (hts : Written (binderBare (some names)) ts) :
    Takes g.binder ts tail (binderBare (some names)) fun _ => True := by
  cases hts with
  | @word _ us w span hts =>
    cases hts with
    | @sign _ us _ spacing span' hts =>
      obtain ⟨vs, spacing', span'', ws, rfl, hvs, hws⟩ := hts.split_sign
      cases hws
      have hitems : TakesItems (fun name => [.lifetime name]) g.binderParam (Look.op ">")
          (.punct '>' spacing' span'' :: tail) names := by
        refine ⟨fun name _ us hus => takes_binderParam name hus rfl,
          fun name _ us spacing span more hus => takes_binderParam name hus rfl, ?_,
          fun _ _ _ => rfl, rfl⟩
        intro name _ us more hus
        cases hus with
        | lifetime _ _ _ _ => rfl
      show Takes _ ([Token.ident "for" _] ++ ([Token.punct '<' spacing span'] ++ (vs ++ _))) _
        ([Bare.word .binder] ++ ([Bare.sign .less] ++ (_ ++ [Bare.sign .greater]))) _
      refine (takes_word .binder _).bind fun _ _ => ?_
      refine (takes_sign .less _ _).bind fun _ _ => ?_
      refine (takes_listUntil hitems hvs).bind fun _ _ => ?_
      exact takes_sign .greater _ _

/-! ## Parameters -/

theorem second_subset (ts : List Token) : Look.second ts ⊆ ts := by
  unfold Look.second
  split
  next => exact List.Subset.trans (List.subset_cons_self ..) (List.subset_cons_self ..)
  next => exact List.subset_cons_self ..
  next => exact List.Subset.refl _

theorem startsVariadic_eq_false (h : ∀ spacing span, .punct '.' spacing span ∉ ts) :
    startsVariadic ts = false := by
  have hdots : ∀ us ⊆ ts, Look.op "..." us = false := by
    intro us hus
    cases us with
    | nil => rfl
    | cons t us =>
      cases t with
      | punct c spacing span =>
        have hne : '.' ≠ c := by
          rintro rfl
          exact h spacing span (hus List.mem_cons_self)
        simp [Look.op, Look.op.go, hne]
      | _ => rfl
  have hthird : Look.op "..." (Look.third ts) = false :=
    hdots _ (List.Subset.trans (second_subset _) (second_subset _))
  rw [startsVariadic, hdots ts (List.Subset.refl _), hthird, Bool.and_false, Bool.or_self]

theorem no_points {bs : List Bare} (h : Written bs ts) (spacing : Spacing) (span : Span) :
    .punct '.' spacing span ∉ ts := by
  induction h with
  | nil => exact List.not_mem_nil
  | sign s _ _ _ ih =>
    rw [List.mem_cons, not_or]
    have hchar : '.' ≠ s.char := by cases s <;> decide
    exact ⟨fun heq => hchar (Token.punct.inj heq).1, ih⟩
  | _ => simp_all

/-- Tokens that a name may stand before without being the name of a parameter. -/
def Unnamed (ts : List Token) : Prop := Look.opOnly ":" ["::"] ts = false

theorem unnamed_stops (h : Stops ts) : Unnamed ts := by
  have hcolon : Look.op ":" ts = false := h.op_eq_false rfl (by decide)
  rw [Unnamed, Look.opOnly, hcolon, Bool.false_and]

theorem unnamed_more {more : List Segment} (hts : Written (Segment.bareMore more) ts)
    (htail : Stops tail) : Unnamed (ts ++ tail) := by
  cases more with
  | nil =>
    cases hts
    exact unnamed_stops htail
  | cons s more =>
    cases hts with
    | colons spacing span span' _ => rfl

theorem unnamed_path {first : Segment} {more : List Segment}
    (hts : Written (first.bare ++ Segment.bareMore more) ts) (htail : Stops tail) :
    Unnamed (Look.second (ts ++ tail)) := by
  obtain ⟨us, us', rfl, hus, hus'⟩ := hts.split
  cases first with
  | plain n =>
    cases hus with
    | word _ span hus =>
      cases hus
      exact unnamed_more hus' htail
  | generic n turbofish args =>
    cases hus with
    | word _ span hus =>
      cases turbofish with
      | true =>
        cases hus with
        | colons spacing span span' _ => rfl
      | false =>
        cases hus with
        | sign _ spacing span _ => rfl

/-- What a parameter without a name starts with is no name of it. -/
theorem unnamed_type {t : PlainType} (hts : Written t.bare ts) (htail : Stops tail) (first : Bool) :
    ((Look.name (ts ++ tail) || Look.word "_" (ts ++ tail) ||
      (first && Look.word "self" (ts ++ tail))) &&
        Look.opOnly ":" ["::"] (Look.second (ts ++ tail))) = false := by
  cases t with
  | path rooted segment more =>
    cases rooted with
    | false =>
      -- The path may start with a name, but no single colon stands behind that.
      have hnames : Written (segment.bare ++ Segment.bareMore more) ts := hts
      rw [unnamed_path hnames htail, Bool.and_false]
    | true =>
      cases hts with
      | colons spacing span span' _ =>
        cases first <;> rfl
  | reference lifetime mutable target =>
    cases hts with
    | sign _ spacing span _ =>
      cases first <;> rfl
  | pointer mutable pointee =>
    cases hts with
    | sign _ spacing span _ =>
      cases first <;> rfl
  | function binder unchecked params result =>
    obtain ⟨w, span, us, rfl, hw⟩ := PlainType.function_head hts
    have hwords : ∀ w ∈ ["for", "unsafe", "extern"], reservedWords.contains w = true ∧ w ≠ "_" ∧
        w ≠ "self" := by decide
    obtain ⟨hreserved, hblank, hself⟩ := hwords w hw
    have hname : Look.name (.ident w span :: (us ++ tail)) = false :=
      congrArg (! ·) hreserved
    simp [hname, Look.word, hblank.symm, hself.symm]
  | _ =>
    cases hts with
    | group _ span _ _ =>
      cases first <;> rfl

theorem go_colon_type {t : PlainType} (hroot : t.isRooted = false) (hts : Written t.bare ts)
    (marks : List Char) : Look.op.go (':' :: marks) (ts ++ tail) = false := by
  cases t with
  | path rooted first more =>
    cases hroot
    obtain ⟨span, us, rfl⟩ := PlainType.path_head hts
    cases marks <;> rfl
  | function binder unchecked params result =>
    obtain ⟨w, span, us, rfl, -⟩ := PlainType.function_head hts
    cases marks <;> rfl
  | reference lifetime mutable target =>
    cases hts with
    | sign _ spacing span _ => cases marks <;> rfl
  | pointer mutable pointee =>
    cases hts with
    | sign _ spacing span _ => cases marks <;> rfl
  | _ =>
    cases hts with
    | group _ span _ _ => cases marks <;> rfl

/-- A parameter behind its attributes; `receiver` says that it is a receiver. -/
def paramBody (g : Grammar) (first receiver : Bool) : Parser (Option TypeTree) := do
  if receiver then word "mut"
  let ts ← rest
  let named := (Look.name ts || Look.word "_" ts || (first && Look.word "self" ts)) &&
    Look.opOnly ":" ["::"] (Look.second ts)
  if named then
    anyWord
    op ":"
  if receiver && !named then
    word "self"
    return none
  else return some (← g.type true)

theorem functionTypeParam_eq (first : Bool) : g.functionTypeParam first = (do
    let _ ← g.outerAttributes
    let ts ← rest
    let receiver := first && Look.word "mut" ts && Look.word "self" (Look.second ts)
    let (t, read) ← captured (g.paramBody first receiver)
    match t with
    | some t => return if receiver then .mk read .other else t
    | none => return .mk read .other) := rfl

theorem takes_paramBody_type {t : PlainType} (htype : TakesType g t) (first : Bool)
    (hts : Written t.bare ts) (htail : Stops tail) :
    Takes (g.paramBody first false) ts tail t.bare fun o => ∃ tree, o = some tree ∧
      Written t.bare tree.tokens := by
  refine (takes_rest _).look ?_
  show Takes (if _ then _ else _) _ _ _ _
  rw [unnamed_type hts htail first, if_neg Bool.false_ne_true]
  exact (htype true ts tail hts htail).last fun tree htree => .pure ⟨tree, rfl, htree.tokens⟩

theorem takes_paramBody_named {t : PlainType} (htype : TakesType g t) (hroot : t.isRooted = false)
    (name : ParamName) (first : Bool) (hts : Written (Param.mk (some name) t).bare ts)
    (htail : Stops tail) :
    Takes (g.paramBody first false) ts tail (Param.mk (some name) t).bare fun o =>
      ∃ tree, o = some tree ∧ Written t.bare tree.tokens := by
  cases hts with
  | word _ span hts =>
    cases hts with
    | @sign _ us _ spacing span' hus =>
      refine (takes_rest _).look ?_
      have hname : (Look.name (.ident name.text span :: .punct ':' spacing span' :: us ++ tail) ||
          Look.word "_" (.ident name.text span :: .punct ':' spacing span' :: us ++ tail)) =
            true := by
        rcases Bool.or_eq_true_iff.mp name.names with hfree | hblank
        · exact Bool.or_eq_true_iff.mpr (.inl hfree)
        · exact Bool.or_eq_true_iff.mpr (.inr (decide_eq_true (of_decide_eq_true hblank).symm))
      -- A type that starts with a colon would make one operator of this colon and its own.
      have hcolon : Look.opOnly ":" ["::"] (.punct ':' spacing span' :: us ++ tail) = true := by
        have hmore : Look.op.go [':'] (us ++ tail) = false := go_colon_type hroot hus []
        simp [Look.opOnly, Look.op, Look.op.go, hmore]
      show Takes (if _ then _ else _) ([Token.ident name.text span] ++
        ([Token.punct ':' spacing span'] ++ us)) _
          ([Bare.word name.toWord] ++ ([Bare.sign .colon] ++ t.bare)) _
      rw [if_pos (by exact Bool.and_eq_true_iff.mpr ⟨Bool.or_eq_true_iff.mpr (.inl hname), hcolon⟩)]
      refine (takes_anyWord name.toWord span).bind fun _ _ => ?_
      refine (takes_sign .colon spacing span').bind fun _ _ => ?_
      exact (htype true us tail hus htail).last fun tree htree => .pure ⟨tree, rfl, htree.tokens⟩

/-- A parameter that is read is the tree of its type. -/
def TakesParam (g : Grammar) (p : Param) : Prop :=
  ∀ first ts tail, Written p.bare ts → Stops tail →
    Takes (g.functionTypeParam first) ts tail p.bare fun tree => Written p.type.bare tree.tokens

theorem takesParam {p : Param} (hclear : p.isClear) (htype : TakesType g p.type) :
    TakesParam g p := by
  intro first ts tail hts htail
  have hbody : Takes (g.paramBody first false) ts tail p.bare fun o => ∃ tree, o = some tree ∧
      Written p.type.bare tree.tokens := by
    cases p with
    | mk name t =>
      cases name with
      | none => exact takes_paramBody_type htype first hts htail
      | some name =>
        have hroot : t.isRooted = false := by
          simpa [Param.isClear] using (Bool.and_eq_true_iff.mp hclear).2
        exact takes_paramBody_named htype hroot name first hts htail
  have hopens := (p.opens hts).append tail
  have hmark : Look.op "#" (ts ++ tail) = false := hopens.op_eq_false rfl (by decide)
  have hreceiver : Look.word "mut" (ts ++ tail) = false := hopens.word_eq_false (by decide)
  rw [functionTypeParam_eq]
  refine (takes_outerAttributes hmark).look ((takes_rest _).look ?_)
  simp only [hreceiver, Bool.and_false, Bool.false_and]
  refine (takes_captured hbody).last ?_
  rintro ⟨o, read⟩ ⟨⟨tree, rfl, htree⟩, -⟩
  exact .pure htree

theorem takes_functionTypeParam?_end (first : Bool) :
    Takes (g.functionTypeParam? first) [] [] [] (· = none) :=
  takes_isEmpty.look (.pure rfl)

/-- The end of a parameter: a comma, unless it is the last. -/
def endParam (t : TypeTree) : Parser (Option TypeTree) := do
  if !(← isEmpty) then op ","
  return some t

theorem functionTypeParam?_eq (first : Bool) : g.functionTypeParam? first = (do
    if ← isEmpty then return none
    let _ ← g.outerAttributes
    if ← ahead startsVariadic then return none
    endParam (← g.functionTypeParam first)) := rfl

theorem takes_functionTypeParam? {p : Param} (hp : TakesParam g p) (first : Bool)
    {bs : List Bare} (hts : Written p.bare ts) (hstops : Stops (us ++ tail))
    (hpoints : ∀ spacing span, .punct '.' spacing span ∉ ts ++ (us ++ tail))
    (hend : ∀ t, Takes (endParam t) us tail bs (· = some t)) :
    Takes (g.functionTypeParam? first) (ts ++ us) tail (p.bare ++ bs) fun o =>
      ∃ tree, o = some tree ∧ Written p.type.bare tree.tokens := by
  have hopens := (p.opens hts).append (us ++ tail)
  have hmark : Look.op "#" (ts ++ us ++ tail) = false := by
    rw [List.append_assoc]
    exact hopens.op_eq_false rfl (by decide)
  have hnonempty : (ts ++ us ++ tail).isEmpty = false := by
    rw [List.append_assoc]
    exact List.isEmpty_eq_false_iff.mpr hopens.ne_nil
  have hvariadic : startsVariadic (ts ++ us ++ tail) = false := by
    rw [List.append_assoc]
    exact startsVariadic_eq_false hpoints
  -- Of what the parser looks at before it reads a type, nothing is there.
  rw [functionTypeParam?_eq]
  refine takes_isEmpty.look ?_
  rw [hnonempty, if_neg Bool.false_ne_true]
  refine (takes_outerAttributes hmark).look ((takes_ahead _).look ?_)
  rw [hvariadic, if_neg Bool.false_ne_true]
  refine (hp first ts (us ++ tail) hts hstops).bind fun tree htree => ?_
  exact (hend tree).mono fun o ho => ⟨tree, ho, htree⟩

theorem takes_lastParam {p : Param} (hp : TakesParam g p) (first : Bool)
    (hts : Written p.bare ts) :
    Takes (g.functionTypeParam? first) ts [] p.bare fun o =>
      ∃ tree, o = some tree ∧ Written p.type.bare tree.tokens := by
  have hend : ∀ t, Takes (endParam t) [] [] [] (· = some t) := fun t =>
    takes_isEmpty.look (.pure rfl)
  have hpoints := no_points hts
  have hparam := takes_functionTypeParam? hp first hts .nil (by simpa using hpoints) hend
  rwa [List.append_nil, List.append_nil] at hparam

theorem takes_commaParam {p : Param} (hp : TakesParam g p) (first : Bool) {bs : List Bare}
    (hts : Written p.bare ts) (spacing : Spacing) (span : Span) (hus : Written bs us) :
    Takes (g.functionTypeParam? first) (ts ++ [Token.punct ',' spacing span]) us
      (p.bare ++ [Bare.sign .comma]) fun o =>
        ∃ tree, o = some tree ∧ Written p.type.bare tree.tokens := by
  have hend : ∀ t, Takes (endParam t) [.punct ',' spacing span] us [.sign .comma]
      (· = some t) := fun t =>
    takes_isEmpty.look ((takes_sign .comma spacing span).last fun _ _ => .pure rfl)
  have hstops : Stops ([Token.punct ',' spacing span] ++ us) :=
    .sign .comma spacing span us (by decide)
  exact takes_functionTypeParam? hp first hts hstops
    (no_points (hts.append (.sign .comma spacing span hus))) hend

/-- Trees of the types of parameters. -/
def ParamTrees (params : Commas Param) (trees : List TypeTree) : Prop :=
  List.Forall₂ (fun p tree => Written p.type.bare tree.tokens) params.toList trees

theorem takes_otherParams {params : Commas Param} (hparams : ∀ p ∈ params.toList, TakesParam g p)
    (hts : Written (Param.bareCommas params) ts) :
    Takes (many (g.functionTypeParam? false)) ts [] (Param.bareCommas params)
      (ParamTrees params) := by
  induction params generalizing ts with
  | none =>
    cases hts
    exact (takes_many_nil (takes_functionTypeParam?_end false)).mono fun trees htrees =>
      htrees ▸ .nil
  | last p =>
    have hparam := takes_lastParam (hparams p List.mem_cons_self) false hts
    have hend := takes_functionTypeParam?_end (g := g) false
    refine (takes_many_last (p.opens hts).ne_nil hparam hend).mono ?_
    rintro _ ⟨tree, rfl, htree⟩
    exact .cons htree .nil
  | cons p rest ih =>
    obtain ⟨us, spacing, span, us', rfl, hus, hus'⟩ := hts.split_sign
    have hparam := takes_commaParam (hparams p List.mem_cons_self) false hus spacing span hus'
    have hmore := ih (fun p hp => hparams p (List.mem_cons_of_mem _ hp)) hus'
    rw [← List.append_nil us'] at hparam
    have hall := takes_many_cons (by simp) hparam hmore
    rw [List.append_assoc, List.append_assoc] at hall
    refine hall.mono ?_
    rintro _ ⟨tree, trees, rfl, htree, htrees⟩
    exact .cons htree htrees

theorem functionTypeParams_eq : g.functionTypeParams = (do
    let first ← g.functionTypeParam? true
    let others ← if first.isSome then many (g.functionTypeParam? false) else Pure.pure []
    if ← ahead startsVariadic then
      variadic
      return (first.toList ++ others, true)
    return (first.toList ++ others, false)) := rfl

theorem takes_functionTypeParams {params : Commas Param}
    (hparams : ∀ p ∈ params.toList, TakesParam g p)
    (hts : Written (Param.bareCommas params) ts) :
    Takes g.functionTypeParams ts [] (Param.bareCommas params) fun r =>
      ParamTrees params r.1 ∧ r.2 = false := by
  rw [functionTypeParams_eq]
  cases params with
  | none =>
    cases hts
    refine (takes_functionTypeParam?_end true).look ?_
    exact .pure ⟨.nil, rfl⟩
  | last p =>
    refine (takes_lastParam (hparams p List.mem_cons_self) true hts).last ?_
    rintro _ ⟨tree, rfl, htree⟩
    refine (takes_many_nil (takes_functionTypeParam?_end false)).look ?_
    exact (takes_ahead _).look (.pure ⟨.cons htree .nil, rfl⟩)
  | cons p rest =>
    obtain ⟨us, spacing, span, us', rfl, hus, hus'⟩ := hts.split_sign
    -- The first parameter is read by a parser of its own, for it may be a receiver.
    have hparam := takes_commaParam (hparams p List.mem_cons_self) true hus spacing span hus'
    have hmore := takes_otherParams (fun p hp => hparams p (List.mem_cons_of_mem _ hp)) hus'
    rw [← List.append_nil us'] at hparam
    show Takes _ (us ++ ([Token.punct ',' spacing span] ++ us')) _
      (p.bare ++ ([Bare.sign .comma] ++ Param.bareCommas rest)) _
    rw [← List.append_assoc, ← List.append_assoc]
    refine hparam.bind ?_
    rintro _ ⟨tree, rfl, htree⟩
    refine hmore.last fun trees htrees => ?_
    exact (takes_ahead _).look (.pure ⟨.cons htree htrees, rfl⟩)

/-! ## Function types -/

theorem takes_convention? (span span' : Span) :
    Takes convention? [.ident "extern" span, .literal "\"C\"" span'] tail
      [.word .foreign, .convention] (· = some "C") := by
  show Takes _ ([Token.ident "extern" span] ++ [Token.literal "\"C\"" span']) _
    ([Bare.word .foreign] ++ [Bare.convention]) _
  refine (takes_word? .foreign span).bind ?_
  rintro _ rfl
  refine (takes_rest _).look ?_
  have htext : Literal.isText "\"C\"" = true := by decide +kernel
  have hvalue : Literal.textValue "\"C\"" = "C" := by decide +kernel
  show Takes (if Literal.isText "\"C\"" then _ else _) _ _ _ _
  rw [if_pos htext]
  exact (takes_token (.convention span' .nil)).last fun _ _ => .pure (congrArg some hvalue)

theorem takes_returnType {result : Option PlainType} (hresult : ∀ t ∈ result, TakesType g t)
    (hts : Written (PlainType.bareResult result) ts) (htail : Stops tail) :
    Takes (g.returnType false) ts tail (PlainType.bareResult result)
      (Option.Rel (fun t tree => Written t.bare tree.tokens) result) := by
  cases result with
  | none =>
    cases hts
    have harrow : Look.op "->" tail = false := htail.op_eq_false rfl (by decide)
    exact (takes_op?_of_not harrow).look (.pure .none)
  | some t =>
    cases hts with
    | @arrow _ us spacing span span' hus =>
      show Takes _ ([Token.punct '-' .joint span, .punct '>' spacing span'] ++ us) _
        ([Bare.arrow] ++ t.bare) _
      refine (takes_arrow? spacing span span').bind ?_
      rintro _ rfl
      exact (hresult t rfl false us tail hus htail).last fun tree htree =>
        .pure (.some htree.tokens)

/-- A function type behind its binder. -/
theorem takes_functionType {unchecked : Bool} {params : Commas Param} {result : Option PlainType}
    (hparams : ∀ p ∈ params.toList, TakesParam g p) (hresult : ∀ t ∈ result, TakesType g t)
    (hts : Written (PlainType.function none unchecked params result).bare ts)
    (htail : Stops tail) (binder : Option (Commas Word)) :
    Takes g.functionType ts tail (PlainType.function none unchecked params result).bare
      (PlainType.function binder unchecked params result).HasShape := by
  obtain ⟨us, us', rfl, hus, hus'⟩ := Written.split (show Written
    ((if unchecked then [Bare.word .unchecked] else []) ++
      (.word .foreign :: .convention :: .word .fn ::
        .group .parenthesis (Param.bareCommas params) :: PlainType.bareResult result)) ts from hts)
  cases hus' with
  | word _ foreign hus' => cases hus' with
    | convention text hus' => cases hus' with
      | word _ fn hus' => cases hus' with
        | @group _ vs _ inner _ parens hinner hvs =>
          refine (takes_word?_if (w := .unchecked) hus rfl).bind fun _ _ => ?_
          show Takes _ ([Token.ident "extern" foreign, .literal "\"C\"" text] ++
            ([Token.ident "fn" fn] ++ ([Token.group .parenthesis inner parens] ++ vs))) _
              ([Bare.word .foreign, .convention] ++ ([Bare.word .fn] ++
                ([Bare.group .parenthesis (Param.bareCommas params)] ++
                  PlainType.bareResult result))) _
          refine (takes_convention? foreign text).bind ?_
          rintro _ rfl
          refine (takes_word .fn fn).bind fun _ _ => ?_
          refine (takes_group .parenthesis parens (takes_functionTypeParams hparams hinner)).bind ?_
          rintro ⟨trees, _⟩ ⟨htrees, rfl⟩
          refine (takes_returnType hresult hvs htail).last fun tree? htree? => ?_
          exact .pure ⟨trees, tree?, rfl, htrees, htree?⟩

end Grammar

end Graft

import Graft.Grammar.Level
import Graft.Proofs.Grammar.PlainFunction
import Graft.Proofs.Grammar.PlainPath

/-!
# Reading plain types as a whole

A plain type is read as what it is if its parts are. The grammar has a level for every token of a
text, so that it is deep enough for the type that the tokens are.
-/

namespace Graft

open Token (Word Whole Bare Sign Written)

namespace Grammar

open Graft.Parser

variable {g : Grammar} {ts tail : List Token}

/-! ## References and pointers -/

theorem takes_lifetime?_toList {lifetime : Option Word}
    (hts : Written (lifetime.toList.map .lifetime) ts) (htail : Look.lifetime tail = false) :
    Takes lifetime? ts tail (lifetime.toList.map .lifetime) fun _ => True := by
  cases lifetime with
  | none =>
    cases hts
    exact (takes_lifetime?_of_not htail).mono fun _ _ => trivial
  | some name =>
    cases hts with
    | lifetime _ span span' hts =>
      cases hts
      exact (takes_lifetime? name span span').mono fun _ _ => trivial

/-- The grammar reads the shape of the type, before all that it may stand before. -/
def TakesShape (g : Grammar) (t : PlainType) : Prop :=
  ∀ plus ts tail, Written t.bare ts → Stops tail →
    Takes (g.typeShape plus) ts tail t.bare t.HasShape

theorem takesShape_reference {lifetime : Option Word} {mutable : Bool} {target : PlainType}
    (htarget : TakesType g target) : TakesShape g (.reference lifetime mutable target) := by
  intro plus ts tail hts htail
  cases hts with
  | @sign _ us _ spacing span hts =>
    obtain ⟨vs, us, rfl, hvs, hus⟩ := hts.split
    obtain ⟨vs', ws, rfl, hvs', hws⟩ := hus.split
    have hopens := (target.opens hws).append tail
    have hmutable : Look.word "mut" (ws ++ tail) = false := hopens.word_eq_false (by decide)
    have hlifetime : Look.lifetime (vs' ++ ws ++ tail) = false := by
      rw [List.append_assoc]
      exact hopens.lifetime_mutable hvs'
    refine (takes_rest _).look ?_
    show Takes g.referenceType ([Token.punct '&' spacing span] ++ _) _
      ([Bare.sign .ampersand] ++ _) _
    refine (takes_sign .ampersand spacing span).bind fun _ _ => ?_
    refine (takes_lifetime?_toList hvs hlifetime).bind fun _ _ => ?_
    refine (takes_word?_if (w := .mutable) hvs' hmutable).bind fun _ _ => ?_
    exact (htarget false ws tail hws htail).last fun _ _ => .pure (.inl rfl)

theorem takesShape_pointer {mutable : Bool} {pointee : PlainType} (hpointee : TakesType g pointee) :
    TakesShape g (.pointer mutable pointee) := by
  intro plus ts tail hts htail
  cases hts with
  | @sign _ us _ spacing span hts =>
    refine (takes_rest _).look ?_
    show Takes g.pointerType ([Token.punct '*' spacing span] ++ us) _ ([Bare.sign .star] ++ _) _
    refine (takes_sign .star spacing span).bind fun _ _ => ?_
    have hpart : ∀ us, Written pointee.bare us →
        Takes (g.type false >>= fun t => Pure.pure (.pointer t)) us tail pointee.bare
          (PlainType.pointer mutable pointee).HasShape := fun us hus =>
      (hpointee false us tail hus htail).last fun tree htree => .pure ⟨tree, rfl, htree.tokens⟩
    -- The word `const` is tried first.
    cases mutable with
    | false =>
      cases hts with
      | @word _ us w span hus =>
        show Takes _ ([Token.ident "const" _] ++ us) _ ([Bare.word .const] ++ pointee.bare) _
        refine (takes_word? .const _).bind ?_
        rintro _ rfl
        exact hpart us hus
    | true =>
      cases hts with
      | @word _ us w span hus =>
        refine (takes_word?_of_not rfl).look ?_
        show Takes _ ([Token.ident "mut" _] ++ us) _ ([Bare.word .mutable] ++ pointee.bare) _
        refine (takes_word? .mutable _).bind ?_
        rintro _ rfl
        exact hpart us hus

/-! ## Slices and arrays -/

theorem takes_literal (n : Whole) (span : Span) :
    Takes literal [.literal n.text span] tail [.whole n] fun _ => True :=
  (takes_rest _).look ((takes_rest _).look (takes_token (.whole n span .nil)))

theorem takes_atom (n : Whole) (span : Span) :
    Takes (g.atom true) [.literal n.text span] tail [.whole n] (· = .other) :=
  (takes_rest _).look ((takes_literal n span).last fun _ _ => .pure rfl)

/-- Nothing stands behind the length of an array that belongs to it. -/
theorem takes_operandForm (n : Whole) (span : Span) :
    Takes (g.operandForm true) [.literal n.text span] [] [.whole n] (· = .other) := by
  refine (takes_outerAttributes rfl).look ((takes_rest _).look ?_)
  show Takes (do
    let start ← place
    let e ← g.trailers (← g.atom true)
    if false && e = .range then
      failAt start "attributes are not allowed on range expressions starting with `..`"
    return e) ([] ++ [Token.literal n.text span]) [] ([] ++ [Bare.whole n]) _
  refine takes_place.bind fun _ _ => (takes_atom n span).last ?_
  rintro _ rfl
  -- At the end of the tokens there is no call, member or index.
  refine (takes_iterate ?_).look (.pure rfl)
  refine (takes_rest []).look ?_
  show Takes (Pure.pure none) [] [] [] (· = none)
  exact .pure rfl

theorem takes_length (n : Whole) (span : Span) :
    Takes ((above (above g)).expr true) [.literal n.text span] [] [.whole n] fun _ => True := by
  refine (takes_operandForm n span).last ?_
  rintro _ rfl
  -- Nor is there an operator.
  refine (takes_iterate ?_).mono fun _ _ => trivial
  refine (takes_rest []).look ?_
  show Takes (Pure.pure none) [] [] [] (· = none)
  exact .pure rfl

theorem takesShape_slice {element : PlainType} (helement : TakesType g element) :
    TakesShape g (.slice element) := by
  intro plus ts tail hts htail
  cases hts with
  | @group _ _ _ us _ span hus hts =>
    cases hts
    refine (takes_rest _).look ?_
    refine takes_group .bracket span ?_
    refine (helement true us [] hus .nil).last fun _ _ => ?_
    refine (takes_op?_of_not rfl).look ?_
    exact .pure (.inl rfl)

theorem takesShape_array {element : PlainType} {length : Whole} (helement : TakesType g element)
    (hlength : ∀ span, Takes (g.expr true) [.literal length.text span] [] [.whole length]
      fun _ => True) :
    TakesShape g (.array element length) := by
  intro plus ts tail hts htail
  cases hts with
  | @group _ _ _ us _ span hus hts =>
    cases hts
    obtain ⟨vs, spacing, span', ws, rfl, hvs, hws⟩ := hus.split_sign
    cases hws with
    | whole _ span'' hws =>
      cases hws
      refine (takes_rest _).look ?_
      refine takes_group .bracket span ?_
      refine (helement true vs _ hvs (.sign .semicolon spacing span' _ (by decide))).bind
        fun _ _ => ?_
      show Takes _ ([Token.punct ';' spacing span'] ++ [Token.literal length.text span'']) _
        ([Bare.sign .semicolon] ++ [Bare.whole length]) _
      refine (takes_sign? .semicolon spacing span').bind ?_
      rintro _ rfl
      exact (hlength span'').last fun _ _ => .pure (.inl rfl)

/-! ## Tuples -/

theorem takesShape_unit : TakesShape g .unit := by
  intro plus ts tail hts htail
  cases hts with
  | group _ span hus hts =>
    cases hus
    cases hts
    refine (takes_rest _).look ?_
    have hcontent : Takes g.parenContent [] [] [] (· = .tuple) :=
      (takes_rest _).look (.pure rfl)
    refine (takes_group .parenthesis span hcontent).last ?_
    rintro _ rfl
    exact .pure (.inl rfl)

theorem takesItems_types {args : Commas PlainType} (hargs : ∀ t ∈ args.toList, TakesType g t) :
    TakesItems PlainType.bare (g.type true) List.isEmpty [] args where
  last t ht us hus := (hargs t ht true us [] hus .nil).mono fun _ _ => trivial
  comma t ht us spacing span more hus :=
    (hargs t ht true us _ hus (.sign .comma spacing span more (by decide))).mono fun _ _ => trivial
  starts t ht us more hus := by
    obtain ⟨u, us, rfl⟩ := List.exists_cons_of_ne_nil (t.opens hus).ne_nil
    rfl
  goesOn _ _ _ := rfl
  ends := rfl

theorem takes_tuple {first : PlainType} {rest : Commas PlainType} (hfirst : TakesType g first)
    (hrest : ∀ t ∈ rest.toList, TakesType g t)
    (hts : Written (first.bare ++ .sign .comma :: PlainType.bareCommas rest) ts) :
    Takes g.parenContent ts [] (first.bare ++ .sign .comma :: PlainType.bareCommas rest)
      (· = .tuple) := by
  obtain ⟨us, spacing, span, us', rfl, hus, hus'⟩ := hts.split_sign
  have hopens := (first.opens hus).append (.punct Sign.comma.char spacing span :: us')
  have hbound : Look.op "?" (us ++ .punct Sign.comma.char spacing span :: us') = false :=
    hopens.op_eq_false rfl (by decide)
  have hnonempty : (us ++ .punct Sign.comma.char spacing span :: us').isEmpty = false :=
    List.isEmpty_eq_false_iff.mpr hopens.ne_nil
  have hcommas : Written (rest.bare PlainType.bare) us' := PlainType.bareCommas_eq rest ▸ hus'
  refine (takes_rest _).look ?_
  simp only [List.append_nil, hopens.lifetime_eq_false, hbound, hnonempty, Bool.false_eq_true,
    if_false]
  refine (hfirst true us _ hus (.sign .comma spacing span _ (by decide))).bind fun _ _ => ?_
  show Takes _ ([Token.punct ',' spacing span] ++ us') _
    ([Bare.sign .comma] ++ PlainType.bareCommas rest) _
  refine (takes_sign? .comma spacing span).bind ?_
  rintro _ rfl
  rw [PlainType.bareCommas_eq]
  exact (takes_listUntil (takesItems_types hrest) hcommas).last fun _ _ => .pure rfl

theorem takesShape_tuple {first : PlainType} {rest : Commas PlainType} (hfirst : TakesType g first)
    (hrest : ∀ t ∈ rest.toList, TakesType g t) : TakesShape g (.tuple first rest) := by
  intro plus ts tail hts htail
  cases hts with
  | group _ span hus hts =>
    cases hts
    refine (takes_rest _).look ?_
    refine (takes_group .parenthesis span (takes_tuple hfirst hrest hus)).last ?_
    rintro _ rfl
    exact .pure (.inl rfl)

/-! ## Paths -/

theorem takes_pathType (rooted : Bool) {first : Segment} {more : List Segment} (plus : Bool)
    (hfirst : ∀ t ∈ first.args, TakesType g t) (hmore : ∀ s ∈ more, ∀ t ∈ s.args, TakesType g t)
    (hts : Written (PlainType.path rooted first more).bare ts) (htail : Stops tail) :
    Takes (g.pathType plus false) ts tail (PlainType.path rooted first more).bare
      (PlainType.path rooted first more).HasShape := by
  have hbang : Look.op "!" tail = false := htail.op_eq_false rfl (by decide)
  have hplus : Look.op "+" tail = false := htail.op_eq_false rfl (by decide)
  have hself : Look.op "<" (ts ++ tail) = false :=
    ((PlainType.opens _ hts).append tail).op_eq_false rfl (by decide)
  refine Takes.last (P := fun o => ∃ p, o = some p) ?_ ?_
  · refine (takes_op?_of_not hself).look ?_
    exact (takes_path rooted hfirst hmore hts htail).last fun p _ => .pure ⟨p, rfl⟩
  · rintro _ ⟨p, rfl⟩
    refine (takes_rest _).look ?_
    simp only [List.nil_append, Look.opOnly, hbang, hplus, Bool.false_and, Bool.and_false,
      Bool.false_or, Bool.false_eq_true, if_false]
    exact .pure (.inr ⟨false, p.single, rfl⟩)

section Names

variable (n : PathWord) (span : Span) (ts : List Token)

theorem startsFunction_path : startsFunction (.ident n.text span :: ts) = false := by
  have hfn : "fn" ≠ n.text := (n.ne (by decide)).symm
  have hunsafe : "unsafe" ≠ n.text := (n.ne (by decide)).symm
  have hextern : "extern" ≠ n.text := (n.ne (by decide)).symm
  simp [startsFunction, Look.oneOf, Look.word, hfn, hunsafe, hextern]

theorem startsPath_path : startsPath (.ident n.text span :: ts) = true := by
  rcases Bool.or_eq_true_iff.mp n.names with hfree | hword
  · exact Bool.or_eq_true_iff.mpr (.inl hfree)
  · rw [List.contains_iff_mem] at hword
    have honeOf : Look.oneOf ["super", "self", "Self", "crate"] (.ident n.text span :: ts) = true :=
      List.any_eq_true.mpr ⟨n.text, hword, decide_eq_true rfl⟩
    exact Bool.or_eq_true_iff.mpr (.inr honeOf)

end Names

theorem takesShape_path (rooted : Bool) {first : Segment} {more : List Segment}
    (hfirst : ∀ t ∈ first.args, TakesType g t)
    (hmore : ∀ s ∈ more, ∀ t ∈ s.args, TakesType g t) :
    TakesShape g (.path rooted first more) := by
  intro plus ts tail hts htail
  have hpath := takes_pathType rooted plus hfirst hmore hts htail
  refine (takes_rest _).look ?_
  cases rooted with
  | true =>
    cases hts with
    | colons spacing span span' _ => exact hpath
  | false =>
    -- Of the forms of types only a path starts with such a word.
    obtain ⟨span, us, rfl⟩ := PlainType.path_head hts
    have hfor : Look.word "for" (.ident first.name.text span :: us ++ tail) = false :=
      decide_eq_false (first.name.ne (by decide)).symm
    have hparens : Look.parens (.ident first.name.text span :: us ++ tail) = false := rfl
    have hfunction : startsFunction (.ident first.name.text span :: us ++ tail) = false :=
      startsFunction_path first.name span _
    have hstarts : startsPath (.ident first.name.text span :: us ++ tail) = true :=
      startsPath_path first.name span _
    simp only [hfor, hparens, hfunction, hstarts, Bool.true_or, Bool.false_eq_true, if_false,
      if_true]
    exact hpath

theorem takesShape_function {binder : Option (Commas Word)} {unchecked : Bool}
    {params : Commas Param} {result : Option PlainType}
    (hparams : ∀ p ∈ params.toList, TakesParam g p) (hresult : ∀ t ∈ result, TakesType g t) :
    TakesShape g (.function binder unchecked params result) := by
  intro plus ts tail hts htail
  have hstarts : ∀ {us}, Written (PlainType.function none unchecked params result).bare us →
      Look.word "for" (us ++ tail) = false ∧ startsFunction (us ++ tail) = true := by
    intro us hus
    cases unchecked with
    | true =>
      cases hus with
      | word _ span _ => exact ⟨rfl, rfl⟩
    | false =>
      cases hus with
      | word _ span _ => exact ⟨rfl, rfl⟩
  cases binder with
  | none =>
    obtain ⟨hfor, hfunction⟩ := hstarts hts
    have hparens : Look.parens (ts ++ tail) = false := by
      obtain ⟨w, span, us, rfl, -⟩ := PlainType.function_head hts
      rfl
    refine (takes_rest _).look ?_
    simp only [hfor, hparens, hfunction, Bool.false_eq_true, if_false, if_true]
    exact takes_functionType hparams hresult hts htail none
  | some names =>
    -- Behind its binder the type goes on as one without.
    obtain ⟨us, us', rfl, hus, hus'⟩ := Written.split (show Written (binderBare (some names) ++
      (PlainType.function none unchecked params result).bare) ts from hts)
    obtain ⟨-, hfunction⟩ := hstarts hus'
    have hfor : Look.word "for" (us ++ us' ++ tail) = true := by
      cases hus with
      | word _ _ _ => rfl
    refine (takes_rest _).look ?_
    rw [if_pos hfor]
    refine (takes_binder names hus).bind fun _ _ => (takes_rest _).look ?_
    rw [if_pos hfunction]
    exact takes_functionType hparams hresult hus' htail (some names)

/-! ## Every type -/

theorem takesType_above {t : PlainType} (h : TakesShape g t) : TakesType (above g) t := by
  intro plus ts tail hts htail
  refine (takes_captured (h plus ts tail hts htail)).last ?_
  rintro ⟨shape, tokens⟩ ⟨hshape, htokens⟩
  exact .pure ⟨htokens, hshape⟩

theorem takesShape {t : PlainType} (hclear : t.isClear) (hparts : ∀ u ∈ t.parts, TakesType g u)
    (hlength : ∀ (n : Whole) span, Takes (g.expr true) [.literal n.text span] [] [.whole n]
      fun _ => True) : TakesShape g t := by
  cases t with
  | path rooted first more =>
    refine takesShape_path rooted (fun u hu => hparts u (List.mem_append_left _ hu)) ?_
    exact fun s hs u hu => hparts u (List.mem_append_right _ (List.mem_flatMap.mpr ⟨s, hs, hu⟩))
  | reference lifetime mutable target =>
    exact takesShape_reference (hparts target List.mem_cons_self)
  | pointer mutable pointee => exact takesShape_pointer (hparts pointee List.mem_cons_self)
  | unit => exact takesShape_unit
  | tuple first rest =>
    exact takesShape_tuple (hparts first List.mem_cons_self)
      fun u hu => hparts u (List.mem_cons_of_mem _ hu)
  | slice element => exact takesShape_slice (hparts element List.mem_cons_self)
  | array element length =>
    exact takesShape_array (hparts element List.mem_cons_self) (hlength length)
  | function binder unchecked params result =>
    refine takesShape_function (fun p hp => takesParam ?_ ?_) fun u hu => ?_
    · exact Param.isClear_of_mem (Bool.and_eq_true_iff.mp hclear).1 hp
    · exact hparts p.type (List.mem_append_left _ (List.mem_map_of_mem hp))
    · exact hparts u (List.mem_append_right _ (Option.mem_toList.mpr hu))

/-- The deeper a type is, the deeper the grammar has to be. The levels on top are for the length of
an array. -/
theorem takesType_level (n : Nat) {t : PlainType} (hclear : t.isClear)
    (hn : Token.weight t.bare ≤ n) : TakesType (level (n + 2)) t := by
  induction n generalizing t with
  | zero => exact absurd hn (Nat.not_le.mpr t.weight_pos)
  | succ n ih =>
    -- A part weighs less than the type, so that the level below is deep enough for it.
    refine takesType_above (takesShape hclear (fun u hu => ?_) takes_length)
    have hweight := PlainType.weight_parts hu
    exact ih (PlainType.isClear_parts hclear hu) (by omega)

end Grammar

/-- Tokens of a clear plain type are read as that type. -/
theorem PlainType.ofTokens_eq {t : PlainType} {ts : List Token} (hclear : t.isClear)
    (hts : Written t.bare ts) : ∃ tree, TypeTree.ofTokens ts = .ok tree ∧ t.IsTree tree := by
  have hweight : Token.weight t.bare ≤ 6 * Token.sizeAll ts + 4 := by
    rw [hts.sizeAll_eq]
    omega
  have htype := Grammar.takesType_level _ hclear hweight true ts [] hts .nil
  obtain ⟨tree, out, hrun, -, htree⟩ := htype ⟨.start⟩ [] none
  refine ⟨tree, ?_, htree⟩
  rw [List.append_nil] at hrun
  show Parser.run ((Grammar.level (6 * Token.sizeAll ts + 4 + 2)).type true) ts = _
  rw [Parser.run, hrun]

end Graft

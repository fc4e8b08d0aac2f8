import Mathlib.Data.List.Forall2
import Graft.Call.Host
import Graft.Proofs.Types.Application

/-!
# The arity of a signature

The arrows of a signature that stand outside of brackets are those between its parameters and its
result: a parameter with an arrow of its own is in parentheses. So a declaration takes as many
arguments as it has parameters.
-/

namespace Graft

open Brackets (closed)

variable {cs p q u v w rest : List Char} {params : List HostType}

/-! ## Arrows outside of brackets -/

/-- An arrow with a blank on both sides. -/
def arrows : Separator where
  length cs := if startsWith " -> " cs then 4 else 0
  length_le cs := by
    split
    next h =>
      have hhead := List.isPrefixOf_iff_prefix.mp h
      exact hhead.length_le
    next h => exact Nat.zero_le _
  balanced cs := by
    split
    next h =>
      obtain ⟨rest, rfl⟩ := List.isPrefixOf_iff_prefix.mp h
      rfl
    next h => rfl

/-- The pieces of a text between the arrows outside of brackets. -/
def arrowPieces (cs : List Char) : List (List Char) := splitOutside arrows closed cs

/-- An arrow stands outside of all brackets. -/
def HasOuterArrow (cs : List Char) : Prop := ∃ v, Outside cs ('-' :: '>' :: v)

/-- An arrow that the start of `v` and a blank arrow behind it make up stands in `v` but for the
blank behind it. -/
theorem exists_arrow_of_append (hv : v ≠ []) (h : startsWith " -> " (v ++ w))
    (hmore : w = [] ∨ ∃ rest, w = ' ' :: '-' :: '>' :: ' ' :: rest) :
    ∃ tail, v = ' ' :: '-' :: '>' :: tail := by
  obtain ⟨rest, hprefix⟩ := List.isPrefixOf_iff_prefix.mp h
  have hrest : ' ' :: '-' :: '>' :: ' ' :: rest = v ++ w := hprefix
  -- `w` would have to start with the second or the third character of an arrow.
  have hstart : ∀ c cs, w = c :: cs → c = ' ' := by
    rintro c cs rfl
    obtain hnil | ⟨more, hmore⟩ := hmore
    · cases hnil
    · exact (List.cons.inj hmore).1
  rcases v with _ | ⟨c, _ | ⟨d, _ | ⟨e, tail⟩⟩⟩
  · exact absurd rfl hv
  · exact absurd (hstart '-' _ (List.cons.inj hrest).2.symm) (by decide)
  · have htail := (List.cons.inj (List.cons.inj hrest).2).2
    exact absurd (hstart '>' _ htail.symm) (by decide)
  · obtain ⟨hc, htail⟩ := List.cons.inj hrest
    obtain ⟨hd, htail⟩ := List.cons.inj htail
    obtain ⟨he, -⟩ := List.cons.inj htail
    exact ⟨tail, by rw [hc, hd, he]⟩

/-- Where no arrow stands outside, no separator starts, and none reaches into an arrow behind. -/
theorem arrows_length_of_outside (hq : ¬ HasOuterArrow q) (hv : v ≠ []) (hout : Outside q v)
    (hmore : w = [] ∨ ∃ rest, w = ' ' :: '-' :: '>' :: ' ' :: rest) :
    arrows.length (v ++ w) = 0 := by
  refine if_neg fun h => ?_
  obtain ⟨u, hcs, hu⟩ := hout
  obtain ⟨tail, rfl⟩ := exists_arrow_of_append hv h hmore
  refine hq ⟨tail, u ++ [' '], by rw [hcs]; simp, ?_⟩
  rw [Brackets.behind?_append, hu]
  rfl

theorem arrowPieces_eq_self (hq : Balanced q) (hnone : ¬ HasOuterArrow q) :
    arrowPieces q = [q] := by
  refine splitOutside_eq_self hq fun u v hcs hv hu => ?_
  have hzero := arrows_length_of_outside hnone hv ⟨u, hcs, hu⟩ (.inl rfl)
  rwa [List.append_nil] at hzero

theorem arrowPieces_append (hq : Balanced q) (hnone : ¬ HasOuterArrow q) (rest : List Char) :
    arrowPieces (q ++ (" -> ".toList ++ rest)) = q :: arrowPieces rest := by
  have hsplit : arrowPieces (q ++ (" -> ".toList ++ rest)) = arrowPieces q ++ arrowPieces rest := by
    refine splitOutside_append " -> ".toList hq (by decide) rfl ?_
    intro u v hcs hv hu
    have hzero := arrows_length_of_outside hnone hv ⟨u, hcs, hu⟩ (.inl rfl)
    rw [List.append_nil] at hzero
    rw [hzero]
    exact arrows_length_of_outside hnone hv ⟨u, hcs, hu⟩ (.inr ⟨rest, rfl⟩)
  rw [hsplit, arrowPieces_eq_self hq hnone, List.singleton_append]

/-- A blank is in no arrow: one outside of two texts with a blank between is in one of them. -/
theorem HasOuterArrow.of_append_blank (hu : Balanced u)
    (h : HasOuterArrow (u ++ ' ' :: v)) : HasOuterArrow u ∨ HasOuterArrow v := by
  obtain ⟨tail, front, htext, hfront⟩ := h
  obtain ⟨more, hu', hmore⟩ | ⟨more, hfront', hmore⟩ := List.append_eq_append_iff.mp htext.symm
  · -- The arrow starts in `u`; a blank ends `u`, so the arrow ends there too.
    rcases more with _ | ⟨c, _ | ⟨d, more⟩⟩
    · exact absurd (List.cons.inj hmore).1 (by decide)
    · exact absurd (List.cons.inj (List.cons.inj hmore).2).1 (by decide)
    · obtain ⟨hc, hmore⟩ := List.cons.inj hmore
      obtain ⟨hd, -⟩ := List.cons.inj hmore
      exact .inl ⟨more, front, by rw [hu', hc, hd], hfront⟩
  · rcases more with _ | ⟨c, more⟩
    · exact absurd (List.cons.inj hmore).1 (by decide)
    · obtain ⟨hc, hmore⟩ := List.cons.inj hmore
      refine .inr ⟨tail, more, hmore, ?_⟩
      rw [hfront', ← hc, Brackets.behind?_append, hu] at hfront
      exact hfront

theorem not_hasOuterArrow_parens (hcs : Balanced cs) : ¬ HasOuterArrow ('(' :: cs ++ [')']) := by
  rintro ⟨v, hout⟩
  obtain ⟨hhead, -⟩ := List.cons.inj (hout.of_parens hcs (List.cons_ne_nil _ _))
  exact absurd hhead (by decide)

/-! ## Signatures -/

namespace HostType

variable {t result : HostType}

theorem hasArrow_append (u v : List Char) : hasArrow (u ++ '-' :: '>' :: v) := by
  induction u with
  | nil => rw [List.nil_append, hasArrow]
  | cons c u ih =>
    rw [List.cons_append]
    unfold hasArrow
    split
    · rfl
    next h => exact (List.cons.inj h).2 ▸ ih
    next h => cases h

theorem not_hasOuterArrow (h : ¬ hasArrow cs) : ¬ HasOuterArrow cs := by
  rintro ⟨v, u, rfl, -⟩
  exact h (hasArrow_append u v)

/-- A parameter is the text itself or the text in parentheses. -/
theorem toList_asParam (t : HostType) :
    t.asParam.toList = t.text.toList ∧ ¬ hasArrow t.text.toList ∨
      t.asParam.toList = '(' :: t.text.toList ++ [')'] := by
  unfold asParam
  by_cases h : hasArrow t.text.toList
  · refine .inr ?_
    rw [if_pos h, String.toList_append, String.toList_append]
    rfl
  · exact .inl ⟨by rw [if_neg h], h⟩

/-- No arrow of a parameter stands outside, whatever its text is. -/
theorem balanced_asParam (ht : Balanced t.text.toList) :
    Balanced t.asParam.toList ∧ ¬ HasOuterArrow t.asParam.toList := by
  obtain ⟨htext, hnone⟩ | htext := t.toList_asParam
  · rw [htext]
    exact ⟨ht, not_hasOuterArrow hnone⟩
  · rw [htext]
    exact ⟨ht.parens, not_hasOuterArrow_parens ht⟩

theorem arrowPieces_arrow (hparams : ∀ p ∈ params, Balanced p.text.toList)
    (hresult : Balanced result.text.toList) (hnone : ¬ HasOuterArrow result.text.toList) :
    arrowPieces (arrow params result).text.toList =
      params.map (·.asParam.toList) ++ [result.text.toList] := by
  show arrowPieces (" -> ".intercalate (params.map asParam ++ [result.text])).toList = _
  induction params with
  | nil => simpa using arrowPieces_eq_self hresult hnone
  | cons p params ih =>
    obtain ⟨hp, hparams⟩ := List.forall_mem_cons.mp hparams
    obtain ⟨hbalanced, harrow⟩ := balanced_asParam hp
    rw [List.map_cons, List.cons_append, String.intercalate_cons_of_ne_nil (by simp),
      String.append_assoc, String.toList_append, String.toList_append,
      arrowPieces_append hbalanced harrow, ih hparams]
    rfl

end HostType

namespace HostDeclaration

variable {d : HostDeclaration} {effect : String}

/-- The result of an action is no function either. -/
theorem balanced_declaredResult (heffect : Balanced effect.toList)
    (hpure : ¬ HasOuterArrow effect.toList) (hresult : Balanced d.result.text.toList)
    (hnone : ¬ HasOuterArrow d.result.text.toList) :
    Balanced (d.declaredResult effect).text.toList ∧
      ¬ HasOuterArrow (d.declaredResult effect).text.toList := by
  unfold declaredResult
  cases d.purity with
  | pure => exact ⟨hresult, hnone⟩
  | effectful =>
    show Balanced (HostType.apply effect [d.result]).text.toList ∧
      ¬ HasOuterArrow (HostType.apply effect [d.result]).text.toList
    have hargument := HostType.balanced_asArgument hresult
    rw [HostType.toList_apply, List.flatMap_singleton]
    refine ⟨heffect.append ((balanced_blank (by decide)).append hargument), fun h => ?_⟩
    obtain h | h := h.of_append_blank heffect
    · exact hpure h
    · obtain ⟨htext, -⟩ | ⟨htext, -⟩ := d.result.toList_asArgument
      · exact hnone (htext ▸ h)
      · exact not_hasOuterArrow_parens hresult (htext ▸ h)

/-- **A signature has the arity of its declaration.** Between the arrows outside of brackets stand
the parameters, each as it is or in parentheses, and behind the last of them the result, whether it
is that of an action or not. -/
theorem arrowPieces_signature (heffect : Balanced effect.toList)
    (hpure : ¬ HasOuterArrow effect.toList) (hparams : ∀ p ∈ d.params, Balanced p.text.toList)
    (hresult : Balanced d.result.text.toList) (hnone : ¬ HasOuterArrow d.result.text.toList) :
    ∃ pieces, pieces.length = d.params.length ∧
      List.Forall₂ (fun p piece => piece = p.text.toList ∨ piece = '(' :: p.text.toList ++ [')'])
        d.params pieces ∧
      arrowPieces (HostType.arrow d.params d.result).text.toList =
        pieces ++ [d.result.text.toList] ∧
      arrowPieces (d.signature effect).text.toList =
        pieces ++ [(d.declaredResult effect).text.toList] := by
  obtain ⟨hdeclared, hplain⟩ := balanced_declaredResult heffect hpure hresult hnone
  have hsignature : arrowPieces (d.signature effect).text.toList =
      (d.params.map fun p => p.asParam.toList) ++ [(d.declaredResult effect).text.toList] :=
    HostType.arrowPieces_arrow hparams hdeclared hplain
  refine ⟨d.params.map fun p => p.asParam.toList, List.length_map _, ?_,
    HostType.arrowPieces_arrow hparams hresult hnone, hsignature⟩
  rw [List.forall₂_map_right_iff, List.forall₂_same]
  exact fun p _ => p.toList_asParam.imp_left And.left

/-- An action that takes an action and a list: the arrow of the first parameter is in
parentheses. -/
theorem arrowPieces_signature_handler :
    let d : HostDeclaration :=
      ⟨"on", "on", .safe, .effectful, [⟨"Int32 -> IO ()"⟩, ⟨"[a]"⟩], ⟨"()"⟩⟩
    Balanced "IO".toList ∧ ¬ HasOuterArrow "IO".toList ∧
      (∀ p ∈ d.params, Balanced p.text.toList) ∧ Balanced d.result.text.toList ∧
      ¬ HasOuterArrow d.result.text.toList ∧
      (arrowPieces (d.signature "IO").text.toList).length = d.params.length + 1 ∧
      arrowPieces (d.signature "IO").text.toList =
        ["(Int32 -> IO ())".toList, "[a]".toList, "IO ()".toList] := by
  intro d
  have heffect : ¬ HasOuterArrow "IO".toList := HostType.not_hasOuterArrow (by decide)
  have hparams : ∀ p ∈ d.params, Balanced p.text.toList := by
    simp only [d, List.forall_mem_cons]
    exact ⟨by decide, by decide, fun p hp => absurd hp List.not_mem_nil⟩
  have hnone : ¬ HasOuterArrow d.result.text.toList := HostType.not_hasOuterArrow (by decide)
  obtain ⟨pieces, hlength, -, -, hsignature⟩ :=
    arrowPieces_signature (by decide) heffect hparams (by decide) hnone
  refine ⟨by decide, heffect, hparams, by decide, hnone, ?_, by decide +kernel⟩
  rw [hsignature, List.length_append, hlength]
  rfl

end HostDeclaration

end Graft

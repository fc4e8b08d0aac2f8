import Graft.Call.Haskell
import Graft.Proofs.Unit.Edits

/-!
# Edits in any order

The edits of a host file may be made in any order and with declarations between them. Spans that
lie apart are replaced each by its own text, and only the declarations are kept in the order in
which they were made.
-/

namespace Graft

/-! ## Edits one at a time -/

/-- One edit of a host file. -/
inductive Edit where
  | declare (declaration : HostDeclaration)
  | substitute (span : ByteSpan) (call : HostCall)
  | remove (span : ByteSpan)
  deriving DecidableEq, Repr

namespace Edit

/-- What an edit puts in the place of a span. -/
def replacement? (l : HostLanguage) : Edit → Option Replacement
  | declare _ => none
  | substitute span call => some ⟨span, l.renderCall call⟩
  | remove span => some ⟨span, ""⟩

/-- What an edit puts at the end of the file. -/
def declaration? (l : HostLanguage) : Edit → Option String
  | declare d => some (l.renderDeclaration d)
  | substitute .. | remove .. => none

end Edit

/-- The edits of a file with one more. -/
def Edits.perform (l : HostLanguage) (e : Edits) : Edit → Edits
  | .declare d => e.declare l d
  | .substitute span call => e.substitute l span call
  | .remove span => e.remove span

variable {l : HostLanguage} {edits : List Edit}

theorem Edits.foldl_perform (e : Edits) : edits.foldl (perform l) e =
    ⟨e.replacements ++ edits.filterMap (Edit.replacement? l),
      e.declarations ++ edits.filterMap (Edit.declaration? l)⟩ := by
  induction edits generalizing e with
  | nil => simp
  | cons edit edits ih =>
    rw [List.foldl_cons, ih]
    cases edit <;>
      simp [perform, declare, substitute, remove, Edit.replacement?, Edit.declaration?,
        List.filterMap_cons]

/-! ## Spans that lie apart -/

/-- The span is a stretch of the text: there is something in it, and no character is cut at its
ends. -/
structure ByteSpan.LiesIn (s : ByteSpan) (cs : List Char) : Prop where
  first_lt_last : s.first < s.last
  first : (splitAtByte? s.first cs).isSome
  last : (splitAtByte? s.last cs).isSome

instance (s : ByteSpan) (cs : List Char) : Decidable (s.LiesIn cs) :=
  decidable_of_iff (s.first < s.last ∧ (splitAtByte? s.first cs).isSome ∧
      (splitAtByte? s.last cs).isSome)
    ⟨fun ⟨h, hfirst, hlast⟩ => ⟨h, hfirst, hlast⟩, fun ⟨h, hfirst, hlast⟩ => ⟨h, hfirst, hlast⟩⟩

/-- Neither span reaches into the other. -/
def ByteSpan.Apart (s s' : ByteSpan) : Prop := s.last ≤ s'.first ∨ s'.last ≤ s.first

instance (s s' : ByteSpan) : Decidable (s.Apart s') := inferInstanceAs (Decidable (_ ∨ _))

/-- A text is cut behind what it starts with. -/
theorem exists_split {offset n : Nat} {before cs : List Char} (hbefore : byteLength before = offset)
    (hn : offset ≤ n) (h : (splitAtByte? n (before ++ cs)).isSome) :
    ∃ inside rest, cs = inside ++ rest ∧ n = offset + byteLength inside := by
  obtain ⟨⟨front, rest⟩, hsplit⟩ := Option.isSome_iff_exists.mp h
  obtain ⟨happend, hlength⟩ := eq_append_of_splitAtByte? hsplit
  rcases List.append_eq_append_iff.mp happend with ⟨inside, rfl, rfl⟩ | ⟨behind, rfl, rfl⟩
  · refine ⟨inside, rest, rfl, ?_⟩
    rw [byteLength_append] at hlength
    omega
  · -- The cut is no further back than the end of what the text starts with.
    refine ⟨[], cs, rfl, ?_⟩
    rw [byteLength_append] at hbefore
    rw [byteLength_nil]
    omega

/-- A text can be cut along spans that follow one another. -/
theorem Cut.exists_of_spans {offset : Nat} {before cs : List Char} {spans : List ByteSpan}
    (hbefore : byteLength before = offset) (hin : ∀ s ∈ spans, s.LiesIn (before ++ cs))
    (hbehind : ∀ s ∈ spans, offset ≤ s.first)
    (hnext : spans.Pairwise fun s s' => s.last ≤ s'.first) :
    ∃ gaps insides, Cut offset cs spans gaps insides := by
  induction spans generalizing offset before cs with
  | nil => exact ⟨_, _, .rest offset cs⟩
  | cons s spans ih =>
    obtain ⟨hlater, hnext⟩ := List.pairwise_cons.mp hnext
    have hs := hin s List.mem_cons_self
    obtain ⟨gap, rest, rfl, hfirst⟩ := exists_split hbefore (hbehind s List.mem_cons_self) hs.first
    have hgap : byteLength (before ++ gap) = s.first := by rw [byteLength_append, hbefore, hfirst]
    rw [← List.append_assoc] at hin hs
    obtain ⟨inside, rest, rfl, hlast⟩ := exists_split hgap (Nat.le_of_lt hs.first_lt_last) hs.last
    have hinside : inside ≠ [] := by
      rintro rfl
      have hlt := hs.first_lt_last
      rw [hlast, byteLength_nil] at hlt
      omega
    have hend : byteLength (before ++ gap ++ inside) = s.last := by
      rw [byteLength_append, hgap, hlast]
    rw [← List.append_assoc] at hin
    obtain ⟨gaps, insides, hcut⟩ :=
      ih hend (fun s' hs' => hin s' (List.mem_cons_of_mem s hs')) hlater hnext
    exact ⟨gap :: gaps, inside :: insides,
      List.append_assoc gap inside rest ▸ .span hfirst hlast hinside hcut⟩

/-- Stretches of a text that lie apart can be put in the order in which they stand in it. -/
theorem exists_inOrder {rs : List Replacement} {cs : List Char}
    (hin : ∀ r ∈ rs, r.span.LiesIn cs) (hapart : rs.Pairwise fun r r' => r.span.Apart r'.span) :
    ∃ rs' : List Replacement, rs'.Perm rs ∧ rs'.Pairwise fun r r' => r.span.last ≤ r'.span.first := by
  let sooner (r r' : Replacement) : Bool := r.span.first ≤ r'.span.first
  have hsooner : ∀ {r r'}, sooner r r' = true ↔ r.span.first ≤ r'.span.first := decide_eq_true_iff
  have hsorted : (rs.mergeSort sooner).Pairwise fun r r' => sooner r r' = true := by
    apply List.pairwise_mergeSort
    · intro a b c hab hbc
      rw [hsooner] at hab hbc ⊢
      omega
    · intro a b
      rw [Bool.or_eq_true, hsooner, hsooner]
      omega
  have hperm := List.mergeSort_perm rs sooner
  have hsymm : ∀ {r r' : Replacement}, r.span.Apart r'.span → r'.span.Apart r.span := Or.symm
  have hstill := (hperm.pairwise_iff hsymm).mpr hapart
  refine ⟨_, hperm, (hsorted.and hstill).imp_of_mem ?_⟩
  rintro r r' hr hr' ⟨hle, hlast | hlast⟩
  · exact hlast
  · -- Then the later one would end before it starts.
    have hlt := (hin r' (hperm.mem_iff.mp hr')).first_lt_last
    rw [hsooner] at hle
    omega

namespace Edits

/-- **Edits may be made in any order.** Where the spans to be replaced are stretches of the source
that lie apart, all edits can be applied: every span has its own text in its place, all between the
spans stays, and behind it, if there are declarations, stand on lines of their own an empty one, a
comment that names the unit and the declarations in the order in which they were made. So the host
text does not depend on the order of the replacements, nor on where declarations come between them.
-/
theorem apply_any_order (l : HostLanguage) (unit source : String) (edits : List Edit)
    (hin : ∀ r ∈ edits.filterMap (Edit.replacement? l), r.span.LiesIn source.toList)
    (hapart : (edits.filterMap (Edit.replacement? l)).Pairwise fun r r' => r.span.Apart r'.span) :
    (∃ (rs : List Replacement) (gaps insides : List (List Char)) (text : List Char),
      rs.Perm (edits.filterMap (Edit.replacement? l)) ∧
      Cut 0 source.toList (rs.map (·.span)) gaps insides ∧
      text = weave gaps (rs.map (·.text.toList)) ∧
      (edits.foldl (perform l) .empty).apply l unit source = .ok (.ofList text ++
        if edits.filterMap (Edit.declaration? l) = [] then ""
        else (if text.getLast? = some '\n' then "" else "\n") ++
          String.join (("" :: (l.comments.line ++ " generated by splicer for " ++ unit) ::
            edits.filterMap (Edit.declaration? l)).map (· ++ "\n")))) ∧
    ∀ edits' : List Edit,
      (edits'.filterMap (Edit.replacement? l)).Perm (edits.filterMap (Edit.replacement? l)) →
      edits'.filterMap (Edit.declaration? l) = edits.filterMap (Edit.declaration? l) →
      (edits'.foldl (perform l) .empty).apply l unit source =
        (edits.foldl (perform l) .empty).apply l unit source := by
  obtain ⟨rs, hperm, hnext⟩ := exists_inOrder hin hapart
  have hspans : ∀ s ∈ rs.map (·.span), s.LiesIn ([] ++ source.toList) := by
    intro s hs
    obtain ⟨r, hr, rfl⟩ := List.mem_map.mp hs
    exact hin r (hperm.mem_iff.mp hr)
  obtain ⟨gaps, insides, hcut⟩ := Cut.exists_of_spans byteLength_nil hspans
    (fun s _ => Nat.zero_le s.first) (List.pairwise_map.mpr hnext)
  have hzip : List.zipWith Replacement.mk (rs.map (·.span)) (rs.map (·.text)) = rs := by
    rw [List.zipWith_map, List.zipWith_self]
    exact List.map_id rs
  -- However the edits were made, what is put into the source is the same.
  have hreplaced : ∀ {edits' : List Edit},
      (edits'.filterMap (Edit.replacement? l)).Perm (edits.filterMap (Edit.replacement? l)) →
      (edits'.foldl (perform l) .empty).replaceAll source.toList =
        .ok (weave gaps (rs.map (·.text.toList))) := by
    intro edits' hsame
    rw [foldl_perform]
    have hzipped : (edits'.filterMap (Edit.replacement? l)).Perm
        (List.zipWith Replacement.mk (rs.map (·.span)) (rs.map (·.text))) := by
      rw [hzip]
      exact hsame.trans hperm.symm
    have hall := replaceAll_of_perm hcut (by simp) hzipped
      ([] ++ edits'.filterMap (Edit.declaration? l))
    rw [List.map_map] at hall
    exact hall
  refine ⟨⟨rs, gaps, insides, _, hperm, hcut, rfl, ?_⟩, fun edits' hsame hdeclarations => ?_⟩
  · rw [apply, hreplaced (.refl _), foldl_perform]
    show Except.ok (withDeclarations _ l unit _) = _
    rw [withDeclarations, HostLanguage.declarationsBlock_eq_join]
    cases edits.filterMap (Edit.declaration? l) with
    | nil => simp [empty]
    | cons d ds => simp [empty, String.append_assoc]
  · rw [apply, apply, hreplaced hsame, hreplaced (.refl _), foldl_perform, foldl_perform,
      hdeclarations]
    rfl

/-- Two quotes that touch, edited from the back of the file and from its front: the first is dropped,
a call takes the place of the second, and what the call refers to is declared. -/
theorem apply_any_order_touching :
    let source := "é = [a][b]\n"
    let declaration : HostDeclaration := ⟨"s", "g", .safe, .pure, [], ⟨"Int32"⟩⟩
    let fromBack : List Edit := [.substitute ⟨8, 11⟩ ⟨"g", []⟩, .declare declaration, .remove ⟨5, 8⟩]
    let fromFront : List Edit :=
      [.remove ⟨5, 8⟩, .substitute ⟨8, 11⟩ ⟨"g", []⟩, .declare declaration]
    let out := "é = g\n" ++
      "\n" ++
      "-- generated by splicer for Main.hs\n" ++
      "foreign import ccall safe \"s\" g :: Int32\n"
    (fromBack.foldl (perform haskell) .empty).apply haskell "Main.hs" source = .ok out ∧
    (fromFront.foldl (perform haskell) .empty).apply haskell "Main.hs" source = .ok out := by
  intro source declaration fromBack fromFront out
  have hback : (fromBack.foldl (perform haskell) .empty).apply haskell "Main.hs" source =
      .ok out := by
    -- Edits made from the back are in the order in which they are applied.
    have hsorted : (fromBack.foldl (perform haskell) .empty).replacements.mergeSort noLater = _ :=
      List.mergeSort_of_pairwise (by decide +kernel)
    rw [apply, replaceAll, hsorted]
    decide +kernel
  have hsame := (apply_any_order haskell "Main.hs" source fromFront (by decide) (by decide)).2
    fromBack (.swap _ _ []) rfl
  exact ⟨hback, hsame.symm.trans hback⟩

end Edits

end Graft

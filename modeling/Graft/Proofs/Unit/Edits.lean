import Mathlib.Data.List.Nodup
import Graft.Proofs.Quote.Cut
import Graft.Unit.Edits

/-!
# Replacing from the back

Replacements are applied to a text whose length changes with each of them. Those further back go
first, so that the bytes of a span are still where they were when its turn comes.
-/

namespace Graft

theorem replaceSpan_append (before inside after : List Char) {r : Replacement}
    (hfirst : r.span.first = byteLength before)
    (hlast : r.span.last = r.span.first + byteLength inside) :
    replaceSpan (before ++ inside ++ after) r = .ok (before ++ r.text.toList ++ after) := by
  have hbefore : splitAtByte? r.span.first (before ++ inside ++ after) =
      some (before, inside ++ after) := by
    rw [hfirst, List.append_assoc]
    exact splitAtByte?_byteLength _ _
  have hafter : splitAtByte? r.span.last (before ++ inside ++ after) =
      some (before ++ inside, after) := by
    rw [hlast, hfirst, ← byteLength_append]
    exact splitAtByte?_byteLength _ _
  rw [replaceSpan, hbefore, hafter]
  simp only
  rw [if_pos (by omega)]

/-- Replaced from the back, no span moves before its turn. -/
theorem Cut.foldlM_replaceSpan {offset : Nat} {before cs : List Char} {spans : List ByteSpan}
    {gaps insides : List (List Char)} (h : Cut offset cs spans gaps insides)
    (hbefore : byteLength before = offset) {texts : List String}
    (htexts : texts.length = spans.length) :
    (List.zipWith Replacement.mk spans texts).reverse.foldlM replaceSpan (before ++ cs) =
      .ok (before ++ weave gaps (texts.map String.toList)) := by
  induction h generalizing before texts with
  | rest offset gap =>
    rw [List.length_eq_zero_iff.mp htexts]
    simp [weave, pure, Except.pure]
  | @span offset first last gap inside cs spans gaps insides hfirst hlast hinside _ ih =>
    obtain ⟨text, texts, rfl⟩ := List.exists_cons_of_length_eq_add_one htexts
    -- All that is further back goes first, with this gap and span still as they were.
    have hlength : byteLength (before ++ gap ++ inside) = last := by
      rw [byteLength_append, byteLength_append]
      omega
    have hcs : before ++ (gap ++ inside ++ cs) = before ++ gap ++ inside ++ cs := by simp
    have hlater := ih hlength (Nat.succ.inj htexts)
    rw [List.zipWith_cons_cons, List.reverse_cons, List.foldlM_append, hcs, hlater]
    show [Replacement.mk ⟨first, last⟩ text].foldlM replaceSpan _ = _
    rw [List.foldlM_cons, replaceSpan_append (before ++ gap) inside _ ?_ hlast]
    · simp [weave, pure, Except.pure, bind, Except.bind]
    · rw [byteLength_append]
      show first = _
      omega

namespace Edits

theorem noLater_iff {a b : Replacement} : noLater a b = true ↔ b.span.first ≤ a.span.first :=
  decide_eq_true_iff

/-- Replacements that start at different bytes are sorted in one way only. -/
theorem mergeSort_noLater {rs rs' : List Replacement} (hperm : rs'.Perm rs)
    (h : rs.Pairwise fun r r' => r.span.first < r'.span.first) :
    rs'.mergeSort noLater = rs.reverse := by
  have hdistinct : (rs.map (·.span.first)).Nodup := by
    rw [List.Nodup, List.pairwise_map]
    exact h.imp fun hlt => Nat.ne_of_lt hlt
  have hback : rs.reverse.Pairwise fun r r' => noLater r r' = true := by
    rw [List.pairwise_reverse]
    refine h.imp ?_
    intro r r' hlt
    rw [noLater_iff]
    omega
  have hsorted : (rs'.mergeSort noLater).Pairwise fun r r' => noLater r r' = true := by
    apply List.pairwise_mergeSort
    · intro a b c hab hbc
      rw [noLater_iff] at hab hbc ⊢
      omega
    · intro a b
      rw [Bool.or_eq_true, noLater_iff, noLater_iff]
      omega
  refine List.Perm.eq_of_pairwise ?_ hsorted hback
    ((List.mergeSort_perm rs' noLater).trans (hperm.trans (List.reverse_perm rs).symm))
  -- Replacements are not compared by their texts, but no two start at one byte.
  intro r r' hr hr' hle hge
  have hfirst : r.span.first = r'.span.first := by
    rw [noLater_iff] at hle hge
    omega
  exact List.inj_on_of_nodup_map hdistinct (hperm.mem_iff.mp (List.mem_mergeSort.mp hr))
    (List.mem_reverse.mp hr') hfirst

/-- The edits of a cut file put a text in the place of every span, in whichever order they were
made. -/
theorem replaceAll_of_perm {source : List Char} {spans : List ByteSpan}
    {gaps insides : List (List Char)} (h : Cut 0 source spans gaps insides) {texts : List String}
    (htexts : texts.length = spans.length) {rs : List Replacement}
    (hperm : rs.Perm (List.zipWith Replacement.mk spans texts)) (declarations : List String) :
    replaceAll ⟨rs, declarations⟩ source = .ok (weave gaps (texts.map String.toList)) := by
  have hspans : (List.zipWith Replacement.mk spans texts).map (·.span) = spans := by
    rw [← List.map_uncurry_zip_eq_zipWith, List.map_map]
    exact List.map_fst_zip (Nat.le_of_eq htexts.symm)
  have hpairwise : (List.zipWith Replacement.mk spans texts).Pairwise
      fun r r' => r.span.first < r'.span.first := by
    have hstarts := h.pairwise.1
    rw [← hspans, List.pairwise_map] at hstarts
    exact hstarts
  rw [replaceAll, mergeSort_noLater hperm hpairwise]
  exact h.foldlM_replaceSpan byteLength_nil htexts

/-- The edits of a cut file put a text in the place of every span. -/
theorem replaceAll_of_cut {source : List Char} {spans : List ByteSpan}
    {gaps insides : List (List Char)} (h : Cut 0 source spans gaps insides) {texts : List String}
    (htexts : texts.length = spans.length) (declarations : List String) :
    replaceAll ⟨List.zipWith Replacement.mk spans texts, declarations⟩ source =
      .ok (weave gaps (texts.map String.toList)) :=
  replaceAll_of_perm h htexts (List.Perm.refl _) declarations

end Edits

end Graft

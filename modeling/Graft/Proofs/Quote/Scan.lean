import Graft.Proofs.Quote.Cut
import Graft.Quote.Scan

/-!
# A scan cuts the file

The quotes of a scan stand in the file as they were read, one behind the other, and what is left of
the file lies between them.
-/

namespace Graft

namespace Scan

/-- The text of a quote, brackets included. -/
def Found.text (f : Found) : List Char := '[' :: f.quoter ++ '|' :: f.body ++ ['|', ']']

theorem Found.span_last (f : Found) : f.span.last = f.first + byteLength f.text := by
  simp only [span, bodyFirst, text, List.cons_append, byteLength_cons, byteLength_append,
    byteLength_nil]
  have hbracket : '['.utf8Size = 1 := rfl
  have hbar : '|'.utf8Size = 1 := rfl
  have hclose : ']'.utf8Size = 1 := rfl
  omega

theorem beforeEnd?_eq_some {cs body : List Char} (h : beforeEnd? cs = some body) :
    ∃ rest, cs = body ++ '|' :: ']' :: rest := by
  induction cs using beforeEnd?.induct generalizing body with
  | case1 rest =>
    rw [beforeEnd?] at h
    rw [← Option.some.inj h]
    exact ⟨rest, rfl⟩
  | case2 c cs hne ih =>
    rw [beforeEnd?.eq_2 _ _ hne] at h
    obtain ⟨body', hbody, rfl⟩ := Option.map_eq_some_iff.mp h
    obtain ⟨rest, rfl⟩ := ih hbody
    exact ⟨rest, rfl⟩
  | case3 => cases h

theorem quoterName_append_drop (cs : List Char) :
    quoterName cs ++ cs.drop (quoterName cs).length = cs := by
  rw [← List.prefix_iff_eq_append]
  cases cs with
  | nil => exact List.prefix_rfl
  | cons c cs =>
    rw [quoterName]
    split
    · exact List.cons_prefix_cons.mpr ⟨rfl, List.takeWhile_prefix _⟩
    · exact List.nil_prefix

/-- What reads as a quote is one, for a quoter that is known. -/
theorem quote?_eq_quote {isQuoter : String → Bool} {cs quoter body : List Char}
    (h : quote? isQuoter cs = some (.quote quoter body)) :
    isQuoter (.ofList quoter) ∧ ∃ rest, cs = quoter ++ '|' :: body ++ '|' :: ']' :: rest := by
  have hname := quoterName_append_drop cs
  unfold quote? at h
  simp only at h
  split at h
  next after hafter =>
    rw [hafter] at hname
    split at h
    · cases h
    next hknown =>
      split at h
      next body' hbody =>
        obtain ⟨hquoter, rfl⟩ := Lexeme.quote.inj (Option.some.inj h)
        obtain ⟨rest, rfl⟩ := beforeEnd?_eq_some hbody
        rw [Bool.or_eq_true, not_or, Bool.not_eq_true', Bool.not_eq_false] at hknown
        rw [hquoter] at hknown hname
        refine ⟨hknown.2, rest, ?_⟩
        rw [← hname]
        simp
      next => cases h
  next => cases h

theorem lexeme_eq_quote {marks : CommentSyntax} {isQuoter : String → Bool} {depth : Nat}
    {before : Option Char} {cs quoter body : List Char}
    (h : lexeme marks isQuoter depth before cs = .quote quoter body) :
    isQuoter (.ofList quoter) ∧
      ∃ rest, cs = '[' :: quoter ++ '|' :: body ++ '|' :: ']' :: rest := by
  unfold lexeme at h
  split at h
  next =>
    unfold inCode at h
    split at h
    · cases h
    split at h
    · cases h
    split at h
    · cases h
    · cases h
    next inside _ _ =>
      cases hquote : quote? isQuoter inside with
      | none =>
        rw [hquote] at h
        cases h
      | some found =>
        rw [hquote, Option.getD_some] at h
        rw [h] at hquote
        obtain ⟨hknown, rest, rfl⟩ := quote?_eq_quote hquote
        exact ⟨hknown, rest, rfl⟩
    · cases h
  next =>
    unfold inBlock at h
    split at h
    · split at h
      · cases h
      split at h <;> cases h
    · cases h

/-- A scan that starts at the byte `offset` cuts the text along the quotes that it finds. -/
theorem run_cut {marks : CommentSyntax} {isQuoter : String → Bool} {depth : Nat}
    {before : Option Char} {offset : Nat} {cs : List Char} {found : List Found}
    (h : run marks isQuoter depth before offset cs = .ok found) :
    (∃ gaps, Cut offset cs (found.map Found.span) gaps (found.map Found.text)) ∧
      ∀ f ∈ found, isQuoter (.ofList f.quoter) := by
  -- Text that holds no quote goes to the front of the first gap behind it.
  fun_induction run marks isQuoter depth before offset cs generalizing found with
  | case1 depth before offset =>
    rw [← Except.ok.inj h]
    exact ⟨⟨_, .rest offset []⟩, by simp⟩
  | case2 => cases h
  | case3 depth before offset cs hcs length depth' hlexeme taken =>
    rename_i ih
    obtain ⟨⟨gaps, hcut⟩, hknown⟩ := ih h
    obtain ⟨gaps', hcut⟩ := hcut.prepend
    rw [List.take_append_drop] at hcut
    exact ⟨⟨gaps', hcut⟩, hknown⟩
  | case4 depth before offset cs hcs quoter body hlexeme =>
    rename_i f more hmore ih
    obtain ⟨hquoter, rest, hcs⟩ := lexeme_eq_quote hlexeme
    have htext : cs = f.text ++ rest := by
      rw [hcs]
      simp [Found.text, f]
    have hdrop : cs.drop (quoter.length + body.length + 4) = rest := by
      have hlength : quoter.length + body.length + 4 = f.text.length := by
        simp only [Found.text, f, List.cons_append, List.length_cons, List.length_append,
          List.length_nil]
        omega
      rw [hlength, htext, List.drop_left]
    obtain ⟨⟨gaps, hcut⟩, hknown⟩ := ih hmore
    rw [hdrop] at hcut
    have hspan : Cut offset ([] ++ f.text ++ rest) (f.span :: more.map Found.span) ([] :: gaps)
        (f.text :: more.map Found.text) := .span rfl f.span_last (List.cons_ne_nil _ _) hcut
    rw [← Except.ok.inj h, htext]
    refine ⟨⟨[] :: gaps, hspan⟩, ?_⟩
    intro g hg
    rcases List.mem_cons.mp hg with rfl | hg
    · exact hquoter
    · exact hknown g hg
  | case5 => cases h

end Scan

namespace Quote

/-- The text of a quote, brackets included. -/
def text (q : Quote) : List Char :=
  '[' :: q.quoter.toList ++ '|' :: q.body.toList ++ ['|', ']']

/-- **A scan cuts the file.** The file is what lies between the quotes with the quotes where their
spans are, and every quote has a quoter that is known. -/
theorem scan_cut {source : String} {marks : CommentSyntax} {isQuoter : String → Bool}
    {quotes : List Quote} (h : scan source marks isQuoter = .ok quotes) :
    (∃ gaps, Cut 0 source.toList (quotes.map (·.span)) gaps (quotes.map text)) ∧
      ∀ q ∈ quotes, isQuoter q.quoter := by
  unfold scan at h
  simp only at h
  split at h
  next found hfound =>
    obtain ⟨⟨gaps, hcut⟩, hknown⟩ := Scan.run_cut hfound
    rw [← Except.ok.inj h]
    constructor
    · refine ⟨gaps, ?_⟩
      have hspan :
          (found.map (ofFound source.toList)).map (·.span) = found.map Scan.Found.span := by
        simp [ofFound, Function.comp_def]
      have htext : (found.map (ofFound source.toList)).map text = found.map Scan.Found.text := by
        simp [ofFound, text, Scan.Found.text, Function.comp_def]
      rw [hspan, htext]
      exact hcut
    · intro q hq
      obtain ⟨f, hf, rfl⟩ := List.mem_map.mp hq
      exact hknown f hf
  next => cases h

theorem ofFound_of_scan {source : String} {marks : CommentSyntax} {isQuoter : String → Bool}
    {quotes : List Quote} (h : scan source marks isQuoter = .ok quotes) {q : Quote}
    (hq : q ∈ quotes) :
    ∃ f, q = ofFound source.toList f := by
  unfold scan at h
  simp only at h
  split at h
  next found hfound =>
    rw [← Except.ok.inj h] at hq
    obtain ⟨f, hf, rfl⟩ := List.mem_map.mp hq
    exact ⟨f, rfl⟩
  · cases h

/-- The file has each quote where its span says. -/
theorem stands_of_scan {source : String} {marks : CommentSyntax} {isQuoter : String → Bool}
    {quotes : List Quote} (h : scan source marks isQuoter = .ok quotes) {q : Quote}
    (hq : q ∈ quotes) :
    q.span.first < q.span.last ∧ q.span.last ≤ byteLength source.toList ∧
      slice? source.toList q.span.first q.span.last = some q.text := by
  obtain ⟨⟨gaps, hcut⟩, -⟩ := scan_cut h
  have hslices := hcut.slices byteLength_nil
  rw [List.forall₂_map_left_iff, List.forall₂_map_right_iff, List.forall₂_same] at hslices
  simpa using hslices q hq

end Quote

end Graft

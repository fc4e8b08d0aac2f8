import Graft.Proofs.Quote.Locality
import Graft.Proofs.Result

/-!
# Dashes in operators

Two dashes start a comment only where they are not part of a longer operator. A scan reads an
operator character by character and looks only ahead: dashes before another operator symbol are
code, and dashes at the end of an operator start a comment.
-/

namespace Graft

namespace Scan

variable {isQuoter : String → Bool} {seen run symbols rest : List Char} {n : Nat}

/-- Characters that operators are made of. -/
def IsOperatorChar (c : Char) : Prop := isOperatorSymbol c ∨ c = '-'

/-- An operator with two dashes in a row and another symbol, between characters that do not belong
to it. -/
structure IsDashedOperator (seen run rest : List Char) : Prop where
  chars : ∀ c ∈ run, IsOperatorChar c
  starts : ∀ c ∈ seen.getLast?, ¬ IsOperatorChar c
  ends : ∀ c ∈ rest.head?, ¬ IsOperatorChar c
  dashes : ['-', '-'] <:+: run
  longer : ∃ c ∈ run, c ≠ '-'

theorem IsOperatorChar.ne {c d : Char} (h : IsOperatorChar c) (hd : isOperatorSymbol d = false)
    (hdash : d ≠ '-') : c ≠ d := by
  rintro rfl
  rcases h with h | h
  · rw [hd] at h
    cases h
  · exact hdash h

/-- A text ends in a number of dashes, before which no other stands. -/
theorem exists_final_dashes (run : List Char) :
    ∃ symbols n, run = symbols ++ List.replicate n '-' ∧ ∀ c ∈ symbols.getLast?, c ≠ '-' := by
  obtain ⟨n, symbols, hrun, hsymbols⟩ := exists_replicate_append '-' run.reverse
  refine ⟨symbols.reverse, n, ?_, ?_⟩
  · rw [← List.reverse_replicate, ← List.reverse_append, ← hrun, List.reverse_reverse]
  · rw [List.getLast?_reverse]
    exact hsymbols

/-- Dashes start a comment if there are two of them at least and no operator symbol follows. -/
theorem lineCommentStarts_dashes (hrest : ∀ c ∈ rest.head?, c ≠ '-') :
    LineCommentStarts "--" (List.replicate n '-' ++ rest) ↔
      2 ≤ n ∧ ∀ c ∈ rest.head?, isOperatorSymbol c = false := by
  constructor
  · rintro ⟨final, k, after, hfinal, hcs, hafter⟩
    obtain rfl : '-' = final := Option.some.inj hfinal
    have hcs : List.replicate n '-' ++ rest = List.replicate (k + 2) '-' ++ after := hcs
    have hsame : rest = after := by
      have hdrop := congrArg (List.dropWhile (· = '-')) hcs
      rwa [dropWhile_replicate_append '-' n hrest,
        dropWhile_replicate_append '-' (k + 2) fun c hc => (hafter c hc).1] at hdrop
    have hlength := congrArg List.length hcs
    simp only [hsame, List.length_append, List.length_replicate] at hlength
    refine ⟨by omega, ?_⟩
    rw [hsame]
    exact fun c hc => (hafter c hc).2
  · rintro ⟨hn, hsymbol⟩
    obtain ⟨k, rfl⟩ := Nat.exists_eq_add_of_le' hn
    exact ⟨'-', k, rest, rfl, rfl, fun c hc => ⟨hrest c hc, hsymbol c hc⟩⟩

/-! ## Operators character by character -/

/-- A character that opens nothing is code if no comment starts there. -/
theorem reads_single {c : Char} {cs : List Char} (hblock : c ≠ '\x7b') (hchar : c ≠ '\'')
    (hstring : c ≠ '"') (hquote : c ≠ '[') (hline : ¬ LineCommentStarts "--" (c :: cs))
    (isQuoter : String → Bool) (before : Option Char) :
    Reads haskell.comments isQuoter 0 before (c :: cs) (.single c) 0 := by
  refine .single ?_ (fun h => absurd h hchar) hstring ?_
  · rintro (h | h)
    · exact Quote.not_blockOpens_of_head hblock cs h
    · exact hline h
  · rintro quoter after ⟨hcs, -⟩
    exact hquote (List.cons.inj hcs).1

theorem not_lineCommentStarts_of_head {c : Char} (hc : c ≠ '-') (cs : List Char) :
    ¬ LineCommentStarts "--" (c :: cs) := by
  rintro ⟨final, n, after, -, hcs, -⟩
  exact hc (List.cons.inj hcs).1

/-- Where no comment starts in an operator, all of its characters are code. -/
theorem steps_operator (hrun : ∀ c ∈ run, IsOperatorChar c)
    (hcomment : ∀ cs, cs ≠ [] → cs <:+ run → ¬ LineCommentStarts "--" (cs ++ rest))
    (isQuoter : String → Bool) (seen : List Char) :
    Steps haskell.comments isQuoter ⟨0, seen, run ++ rest⟩ (run.map .single)
      ⟨0, seen ++ run, rest⟩ := by
  induction run generalizing seen with
  | nil =>
    rw [List.append_nil]
    exact .refl _
  | cons c run ih =>
    have hc := hrun c List.mem_cons_self
    have hhead := reads_single (hc.ne (by decide) (by decide)) (hc.ne (by decide) (by decide))
      (hc.ne (by decide) (by decide)) (hc.ne (by decide) (by decide))
      (hcomment (c :: run) (List.cons_ne_nil _ _) List.suffix_rfl) isQuoter seen.getLast?
    have htail := ih (fun d hd => hrun d (List.mem_cons_of_mem _ hd))
      (fun cs hne hcs => hcomment cs hne (hcs.trans (List.suffix_cons c run))) (seen ++ [c])
    rw [List.append_assoc] at htail
    exact .step (hhead.step rfl) htail

/-- No comment starts in an operator before its last symbol that is no dash. -/
theorem not_lineCommentStarts_of_suffix {cs : List Char}
    (hsymbols : ∀ c ∈ symbols, IsOperatorChar c) (hlast : ∀ c ∈ symbols.getLast?, c ≠ '-')
    (hne : cs ≠ []) (hcs : cs <:+ symbols) (rest : List Char) :
    ¬ LineCommentStarts "--" (cs ++ rest) := by
  obtain ⟨n, after, rfl, hafter⟩ := exists_replicate_append '-' cs
  cases after with
  | nil =>
    -- The last symbol would be a dash.
    rw [List.append_nil] at hne hcs
    have hn : n ≠ 0 := fun h => hne (by rw [h]; rfl)
    have hdash : (List.replicate n '-').getLast? = some '-' := by
      rw [List.getLast?_replicate, if_neg hn]
    obtain ⟨before, rfl⟩ := hcs
    refine absurd rfl (hlast '-' ?_)
    rw [List.getLast?_append, hdash]
    rfl
  | cons c after =>
    have hafter' : ∀ d ∈ (c :: (after ++ rest)).head?, d ≠ '-' := hafter
    rw [List.append_assoc, List.cons_append, lineCommentStarts_dashes hafter']
    rintro ⟨-, hsymbol⟩
    have hc : IsOperatorChar c := hsymbols c (hcs.subset (by simp))
    rw [IsOperatorChar, hsymbol c rfl] at hc
    rcases hc with hc | hc
    · cases hc
    · exact hafter c rfl hc

/-- The symbols of an operator before its final dashes are code. -/
theorem steps_symbols (hsymbols : ∀ c ∈ symbols, IsOperatorChar c)
    (hlast : ∀ c ∈ symbols.getLast?, c ≠ '-') (isQuoter : String → Bool) (seen rest : List Char) :
    Steps haskell.comments isQuoter ⟨0, seen, symbols ++ rest⟩ (symbols.map .single)
      ⟨0, seen ++ symbols, rest⟩ :=
  steps_operator hsymbols
    (fun _ hne hcs => not_lineCommentStarts_of_suffix hsymbols hlast hne hcs rest) isQuoter seen

theorem IsDashedOperator.ends_ne (h : IsDashedOperator seen run rest) :
    ∀ c ∈ rest.head?, c ≠ '-' ∧ isOperatorSymbol c = false := by
  intro c hc
  have hends := h.ends c hc
  rw [IsOperatorChar, not_or, Bool.not_eq_true] at hends
  exact ⟨hends.2, hends.1⟩

theorem suffix_dashes_iff (hlast : ∀ c ∈ symbols.getLast?, c ≠ '-') :
    ['-', '-'] <:+ symbols ++ List.replicate n '-' ↔ 2 ≤ n := by
  have hnone : ¬ ['-'] <:+ symbols := by
    rintro ⟨before, rfl⟩
    exact absurd rfl (hlast '-' (by simp))
  constructor
  · intro h
    rcases n with - | - | n
    · rw [List.replicate_zero, List.append_nil] at h
      exact absurd ((List.suffix_append ['-'] ['-']).trans h) hnone
    · have hconcat : ['-'] ++ ['-'] <:+ symbols ++ ['-'] := h
      exact absurd ((List.suffix_append_inj_of_length_eq rfl).mp hconcat).1 hnone
    · omega
  · intro hn
    obtain ⟨k, rfl⟩ := Nat.exists_eq_add_of_le' hn
    refine ⟨symbols ++ List.replicate k '-', ?_⟩
    rw [List.replicate_add, List.append_assoc]
    rfl

/-- Behind an operator that does not end in two dashes, code goes on. -/
theorem IsDashedOperator.steps (hrun : IsDashedOperator seen run rest)
    (hdashes : ¬ ['-', '-'] <:+ run) (isQuoter : String → Bool) :
    Steps haskell.comments isQuoter ⟨0, seen, run ++ rest⟩ (run.map .single)
      ⟨0, seen ++ run, rest⟩ := by
  obtain ⟨symbols, n, rfl, hlast⟩ := exists_final_dashes run
  rw [suffix_dashes_iff hlast] at hdashes
  have hchars := List.forall_mem_append.mp hrun.chars
  have hfinal : Steps haskell.comments isQuoter ⟨0, seen ++ symbols, List.replicate n '-' ++ rest⟩
      ((List.replicate n '-').map .single) ⟨0, seen ++ symbols ++ List.replicate n '-', rest⟩ := by
    refine steps_operator hchars.2 (fun cs hne hcs => ?_) isQuoter _
    obtain ⟨hlength, hcs⟩ := List.suffix_replicate_iff.mp hcs
    rw [hcs, lineCommentStarts_dashes fun c hc => (hrun.ends_ne c hc).1]
    omega
  have hall := (steps_symbols hchars.1 hlast isQuoter seen (List.replicate n '-' ++ rest)).append
    hfinal
  rwa [← List.map_append, List.append_assoc, ← List.append_assoc symbols] at hall

/-- Two dashes at the end of an operator take the rest of the line along. -/
theorem IsDashedOperator.steps_comment (hrun : IsDashedOperator seen run rest)
    (hdashes : ['-', '-'] <:+ run) (isQuoter : String → Bool) :
    ∃ symbols n comment behind, run = symbols ++ List.replicate n '-' ∧ 2 ≤ n ∧
      rest = comment ++ behind ∧ '\n' ∉ comment ∧ (∀ c ∈ behind.head?, c = '\n') ∧
      Steps haskell.comments isQuoter ⟨0, seen, run ++ rest⟩
        (symbols.map .single ++ [.lineComment (List.replicate n '-' ++ comment)])
        ⟨0, seen ++ run ++ comment, behind⟩ := by
  obtain ⟨symbols, n, rfl, hlast⟩ := exists_final_dashes run
  rw [suffix_dashes_iff hlast] at hdashes
  obtain ⟨comment, behind, rfl, hcomment, hbehind⟩ := exists_line rest
  refine ⟨symbols, n, comment, behind, rfl, hdashes, rfl, hcomment, hbehind, ?_⟩
  have hstarts : LineCommentStarts haskell.comments.line
      (List.replicate n '-' ++ comment ++ behind) := by
    rw [List.append_assoc]
    exact (lineCommentStarts_dashes fun c hc => (hrun.ends_ne c hc).1).mpr
      ⟨hdashes, fun c hc => (hrun.ends_ne c hc).2⟩
  have hblock : ¬ BlockOpens haskell.comments (List.replicate n '-' ++ comment ++ behind) := by
    obtain ⟨k, rfl⟩ := Nat.exists_eq_add_of_le' hdashes
    exact Quote.not_blockOpens_of_head (by decide) _
  have hreads : Reads haskell.comments isQuoter 0 (seen ++ symbols).getLast?
      (List.replicate n '-' ++ comment ++ behind)
      (.lineComment (List.replicate n '-' ++ comment)) 0 :=
    .lineComment hblock hstarts (by simp [hcomment]) hbehind
  have hlead := steps_symbols (List.forall_mem_append.mp hrun.chars).1 hlast isQuoter seen
    (List.replicate n '-' ++ comment ++ behind)
  have hall := hlead.append (.step (hreads.step rfl) (.refl _))
  simpa only [Piece.text, List.append_assoc] using hall

end Scan

namespace Quote

open Scan

variable {isQuoter : String → Bool} {source : String} {pieces : List Piece} {p q : Place}
  {seen run rest quoter body : List Char}

/-- A quote that a scan comes to is among what the scan finds, if the scan does not fail behind
it. -/
theorem scan_at_quote
    (hsteps : Steps haskell.comments isQuoter (.start source.toList) pieces p)
    (hquote : Step haskell.comments isQuoter p (.quote quoter body) q) :
    (∀ quotes, scan source haskell.comments isQuoter = .ok quotes →
      ofFound source.toList ⟨quoter, body, byteLength p.seen⟩ ∈ quotes) ∧
    ∀ d, scan source haskell.comments isQuoter = .error d →
      ∃ more last unended, Steps haskell.comments isQuoter q more last ∧
        last.Unending haskell.comments isQuoter unended := by
  have hmarks := haskell_comments_wellFormed
  obtain ⟨more, last, hmore, hfinal⟩ := q.exists_steps hmarks isQuoter
  have hall := hsteps.append (.step hquote hmore)
  rcases hfinal with hrest | ⟨unended, hunending⟩
  · rw [scan_of_rest_eq_nil hmarks hall hrest]
    refine ⟨fun quotes h => ?_, fun d h => (by cases h)⟩
    have hseen : byteLength (pieces.map Piece.text).flatten = byteLength p.seen := by
      rw [hsteps.text_eq.1]
      rfl
    rw [← Except.ok.inj h]
    refine List.mem_map_of_mem ?_
    rw [quotesFrom_append, hseen, Nat.zero_add]
    exact List.mem_append_right _ List.mem_cons_self
  · rw [scan_of_unending hmarks hall hunending]
    exact ⟨fun quotes h => (by cases h),
      fun d _ => ⟨more, last, unended, hmore, hunending⟩⟩

theorem step_quote (hname : IsQuoterName quoter) (hknown : isQuoter (.ofList quoter))
    (hbody : NoEnd body) (seen rest : List Char) :
    Step haskell.comments isQuoter ⟨0, seen, (Piece.quote quoter body).text ++ rest⟩
      (.quote quoter body) ⟨0, seen ++ (Piece.quote quoter body).text, rest⟩ := by
  have hcomment : ¬ CommentStarts haskell.comments ((Piece.quote quoter body).text ++ rest) := by
    rintro (h | ⟨final, n, after, -, hcs, -⟩)
    · exact not_blockOpens_of_head (by decide) _ h
    · exact absurd (List.cons.inj hcs).1 (by decide)
  have hopens : QuoteOpens isQuoter quoter (body ++ '|' :: ']' :: rest)
      ((Piece.quote quoter body).text ++ rest) := ⟨by simp [Piece.text], hname, hknown⟩
  exact .read (.quote hcomment hopens hbody)

/-- **Dashes in an operator start a comment only at its end.** A longer operator that does not end
in two dashes is code, character by character, and a quote that code behind it comes to is found.
One that ends in two dashes or more is code up to these, which take the rest of the line along. -/
theorem scan_dashedOperator (isQuoter : String → Bool) (hrun : IsDashedOperator seen run rest)
    (hsteps : Steps haskell.comments isQuoter (.start source.toList) pieces
      ⟨0, seen, run ++ rest⟩) :
    (¬ ['-', '-'] <:+ run →
      Steps haskell.comments isQuoter (.start source.toList) (pieces ++ run.map .single)
        ⟨0, seen ++ run, rest⟩ ∧
      ∀ more before quoter body behind, Steps haskell.comments isQuoter ⟨0, seen ++ run, rest⟩ more
          ⟨0, before, (Piece.quote quoter body).text ++ behind⟩ →
        IsQuoterName quoter → isQuoter (.ofList quoter) → NoEnd body →
        (∀ quotes, scan source haskell.comments isQuoter = .ok quotes →
          ofFound source.toList ⟨quoter, body, byteLength before⟩ ∈ quotes) ∧
        ∀ d, scan source haskell.comments isQuoter = .error d →
          ∃ more' last unended, Steps haskell.comments isQuoter
            ⟨0, before ++ (Piece.quote quoter body).text, behind⟩ more' last ∧
            last.Unending haskell.comments isQuoter unended) ∧
    (['-', '-'] <:+ run →
      ∃ symbols n comment behind, run = symbols ++ List.replicate n '-' ∧ 2 ≤ n ∧
        rest = comment ++ behind ∧ '\n' ∉ comment ∧ (∀ c ∈ behind.head?, c = '\n') ∧
        Steps haskell.comments isQuoter (.start source.toList)
          (pieces ++ (symbols.map .single ++ [.lineComment (List.replicate n '-' ++ comment)]))
          ⟨0, seen ++ run ++ comment, behind⟩) := by
  constructor
  · intro hdashes
    have hoperator := hsteps.append (hrun.steps hdashes isQuoter)
    refine ⟨hoperator, fun more before quoter body behind hmore hname hknown hbody => ?_⟩
    exact scan_at_quote (hoperator.append hmore)
      (step_quote hname hknown hbody before behind)
  · intro hdashes
    obtain ⟨symbols, n, comment, behind, hrun', hn, hrest, hcomment, hbehind, hread⟩ :=
      hrun.steps_comment hdashes isQuoter
    exact ⟨symbols, n, comment, behind, hrun', hn, hrest, hcomment, hbehind, hsteps.append hread⟩

theorem step_plain {c : Char} (hc : c = 'a' ∨ c = ' ') (seen rest : List Char) :
    Step haskell.comments QuoteKind.isQuoter ⟨0, seen, c :: rest⟩ (.single c)
      ⟨0, seen ++ [c], rest⟩ := by
  have hreads : Reads haskell.comments QuoteKind.isQuoter 0 seen.getLast? (c :: rest)
      (.single c) 0 := by
    refine reads_single ?_ ?_ ?_ ?_ (not_lineCommentStarts_of_head ?_ rest) _ _ <;>
      rcases hc with rfl | rfl <;> decide
  exact hreads.step rfl

theorem steps_operand (rest : List Char) :
    Steps haskell.comments QuoteKind.isQuoter (.start ('a' :: ' ' :: rest))
      [.single 'a', .single ' '] ⟨0, ['a', ' '], rest⟩ :=
  .step (step_plain (.inl rfl) [] _) (.step (step_plain (.inr rfl) ['a'] rest) (.refl _))

/-- An operator goes on behind its dashes. -/
theorem scan_dashedOperator_arrow :
    let source := "a --> [rust| () { } |]"
    let run := ['-', '-', '>']
    let quote := Piece.quote "rust".toList " () { } ".toList
    IsDashedOperator ['a', ' '] run (' ' :: quote.text) ∧
    Steps haskell.comments QuoteKind.isQuoter (.start source.toList) [.single 'a', .single ' ']
      ⟨0, ['a', ' '], run ++ ' ' :: quote.text⟩ ∧
    ¬ ['-', '-'] <:+ run ∧
    ∃ quotes, scan source haskell.comments QuoteKind.isQuoter = .ok quotes ∧
      ofFound source.toList ⟨"rust".toList, " () { } ".toList, 6⟩ ∈ quotes := by
  intro source run quote
  have hrun : IsDashedOperator ['a', ' '] run (' ' :: quote.text) := by
    refine ⟨?_, ?_, ?_, ⟨[], ['>'], rfl⟩, '>', by simp [run], by decide⟩ <;>
      simp [run, IsOperatorChar, isOperatorSymbol]
  have hsteps := steps_operand (run ++ ' ' :: quote.text)
  have hdashes : ¬ ['-', '-'] <:+ run := by decide
  have hcode : Steps haskell.comments QuoteKind.isQuoter ⟨0, ['a', ' '] ++ run, ' ' :: quote.text⟩
      [.single ' '] ⟨0, ['a', ' '] ++ run ++ [' '], quote.text ++ []⟩ := by
    rw [List.append_nil]
    exact .step (step_plain (.inr rfl) _ _) (.refl _)
  have hsource : source.toList = 'a' :: ' ' :: (run ++ ' ' :: quote.text) := by decide
  rw [← hsource] at hsteps
  have hfound := ((scan_dashedOperator QuoteKind.isQuoter hrun hsteps).1 hdashes).2 _ _ _ _ _ hcode
    (by simp [IsQuoterName, IsLetter]) (by decide) (beforeEnd?_eq_none_iff.mp (by decide))
  obtain ⟨quotes, hquotes⟩ : ∃ quotes,
      scan source haskell.comments QuoteKind.isQuoter = .ok quotes :=
    except_eq_ok_of_isOk (by decide +kernel)
  exact ⟨hrun, hsteps, hdashes, quotes, hquotes, hfound.1 quotes hquotes⟩

/-- An operator that ends in its dashes is read as a comment, and with it the quote behind it, which
code would come to. -/
theorem scan_dashedOperator_open :
    let source := "a |-- [rust| i32 { 0 } |]"
    let run := ['|', '-', '-']
    let quote := Piece.quote "rust".toList " i32 { 0 } ".toList
    IsDashedOperator ['a', ' '] run (' ' :: quote.text) ∧
    Steps haskell.comments QuoteKind.isQuoter (.start source.toList) [.single 'a', .single ' ']
      ⟨0, ['a', ' '], run ++ ' ' :: quote.text⟩ ∧
    Steps haskell.comments QuoteKind.isQuoter ⟨0, ['a', ' '] ++ run, ' ' :: quote.text⟩
      [.single ' ', quote] ⟨0, source.toList, []⟩ ∧
    scan source haskell.comments QuoteKind.isQuoter = .ok [] := by
  intro source run quote
  have hrun : IsDashedOperator ['a', ' '] run (' ' :: quote.text) := by
    refine ⟨?_, ?_, ?_, ⟨['|'], [], rfl⟩, '|', by simp [run], by decide⟩ <;>
      simp [run, IsOperatorChar, isOperatorSymbol]
  have hsteps := steps_operand (run ++ ' ' :: quote.text)
  have hsource : source.toList = 'a' :: ' ' :: (run ++ ' ' :: quote.text) := by decide
  rw [← hsource] at hsteps
  refine ⟨hrun, hsteps, ?_, by decide +kernel⟩
  have hname : IsQuoterName "rust".toList := by simp [IsQuoterName, IsLetter]
  have hknown : QuoteKind.isQuoter (.ofList "rust".toList) := by decide
  have hbody : NoEnd " i32 { 0 } ".toList := beforeEnd?_eq_none_iff.mp (by decide)
  have hquote := step_quote hname hknown hbody (['a', ' '] ++ run ++ [' ']) []
  rw [List.append_nil] at hquote
  rw [hsource]
  exact .step (step_plain (.inr rfl) _ _) (.step hquote (.refl _))

end Quote

end Graft

import Graft.Call.Haskell
import Graft.Proofs.Quote.Partition

/-!
# Pieces do not look over the end of a line

What starts a comment, a character literal or a quote stands in one line. A piece of whole lines is
therefore the same whatever follows these lines, with one exception: a string whose last backslash
takes the last line end along goes on behind it.
-/

namespace Graft

/-- The marks of comments stand in one line. -/
structure CommentSyntax.InLine (marks : CommentSyntax) : Prop where
  opening : ∀ opening closing, marks.block = some (opening, closing) → '\n' ∉ opening.toList
  closing : ∀ opening closing, marks.block = some (opening, closing) → '\n' ∉ closing.toList
  line : '\n' ∉ marks.line.toList

theorem haskell_comments : haskell.comments = ⟨"--", some ("\x7b-", "-\x7d"), true⟩ := rfl

theorem haskell_comments_wellFormed : haskell.comments.WellFormed := by
  rw [haskell_comments]
  refine ⟨?_, ?_, by decide⟩
  · rintro opening closing ⟨⟩
    decide
  · rintro opening closing ⟨⟩
    decide

theorem haskell_comments_inLine : haskell.comments.InLine := by
  rw [haskell_comments]
  refine ⟨?_, ?_, by decide⟩
  · rintro opening closing ⟨⟩
    decide
  · rintro opening closing ⟨⟩
    decide

namespace Scan

variable {marks : CommentSyntax} {isQuoter : String → Bool} {lines after after' : List Char}

/-! ## What starts at the head of whole lines -/

/-- A text without line ends at the head of whole lines ends before the last of these does. -/
theorem exists_lines_behind {mark : List Char} (hlines : lines.getLast? = some '\n')
    (hmark : '\n' ∉ mark) (h : mark <+: lines ++ after) :
    ∃ more, lines = mark ++ more ∧ more.getLast? = some '\n' := by
  have hfits : mark.length ≤ lines.length := by
    by_contra hlong
    have hover : lines <+: mark :=
      List.prefix_of_prefix_length_le (List.prefix_append lines after) h (by omega)
    exact hmark (hover.subset (List.mem_of_getLast? hlines))
  obtain ⟨more, rfl⟩ := List.prefix_of_prefix_length_le h (List.prefix_append lines after) hfits
  refine ⟨more, rfl, ?_⟩
  rw [List.getLast?_append] at hlines
  cases hmore : more.getLast? with
  | none =>
    rw [hmore] at hlines
    exact absurd (List.mem_of_getLast? hlines) hmark
  | some c =>
    rw [hmore] at hlines
    exact hlines

theorem head?_lines_append (hlines : lines.getLast? = some '\n') (after after' : List Char) :
    (lines ++ after).head? = (lines ++ after').head? := by
  cases lines with
  | nil => cases hlines
  | cons c lines => rfl

theorem isPrefix_of_lines {mark : List Char} (hlines : lines.getLast? = some '\n')
    (hmark : '\n' ∉ mark) (h : mark <+: lines ++ after) : mark <+: lines ++ after' := by
  obtain ⟨more, rfl, -⟩ := exists_lines_behind hlines hmark h
  rw [List.append_assoc]
  exact List.prefix_append _ _

theorem BlockOpens.of_lines (hin : marks.InLine) (hlines : lines.getLast? = some '\n')
    (h : BlockOpens marks (lines ++ after)) : BlockOpens marks (lines ++ after') := by
  obtain ⟨opening, closing, hblock, hopens⟩ := h
  exact ⟨opening, closing, hblock, isPrefix_of_lines hlines (hin.opening _ _ hblock) hopens⟩

theorem LineCommentStarts.of_lines {mark : String} (hmark : '\n' ∉ mark.toList)
    (hlines : lines.getLast? = some '\n') (h : LineCommentStarts mark (lines ++ after)) :
    LineCommentStarts mark (lines ++ after') := by
  obtain ⟨final, n, behind, hfinal, hcs, hbehind⟩ := h
  have hrun : '\n' ∉ mark.toList ++ List.replicate n final := by
    rw [List.mem_append, List.mem_replicate]
    rintro (hmem | ⟨-, rfl⟩)
    · exact hmark hmem
    · exact hmark (List.mem_of_getLast? hfinal)
  obtain ⟨more, rfl, hmore⟩ := exists_lines_behind hlines hrun ⟨behind, hcs.symm⟩
  rw [List.append_assoc _ more, List.append_cancel_left_eq] at hcs
  refine ⟨final, n, more ++ after', hfinal, List.append_assoc .., ?_⟩
  rw [head?_lines_append hmore after' after, hcs]
  exact hbehind

theorem CommentStarts.of_lines (hin : marks.InLine) (hlines : lines.getLast? = some '\n')
    (h : CommentStarts marks (lines ++ after)) : CommentStarts marks (lines ++ after') :=
  h.imp (.of_lines hin hlines) (.of_lines hin.line hlines)

theorem lineEnd_not_mem_quoter {quoter : List Char} (h : IsQuoterName quoter) : '\n' ∉ quoter := by
  cases quoter with
  | nil => cases h
  | cons c quoter =>
    obtain ⟨hstart, hchars⟩ := isQuoterName_cons.mp h
    rw [List.mem_cons]
    rintro (rfl | hmem)
    · exact absurd hstart (by decide)
    · exact absurd (hchars _ hmem) (by decide)

theorem QuoteOpens.of_lines {quoter behind : List Char} (hlines : lines.getLast? = some '\n')
    (h : QuoteOpens isQuoter quoter behind (lines ++ after)) :
    ∃ behind', QuoteOpens isQuoter quoter behind' (lines ++ after') := by
  obtain ⟨hcs, hname, hknown⟩ := h
  have hhead : '\n' ∉ '[' :: quoter ++ ['|'] := by simp [lineEnd_not_mem_quoter hname]
  obtain ⟨more, rfl, -⟩ := exists_lines_behind hlines hhead ⟨behind, by rw [hcs]; simp⟩
  exact ⟨more ++ after', by simp, hname, hknown⟩

theorem CharLiteralBody.lineEnd_not_mem {body : List Char} (h : CharLiteralBody body) :
    '\n' ∉ body := by
  cases h with
  | plain hline hescape => simpa [eq_comm] using hline
  | @escape c cs hline hcs hlength =>
    simp only [List.mem_cons, not_or]
    exact ⟨by decide, hline.symm, fun hmem => (hcs _ hmem).1 rfl⟩

/-! ## Strings -/

/-- A string only depends on the first character behind it. -/
theorem StringTail.of_head? {text rest rest' : List Char} (h : StringTail text rest)
    (hhead : rest'.head? = rest.head?) : StringTail text rest' := by
  induction h with
  | closed rest => exact .closed rest'
  | lineEnd rest =>
    obtain ⟨more, rfl⟩ := List.head?_eq_some_iff.mp hhead
    exact .lineEnd more
  | textEnd =>
    obtain rfl := List.head?_eq_none_iff.mp hhead
    exact .textEnd
  | brokenEscape =>
    obtain rfl := List.head?_eq_none_iff.mp hhead
    exact .brokenEscape
  | escape c _ ih => exact .escape c (ih hhead)
  | plain hquote hline hescape _ ih => exact .plain hquote hline hescape (ih hhead)

/-- A string also ends where the text does. -/
theorem StringTail.to_nil {text rest : List Char} (h : StringTail text rest) :
    StringTail text [] := by
  induction h with
  | closed rest => exact .closed []
  | lineEnd rest => exact .textEnd
  | textEnd => exact .textEnd
  | brokenEscape => exact .brokenEscape
  | escape c _ ih => exact .escape c ih
  | plain hquote hline hescape _ ih => exact .plain hquote hline hescape ih

theorem lineEnd_of_cons {c : Char} {text : List Char} (h : (c :: text).getLast? = some '\n') :
    text = [] ∨ text.getLast? = some '\n' := by
  cases text with
  | nil => exact .inl rfl
  | cons d text => exact .inr (by rwa [List.getLast?_cons_cons] at h)

/-- Behind a line end that it takes along, a string may end at once or go on. -/
theorem StringTail.behind_lineEnd {text rest : List Char} (h : StringTail text rest)
    (hend : text = [] ∨ text.getLast? = some '\n') :
    StringTail [] rest ∧
      ∀ more rest', StringTail more rest' → StringTail (text ++ more) rest' := by
  induction h with
  | closed rest => simp at hend
  | lineEnd rest => exact ⟨.lineEnd rest, fun _ _ h => h⟩
  | textEnd => exact ⟨.textEnd, fun _ _ h => h⟩
  | brokenEscape => simp at hend
  | escape c _ ih =>
    rw [List.getLast?_cons_cons] at hend
    obtain ⟨hrest, hmore⟩ := ih (lineEnd_of_cons (hend.resolve_left (List.cons_ne_nil _ _)))
    exact ⟨hrest, fun more rest' h => .escape c (hmore more rest' h)⟩
  | plain hquote hline hescape _ ih =>
    obtain ⟨hrest, hmore⟩ := ih (lineEnd_of_cons (hend.resolve_left (List.cons_ne_nil _ _)))
    exact ⟨hrest, fun more rest' h => .plain hquote hline hescape (hmore more rest' h)⟩

/-- A line without quotation marks does not end a string before its last character. -/
theorem StringTail.line {line rest : List Char} (hquote : '"' ∉ line) (hline : '\n' ∉ line)
    (hrest : StringTail [] rest) :
    StringTail line ('\n' :: rest) ∨ StringTail (line ++ ['\n']) rest := by
  match line with
  | [] => exact .inl (.lineEnd rest)
  | c :: line =>
    have hquotes : '"' ∉ line := List.not_mem_of_not_mem_cons hquote
    have hlines : '\n' ∉ line := List.not_mem_of_not_mem_cons hline
    by_cases hescape : c = '\\'
    · subst hescape
      match line with
      | [] => exact .inr (.escape '\n' hrest)
      | d :: line =>
        exact (StringTail.line (List.not_mem_of_not_mem_cons hquotes)
          (List.not_mem_of_not_mem_cons hlines) hrest).imp (.escape d) (.escape d)
    · have hplain {text rest : List Char} (h : StringTail text rest) :
          StringTail (c :: text) rest :=
        .plain (List.ne_of_not_mem_cons hquote).symm (List.ne_of_not_mem_cons hline).symm hescape h
      exact (StringTail.line hquotes hlines hrest).imp hplain hplain

/-! ## Pieces -/

/-- What a piece of whole lines is does not depend on what follows these lines, unless it is a
string that takes the last line end along. -/
theorem Reads.of_lines {depth depth' : Nat} {before : Option Char} {cs more : List Char}
    {piece : Piece} (hin : marks.InLine) (h : Reads marks isQuoter depth before cs piece depth')
    (hcs : cs = piece.text ++ more ++ after) (hlines : (piece.text ++ more).getLast? = some '\n')
    (hstring : more = [] → after' ≠ [] → ∀ text, piece ≠ .string text) :
    Reads marks isQuoter depth before (piece.text ++ more ++ after') piece depth' := by
  cases h with
  | opening hblock hopens =>
    exact .opening hblock ⟨_, (List.append_assoc ..).symm⟩
  | nested hblock hnested hopens =>
    exact .nested hblock hnested ⟨_, (List.append_assoc ..).symm⟩
  | @closing depth before cs opening closing hblock hopens hcloses =>
    refine .closing hblock ?_ ⟨_, (List.append_assoc ..).symm⟩
    rintro ⟨hnested, h⟩
    rw [hcs] at hopens
    exact hopens ⟨hnested, isPrefix_of_lines hlines (hin.opening _ _ hblock) h⟩
  | @inside depth before c cs hmarks =>
    refine .inside fun opening closing hblock => ?_
    rw [hcs] at hmarks
    obtain ⟨hopens, hcloses⟩ := hmarks opening closing hblock
    refine ⟨fun h => hopens ⟨h.1, ?_⟩, fun h => hcloses ?_⟩
    · exact isPrefix_of_lines hlines (hin.opening _ _ hblock) h.2
    · exact isPrefix_of_lines hlines (hin.closing _ _ hblock) h
  | @lineComment before text rest hblock hline htext hrest =>
    have htail : rest = more ++ after := by
      rw [Piece.text, List.append_assoc] at hcs
      exact List.append_cancel_left hcs
    obtain ⟨more', heq, hmore⟩ := exists_lines_behind hlines htext ⟨more ++ after, by
      rw [← List.append_assoc]
      rfl⟩
    obtain rfl : more = more' := List.append_cancel_left heq
    rw [hcs] at hblock hline
    rw [List.append_assoc]
    refine .lineComment ?_ ?_ htext ?_
    · rw [← List.append_assoc]
      exact fun h => hblock (.of_lines hin hlines h)
    · rw [← List.append_assoc]
      exact .of_lines hin.line hlines hline
    · rw [head?_lines_append hmore after' after, ← htail]
      exact hrest
  | @charLiteral before body rest hcomment hbefore hbody =>
    rw [hcs] at hcomment
    have htext : (Piece.charLiteral ('\'' :: body ++ ['\''])).text ++ more ++ after' =
        '\'' :: body ++ '\'' :: (more ++ after') := by simp [Piece.text]
    have hcomment' : ¬ CommentStarts marks ('\'' :: body ++ '\'' :: (more ++ after')) := by
      rw [← htext]
      exact fun h => hcomment (.of_lines hin hlines h)
    rw [htext]
    exact .charLiteral hcomment' hbefore hbody
  | @string before text rest hcomment htext =>
    have htail : rest = more ++ after := by
      rw [Piece.text, List.append_assoc] at hcs
      exact List.append_cancel_left hcs
    rw [hcs] at hcomment
    have hcomment' : ¬ CommentStarts marks ('"' :: text ++ more ++ after') :=
      fun h => hcomment (.of_lines hin hlines h)
    rw [Piece.text, List.append_assoc]
    rw [List.append_assoc] at hcomment'
    refine .string hcomment' ?_
    cases hmore : more with
    | nil =>
      have hend : after' = [] := by
        by_contra hne
        exact hstring hmore hne _ rfl
      rw [hend]
      exact htext.to_nil
    | cons c more =>
      rw [htail, hmore] at htext
      exact htext.of_head? rfl
  | @quote before cs quoter body rest hcomment hopens hbody =>
    rw [hcs] at hcomment
    have hopens' : QuoteOpens isQuoter quoter (body ++ '|' :: ']' :: (more ++ after'))
        ((Piece.quote quoter body).text ++ more ++ after') := ⟨by simp [Piece.text], hopens.2⟩
    exact .quote (fun h => hcomment (.of_lines hin hlines h)) hopens' hbody
  | @single before c cs hcomment hchar hstring' hquote =>
    have htail : cs = more ++ after := (List.cons.inj hcs).2
    rw [hcs] at hcomment hquote
    refine .single (fun h => hcomment (.of_lines hin hlines h)) ?_ hstring' ?_
    · intro hc
      refine (hchar hc).imp_right fun hnone body hbody h => hnone body hbody ?_
      -- The mark itself is no line end, so the lines go on behind it.
      have hmore : more.getLast? = some '\n' := by
        cases more with
        | nil =>
          rw [hc] at hlines
          cases hlines
        | cons d more => simpa [Piece.text] using hlines
      rw [htail]
      refine isPrefix_of_lines hmore ?_ h
      simp [hbody.lineEnd_not_mem]
    · intro quoter behind h
      obtain ⟨behind', h⟩ : ∃ behind', QuoteOpens isQuoter quoter behind'
          ((Piece.single c).text ++ more ++ after) := h.of_lines hlines
      exact hquote quoter behind' h

/-- A string that takes the last line end along may end at once or go on. -/
theorem Reads.string_behind_lines {depth depth' : Nat} {before : Option Char} {cs text : List Char}
    (hin : marks.InLine) (h : Reads marks isQuoter depth before cs (.string text) depth')
    (hcs : cs = text ++ after) (hlines : text.getLast? = some '\n') :
    StringTail [] after ∧ ∀ more rest, StringTail more rest →
      Reads marks isQuoter depth before (text ++ more ++ rest) (.string (text ++ more)) depth' := by
  cases h with
  | @string before text rest hcomment htext =>
    obtain rfl : rest = after := List.append_cancel_left hcs
    obtain ⟨hrest, hmore⟩ := htext.behind_lineEnd (lineEnd_of_cons hlines)
    refine ⟨hrest, fun more rest' htail => ?_⟩
    have hcomment' : ¬ CommentStarts marks ('"' :: (text ++ more) ++ rest') := by
      rw [← List.cons_append, List.append_assoc]
      exact fun h => hcomment (.of_lines hin hlines h)
    exact .string hcomment' (hmore more rest' htail)

/-! ## Runs of pieces -/

variable {p q : Place} {pieces : List Piece}

theorem Reads.step {depth depth' : Nat} {seen cs rest : List Char} {piece : Piece}
    (h : Reads marks isQuoter depth seen.getLast? cs piece depth') (hcs : cs = piece.text ++ rest) :
    Step marks isQuoter ⟨depth, seen, cs⟩ piece ⟨depth', seen ++ piece.text, rest⟩ := by
  subst hcs
  exact .read h

theorem Steps.append {r : Place} {pieces' : List Piece} (h : Steps marks isQuoter p pieces q)
    (h' : Steps marks isQuoter q pieces' r) : Steps marks isQuoter p (pieces ++ pieces') r := by
  induction h with
  | refl p => exact h'
  | step hstep _ ih => exact .step hstep (ih h')

theorem Steps.eq_nil_of_text (hmarks : marks.WellFormed) (h : Steps marks isQuoter p pieces q)
    (htext : (pieces.map Piece.text).flatten = []) : pieces = [] := by
  cases h with
  | refl => rfl
  | step hstep hsteps =>
    rw [List.map_cons, List.flatten_cons, List.append_eq_nil_iff] at htext
    exact absurd htext.1 (hstep.reads.1.text_ne_nil hmarks)

/-- A scan of whole lines does not depend on what follows them, unless a string takes their last
line end along. -/
theorem Steps.of_lines (hmarks : marks.WellFormed) (hin : marks.InLine)
    (h : Steps marks isQuoter p pieces q) (hrest : p.rest = lines ++ q.rest)
    (hlines : lines = [] ∨ lines.getLast? = some '\n')
    (hstring : after' ≠ [] → ∀ text, pieces.getLast? ≠ some (.string text)) :
    Steps marks isQuoter ⟨p.depth, p.seen, lines ++ after'⟩ pieces ⟨q.depth, q.seen, after'⟩ := by
  induction h generalizing lines with
  | refl p =>
    obtain rfl : lines = [] := List.append_left_eq_self.mp hrest.symm
    exact .refl _
  | @step p q r piece pieces hstep hsteps ih =>
    obtain ⟨hreads, hhead, hseen⟩ := hstep.reads
    have hmore : q.rest = (pieces.map Piece.text).flatten ++ r.rest := hsteps.text_eq.2
    generalize htail : (pieces.map Piece.text).flatten = more at hmore
    obtain rfl : lines = piece.text ++ more := by
      rw [hrest, hmore, ← List.append_assoc] at hhead
      exact List.append_cancel_right hhead
    have hne := hreads.text_ne_nil hmarks
    replace hlines : (piece.text ++ more).getLast? = some '\n' := by simpa [hne] using hlines
    -- The first piece ends within the lines, so that what is behind them does not matter to it.
    have hread : Reads marks isQuoter p.depth p.seen.getLast? (piece.text ++ more ++ after') piece
        q.depth := by
      refine hreads.of_lines hin hrest hlines fun hnil hafter text => ?_
      have hlast := hstring hafter text
      rw [hsteps.eq_nil_of_text hmarks (htail.trans hnil)] at hlast
      simpa using hlast
    rw [List.append_assoc] at hread ⊢
    refine .step (.read hread) ?_
    rw [← hseen]
    refine ih hmore ?_ fun hafter text => ?_
    · cases hnil : more.getLast? with
      | none => exact .inl (List.getLast?_eq_none_iff.mp hnil)
      | some c =>
        rw [List.getLast?_append, hnil] at hlines
        exact .inr hlines
    · have hlast := hstring hafter text
      cases pieces with
      | nil => simp
      | cons next pieces => simpa [List.getLast?_cons_cons] using hlast

/-- Where a string takes the last line end along, a scan of whole lines goes on with it. -/
theorem Steps.string_behind_lines {text : List Char} (hmarks : marks.WellFormed)
    (hin : marks.InLine) (h : Steps marks isQuoter p pieces q) (hrest : p.rest = lines ++ q.rest)
    (hlines : lines.getLast? = some '\n') (hstring : pieces.getLast? = some (.string text)) :
    StringTail [] q.rest ∧ ∀ more rest, StringTail more rest →
      Steps marks isQuoter ⟨p.depth, p.seen, lines ++ (more ++ rest)⟩
        (pieces.dropLast ++ [.string (text ++ more)]) ⟨q.depth, q.seen ++ more, rest⟩ := by
  induction h generalizing lines with
  | refl p => cases hstring
  | @step p q r piece pieces hstep hsteps ih =>
    obtain ⟨hreads, hhead, hseen⟩ := hstep.reads
    have hbehind : q.rest = (pieces.map Piece.text).flatten ++ r.rest := hsteps.text_eq.2
    generalize htail : (pieces.map Piece.text).flatten = behind at hbehind
    obtain rfl : lines = piece.text ++ behind := by
      rw [hrest, hbehind, ← List.append_assoc] at hhead
      exact List.append_cancel_right hhead
    cases behind with
    | nil =>
      -- The string is the last piece, and now ends later.
      obtain rfl := hsteps.eq_nil_of_text hmarks htail
      obtain rfl : piece = .string text := Option.some.inj hstring
      cases hsteps
      rw [List.append_nil] at hrest hlines ⊢
      obtain ⟨hends, hreads⟩ := hreads.string_behind_lines hin hrest hlines
      refine ⟨hends, fun more rest htail => ?_⟩
      rw [hseen, ← List.append_assoc, List.append_assoc p.seen]
      exact .step ((hreads more rest htail).step rfl) (.refl _)
    | cons c behind =>
      have hlast : (c :: behind).getLast? = some '\n' := by
        rwa [List.getLast?_append_of_ne_nil _ (List.cons_ne_nil c behind)] at hlines
      cases pieces with
      | nil => cases htail
      | cons next pieces =>
        rw [List.getLast?_cons_cons] at hstring
        obtain ⟨hends, hsteps'⟩ := ih hbehind hlast hstring
        refine ⟨hends, fun more rest htail => ?_⟩
        have hread : Reads marks isQuoter p.depth p.seen.getLast?
            (piece.text ++ (c :: behind) ++ (more ++ rest)) piece q.depth :=
          hreads.of_lines hin hrest hlines fun hnil => absurd hnil (List.cons_ne_nil c behind)
        rw [List.append_assoc] at hread ⊢
        refine .step (.read hread) ?_
        rw [← hseen]
        exact hsteps' more rest htail

end Scan

end Graft

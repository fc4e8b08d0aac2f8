import Graft.Proofs.Quote.Lexeme

/-!
# The pieces of a host file

A file consists of the marks and the insides of block comments, line comments, character literals,
strings, quotes and single characters of code. `Reads` says which of them stands at the head of a
text; it is always exactly one, and its length is that of the lexeme that a scan finds there.
-/

namespace Graft

/-- The marks of block comments are not empty, and the mark of line comments does not stand for
the end of a line. -/
structure CommentSyntax.WellFormed (marks : CommentSyntax) : Prop where
  opening_ne : ∀ opening closing, marks.block = some (opening, closing) → opening.toList ≠ []
  closing_ne : ∀ opening closing, marks.block = some (opening, closing) → closing.toList ≠ []
  line_head : marks.line.toList.head? ≠ some '\n'

namespace Scan

/-- What a file is cut into. -/
inductive Piece where
  /-- A mark of a block comment, or a character inside of one. -/
  | blockComment (text : List Char)
  | lineComment (text : List Char)
  | charLiteral (text : List Char)
  | string (text : List Char)
  | quote (quoter body : List Char)
  /-- A character of code that starts nothing else. -/
  | single (c : Char)

namespace Piece

def text : Piece → List Char
  | blockComment text | lineComment text | charLiteral text | string text => text
  | quote quoter body => '[' :: quoter ++ '|' :: body ++ ['|', ']']
  | single c => [c]

/-- A piece as a scan sees it, with `depth` block comments open behind it. -/
def lexeme (depth : Nat) : Piece → Lexeme
  | quote quoter body => .quote quoter body
  | piece => .plain piece.text.length depth

/-- The quote that a piece is, at a byte offset. -/
def found (offset : Nat) : Piece → List Found
  | quote quoter body => [⟨quoter, body, offset⟩]
  | _ => []

theorem quote_or_plain (piece : Piece) :
    (∃ quoter body, piece = quote quoter body) ∨
      (∀ depth, piece.lexeme depth = .plain piece.text.length depth) ∧
        ∀ offset, piece.found offset = [] := by
  cases piece with
  | quote quoter body => exact .inl ⟨quoter, body, rfl⟩
  | _ => exact .inr ⟨fun _ => rfl, fun _ => rfl⟩

end Piece

/-- The quotes among pieces of which the first stands at a byte offset. -/
def quotesFrom (offset : Nat) : List Piece → List Found
  | [] => []
  | piece :: pieces => piece.found offset ++ quotesFrom (offset + byteLength piece.text) pieces

/-! ## The piece at the head of a text -/

/-- A piece stands at the head of a text that `depth` block comments are open before, with a
character `before` it; `depth'` block comments are open behind it. -/
inductive Reads (marks : CommentSyntax) (isQuoter : String → Bool) :
    (depth : Nat) → (before : Option Char) → (cs : List Char) → Piece → (depth' : Nat) → Prop where
  | opening {before cs opening closing} (hblock : marks.block = some (opening, closing))
      (hopens : opening.toList <+: cs) :
      Reads marks isQuoter 0 before cs (.blockComment opening.toList) 1
  | nested {depth before cs opening closing} (hblock : marks.block = some (opening, closing))
      (hnested : marks.nested) (hopens : opening.toList <+: cs) :
      Reads marks isQuoter (depth + 1) before cs (.blockComment opening.toList) (depth + 2)
  | closing {depth before cs opening closing} (hblock : marks.block = some (opening, closing))
      (hopens : ¬ (marks.nested ∧ opening.toList <+: cs)) (hcloses : closing.toList <+: cs) :
      Reads marks isQuoter (depth + 1) before cs (.blockComment closing.toList) depth
  | inside {depth before c cs} (hmarks : ∀ opening closing, marks.block = some (opening, closing) →
        ¬ (marks.nested ∧ opening.toList <+: c :: cs) ∧ ¬ closing.toList <+: c :: cs) :
      Reads marks isQuoter (depth + 1) before (c :: cs) (.blockComment [c]) (depth + 1)
  | lineComment {before text rest} (hblock : ¬ BlockOpens marks (text ++ rest))
      (hline : LineCommentStarts marks.line (text ++ rest)) (htext : '\n' ∉ text)
      (hrest : ∀ c ∈ rest.head?, c = '\n') :
      Reads marks isQuoter 0 before (text ++ rest) (.lineComment text) 0
  | charLiteral {before body rest} (hcomment : ¬ CommentStarts marks ('\'' :: body ++ '\'' :: rest))
      (hbefore : continuesName before = false) (hbody : CharLiteralBody body) :
      Reads marks isQuoter 0 before ('\'' :: body ++ '\'' :: rest)
        (.charLiteral ('\'' :: body ++ ['\''])) 0
  | string {before text rest} (hcomment : ¬ CommentStarts marks ('"' :: text ++ rest))
      (htext : StringTail text rest) :
      Reads marks isQuoter 0 before ('"' :: text ++ rest) (.string ('"' :: text)) 0
  | quote {before cs quoter body rest} (hcomment : ¬ CommentStarts marks cs)
      (hopens : QuoteOpens isQuoter quoter (body ++ '|' :: ']' :: rest) cs) (hbody : NoEnd body) :
      Reads marks isQuoter 0 before cs (.quote quoter body) 0
  | single {before c cs} (hcomment : ¬ CommentStarts marks (c :: cs))
      (hchar : c = '\'' → continuesName before ∨
        ∀ body, CharLiteralBody body → ¬ body ++ ['\''] <+: cs)
      (hstring : c ≠ '"') (hquote : ∀ quoter after, ¬ QuoteOpens isQuoter quoter after (c :: cs)) :
      Reads marks isQuoter 0 before (c :: cs) (.single c) 0

/-- A quote opens at the head of code and nothing ends it. -/
def Unending (marks : CommentSyntax) (isQuoter : String → Bool) (depth : Nat)
    (cs quoter : List Char) : Prop :=
  depth = 0 ∧ ¬ CommentStarts marks cs ∧ ∃ after, QuoteOpens isQuoter quoter after cs ∧ NoEnd after

variable {marks : CommentSyntax} {isQuoter : String → Bool} {depth depth' : Nat}
  {before : Option Char} {cs rest quoter body after : List Char} {piece : Piece}

theorem Reads.text_isHead (h : Reads marks isQuoter depth before cs piece depth') :
    piece.text <+: cs := by
  cases h with
  | opening hblock hopens => exact hopens
  | nested hblock hnested hopens => exact hopens
  | closing hblock hopens hcloses => exact hcloses
  | inside hmarks => exact ⟨_, rfl⟩
  | lineComment hblock hline htext hrest => exact ⟨_, rfl⟩
  | @charLiteral before body rest hcomment hbefore hbody => exact ⟨rest, by simp [Piece.text]⟩
  | string hcomment htext => exact ⟨_, rfl⟩
  | @quote before cs quoter body rest hcomment hopens hbody =>
    rw [hopens.1]
    exact ⟨rest, by simp [Piece.text]⟩
  | single hcomment hchar hstring hquote => exact ⟨_, rfl⟩

theorem Reads.depth_of_quote
    (h : Reads marks isQuoter depth before cs (.quote quoter body) depth') : depth' = 0 := by
  cases h
  rfl

theorem Reads.of_quote (h : Reads marks isQuoter depth before cs (.quote quoter body) depth') :
    ∃ rest, QuoteOpens isQuoter quoter (body ++ '|' :: ']' :: rest) cs ∧ NoEnd body := by
  cases h with
  | quote hcomment hopens hbody => exact ⟨_, hopens, hbody⟩

/-- A comment to the end of the line is not empty. -/
theorem LineCommentStarts.head?_ne (hmarks : marks.WellFormed)
    (h : LineCommentStarts marks.line cs) : ∃ c tail, cs = c :: tail ∧ c ≠ '\n' := by
  obtain ⟨final, n, after, hfinal, rfl, -⟩ := h
  cases hline : marks.line.toList with
  | nil =>
    rw [hline] at hfinal
    cases hfinal
  | cons c tail =>
    refine ⟨c, tail ++ List.replicate n final ++ after, rfl, ?_⟩
    rintro rfl
    exact hmarks.line_head (by rw [hline]; rfl)

theorem Reads.text_ne_nil (hmarks : marks.WellFormed)
    (h : Reads marks isQuoter depth before cs piece depth') : piece.text ≠ [] := by
  cases h with
  | opening hblock hopens => exact hmarks.opening_ne _ _ hblock
  | nested hblock hnested hopens => exact hmarks.opening_ne _ _ hblock
  | closing hblock hopens hcloses => exact hmarks.closing_ne _ _ hblock
  | inside hmarks => exact List.cons_ne_nil _ _
  | @lineComment before text rest hblock hline htext hrest =>
    rintro rfl
    obtain ⟨c, tail, hcs, hc⟩ := hline.head?_ne hmarks
    rw [List.nil_append] at hcs
    exact hc (hrest c (by rw [hcs]; rfl))
  | charLiteral hcomment hbefore hbody => exact List.cons_ne_nil _ _
  | string hcomment htext => exact List.cons_ne_nil _ _
  | quote hcomment hopens hbody => exact List.cons_ne_nil _ _
  | single hcomment hchar hstring hquote => exact List.cons_ne_nil _ _

/-! ## The lexeme of a scan is that piece -/

theorem inCode_of_comment_free : ¬ CommentStarts marks cs →
    inCode marks isQuoter before cs = match cs with
      | '\'' :: cs =>
        .plain (if continuesName before then 1 else (charLiteralLength? cs).getD 1) 0
      | '"' :: cs => .plain (stringTailLength cs + 1) 0
      | '[' :: cs => (quote? isQuoter cs).getD (.plain 1 0)
      | _ => .plain 1 0 := by
  intro hcomment
  rw [CommentStarts, blockOpens_iff, ← startsLineComment_iff, not_or] at hcomment
  unfold inCode
  exact (if_neg hcomment.1).trans (if_neg hcomment.2)

/-- A comment to the end of the line is what comes before a line end. -/
theorem takeWhile_ne_lineEnd {text : List Char} (htext : '\n' ∉ text)
    (hrest : ∀ c ∈ rest.head?, c = '\n') : (text ++ rest).takeWhile (· ≠ '\n') = text := by
  have hstay : ∀ c ∈ text, decide (c ≠ '\n') = true := by
    intro c hc
    simp only [decide_eq_true_eq]
    rintro rfl
    exact htext hc
  have hstop : rest.takeWhile (· ≠ '\n') = [] := by
    cases rest with
    | nil => rfl
    | cons c rest => rw [hrest c rfl, List.takeWhile_cons_of_neg (by decide)]
  rw [List.takeWhile_append_of_pos hstay, hstop, List.append_nil]

theorem inCode_of_single {c : Char} (hcomment : ¬ CommentStarts marks (c :: cs))
    (hchar : c = '\'' → continuesName before ∨
      ∀ body, CharLiteralBody body → ¬ body ++ ['\''] <+: cs)
    (hstring : c ≠ '"') (hquote : ∀ quoter after, ¬ QuoteOpens isQuoter quoter after (c :: cs)) :
    inCode marks isQuoter before (c :: cs) = .plain 1 0 := by
  rw [inCode_of_comment_free hcomment]
  -- The marks that start something are refused one by one; any other character is read alone.
  split
  next inner heq =>
    obtain ⟨rfl, rfl⟩ := List.cons.inj heq
    rcases hchar rfl with hbefore | hbody
    · rw [if_pos hbefore]
    · cases hlength : charLiteralLength? cs with
      | none => simp
      | some n =>
        obtain ⟨body, hbody', hopens, -⟩ := charLiteralLength?_eq_some hlength
        exact absurd hopens (hbody body hbody')
  next inner heq => exact absurd (List.cons.inj heq).1 hstring
  next inner heq =>
    obtain ⟨rfl, rfl⟩ := List.cons.inj heq
    rw [quote?_eq_none hquote]
    rfl
  · rfl

theorem Reads.lexeme_eq (h : Reads marks isQuoter depth before cs piece depth') :
    lexeme marks isQuoter depth before cs = piece.lexeme depth' := by
  -- Each form of a piece passes all the tests that come before its own.
  cases h with
  | opening hblock hopens =>
    have hany := blockOpens_iff.mp ⟨_, _, hblock, hopens⟩
    show inCode marks isQuoter before cs = _
    unfold inCode
    rw [if_pos hany, hblock]
    rfl
  | nested hblock hnested hopens =>
    show inBlock marks _ cs = _
    rw [inBlock, hblock]
    simp [hnested, startsWith_iff.mpr hopens, Piece.lexeme, Piece.text, String.length_toList]
  | @closing depth before cs opening closing hblock hopens hcloses =>
    show inBlock marks _ cs = _
    rw [← startsWith_iff, ← Bool.and_eq_true] at hopens
    rw [inBlock, hblock]
    simp only
    rw [if_neg hopens, if_pos (startsWith_iff.mpr hcloses)]
    rfl
  | @inside depth before c cs hmarks =>
    show inBlock marks _ (c :: cs) = _
    rw [inBlock]
    split
    next opening closing hblock =>
      obtain ⟨hopens, hcloses⟩ := hmarks opening closing hblock
      rw [← startsWith_iff, ← Bool.and_eq_true] at hopens
      rw [if_neg hopens, if_neg (mt startsWith_iff.mp hcloses)]
      rfl
    · rfl
  | @lineComment before text rest hblock hline htext hrest =>
    show inCode marks isQuoter before (text ++ rest) = _
    rw [blockOpens_iff] at hblock
    unfold inCode
    rw [if_neg hblock, if_pos (startsLineComment_iff.mpr hline), takeWhile_ne_lineEnd htext hrest]
    rfl
  | @charLiteral before body rest hcomment hbefore hbody =>
    show inCode marks isQuoter before _ = _
    rw [inCode_of_comment_free hcomment]
    simp [hbefore, charLiteralLength?_of_body hbody, Piece.lexeme, Piece.text]
  | @string before text rest hcomment htext =>
    show inCode marks isQuoter before _ = _
    rw [inCode_of_comment_free hcomment]
    simp [stringTailLength_of_tail htext, Piece.lexeme, Piece.text]
  | @quote before cs quoter body rest hcomment hopens hbody =>
    show inCode marks isQuoter before _ = _
    rw [inCode_of_comment_free hcomment]
    obtain ⟨inner, rfl⟩ : ∃ inner, cs = '[' :: inner := ⟨_, hopens.1⟩
    simp only
    rw [quote?_of_opens hopens, beforeEnd?_eq_some_iff.mpr ⟨hbody, rest, rfl⟩]
    rfl
  | single hcomment hchar hstring hquote =>
    exact inCode_of_single hcomment hchar hstring hquote

theorem Unending.lexeme_eq (h : Unending marks isQuoter depth cs quoter) :
    lexeme marks isQuoter depth before cs = .unterminated quoter := by
  obtain ⟨rfl, hcomment, after, hopens, hend⟩ := h
  show inCode marks isQuoter before _ = _
  rw [inCode_of_comment_free hcomment]
  obtain ⟨inner, rfl⟩ : ∃ inner, cs = '[' :: inner := ⟨_, hopens.1⟩
  simp only
  rw [quote?_of_opens hopens, beforeEnd?_eq_none_iff.mpr hend]
  rfl

theorem exists_reads_inBlock (marks : CommentSyntax) (isQuoter : String → Bool) (depth : Nat)
    (before : Option Char) (c : Char) (cs : List Char) :
    ∃ piece depth', Reads marks isQuoter (depth + 1) before (c :: cs) piece depth' := by
  by_cases hopens : ∃ opening closing, marks.block = some (opening, closing) ∧
      marks.nested ∧ opening.toList <+: c :: cs
  · obtain ⟨opening, closing, hblock, hnested, hopens⟩ := hopens
    exact ⟨_, _, .nested hblock hnested hopens⟩
  by_cases hcloses : ∃ opening closing, marks.block = some (opening, closing) ∧
      closing.toList <+: c :: cs
  · obtain ⟨opening, closing, hblock, hcloses⟩ := hcloses
    exact ⟨_, _, .closing hblock (fun h => hopens ⟨_, _, hblock, h⟩) hcloses⟩
  · refine ⟨_, _, .inside fun opening closing hblock => ⟨?_, ?_⟩⟩
    · exact fun h => hopens ⟨_, _, hblock, h⟩
    · exact fun h => hcloses ⟨_, _, hblock, h⟩

/-- A text is its first line and what starts with the end of that. -/
theorem exists_line (cs : List Char) :
    ∃ text rest, cs = text ++ rest ∧ '\n' ∉ text ∧ ∀ c ∈ rest.head?, c = '\n' := by
  refine ⟨cs.takeWhile (· ≠ '\n'), cs.dropWhile (· ≠ '\n'), List.takeWhile_append_dropWhile.symm,
    ?_, ?_⟩
  · intro hmem
    simpa using List.mem_takeWhile_imp hmem
  · intro d hd
    have hstop := List.head?_dropWhile_not (· ≠ '\n') cs
    rw [Option.mem_def.mp hd] at hstop
    simpa using hstop

theorem exists_reads_code (before : Option Char) {c : Char}
    (hcomment : ¬ CommentStarts marks (c :: cs)) :
    (∃ quoter, Unending marks isQuoter 0 (c :: cs) quoter) ∨
      ∃ piece depth', Reads marks isQuoter 0 before (c :: cs) piece depth' := by
  by_cases hquote : ∃ quoter after, QuoteOpens isQuoter quoter after (c :: cs)
  · obtain ⟨quoter, after, hopens⟩ := hquote
    cases hend : beforeEnd? after with
    | none => exact .inl ⟨quoter, rfl, hcomment, after, hopens, beforeEnd?_eq_none_iff.mp hend⟩
    | some body =>
      obtain ⟨hbody, rest, rfl⟩ := beforeEnd?_eq_some_iff.mp hend
      exact .inr ⟨_, _, .quote hcomment hopens hbody⟩
  right
  by_cases hstring : c = '"'
  · obtain ⟨text, rest, rfl, htext⟩ := exists_stringTail cs
    subst hstring
    exact ⟨_, _, .string hcomment htext⟩
  by_cases hchar : c = '\'' ∧ continuesName before = false ∧
      ∃ body, CharLiteralBody body ∧ body ++ ['\''] <+: cs
  · obtain ⟨rfl, hbefore, body, hbody, rest, rfl⟩ := hchar
    rw [List.append_assoc] at hcomment ⊢
    exact ⟨_, _, .charLiteral hcomment hbefore hbody⟩
  · refine ⟨_, _, .single hcomment ?_ hstring fun quoter after h => hquote ⟨_, _, h⟩⟩
    intro hc
    by_cases hbefore : continuesName before
    · exact .inl hbefore
    · refine .inr fun body hbody hopens => hchar ⟨hc, ?_, body, hbody, hopens⟩
      simpa using hbefore

/-- Where a text goes on, a piece stands at its head, unless a quote there does not end. -/
theorem exists_reads (marks : CommentSyntax) (isQuoter : String → Bool) (depth : Nat)
    (before : Option Char) (hcs : cs ≠ []) :
    (∃ quoter, Unending marks isQuoter depth cs quoter) ∨
      ∃ piece depth', Reads marks isQuoter depth before cs piece depth' := by
  obtain ⟨c, cs, rfl⟩ := List.exists_cons_of_ne_nil hcs
  cases depth with
  | succ depth => exact .inr (exists_reads_inBlock marks isQuoter depth before c cs)
  | zero =>
    by_cases hblock : BlockOpens marks (c :: cs)
    · obtain ⟨opening, closing, hblock, hopens⟩ := hblock
      exact .inr ⟨_, _, .opening hblock hopens⟩
    by_cases hline : LineCommentStarts marks.line (c :: cs)
    · obtain ⟨text, rest, hcs, htext, hrest⟩ := exists_line (c :: cs)
      rw [hcs] at hblock hline ⊢
      exact .inr ⟨_, _, .lineComment hblock hline htext hrest⟩
    · exact exists_reads_code before (not_or.mpr ⟨hblock, hline⟩)

/-- The piece at the head of a text has the length of the lexeme there. -/
theorem Reads.lexeme_unique {piece' : Piece} {depth'' : Nat}
    (h : Reads marks isQuoter depth before cs piece depth')
    (h' : Reads marks isQuoter depth before cs piece' depth'') :
    piece.text = piece'.text ∧ depth' = depth'' := by
  have hlexeme := h.lexeme_eq.symm.trans h'.lexeme_eq
  have hsame : piece.text.length = piece'.text.length ∧ depth' = depth'' := by
    rcases piece.quote_or_plain with ⟨quoter, body, rfl⟩ | ⟨hplain, -⟩ <;>
      rcases piece'.quote_or_plain with ⟨quoter', body', rfl⟩ | ⟨hplain', -⟩
    · obtain ⟨rfl, rfl⟩ := Lexeme.quote.inj hlexeme
      exact ⟨rfl, h.depth_of_quote.trans h'.depth_of_quote.symm⟩
    · rw [hplain'] at hlexeme
      cases hlexeme
    · rw [hplain] at hlexeme
      cases hlexeme
    · rw [hplain, hplain'] at hlexeme
      exact Lexeme.plain.inj hlexeme
  have hheads := List.prefix_of_prefix_length_le h.text_isHead h'.text_isHead hsame.1.le
  exact ⟨hheads.eq_of_length hsame.1, hsame.2⟩

theorem Reads.unique {cs' : List Char} {piece' : Piece} {depth'' : Nat} (hcs : cs = cs')
    (h : Reads marks isQuoter depth before cs piece depth')
    (h' : Reads marks isQuoter depth before cs' piece' depth'') :
    piece = piece' ∧ depth' = depth'' := by
  have hsame : piece.text = piece'.text ∧ depth' = depth'' := by
    subst hcs
    exact h.lexeme_unique h'
  have hlexeme : piece.lexeme depth' = piece'.lexeme depth'' := by
    subst hcs
    exact h.lexeme_eq.symm.trans h'.lexeme_eq
  refine ⟨?_, hsame.2⟩
  -- Two pieces of different kinds with one text start with different characters, or one of them is
  -- a comment and the other is none.
  cases h <;> cases h' <;> grind [Piece.text, CommentStarts, Piece.lexeme, BlockOpens]

theorem Unending.not_reads (h : Unending marks isQuoter depth cs quoter) :
    ¬ Reads marks isQuoter depth before cs piece depth' := by
  intro hreads
  have hlexeme := hreads.lexeme_eq.symm.trans h.lexeme_eq
  cases piece <;> cases hlexeme

end Scan

end Graft

import Graft.Proofs.Quote.Lines
import Graft.Proofs.Text.LineIndex

/-!
# A scan behind whole lines

Where a scan comes to the end of a line between two pieces, what stands before and what stands
behind are scanned as if each were a file of its own. So a comment on a line of its own can be put
there.
-/

namespace Graft

/-! ## Moved quotes -/

/-- A diagnostic `lines` lines further down. -/
def Diagnostic.down (lines : Nat) (d : Diagnostic) : Diagnostic :=
  { d with location := d.location.down lines }

/-- A quote `bytes` bytes and `lines` lines further down. -/
def Quote.moved (bytes lines : Nat) (q : Quote) : Quote where
  quoter := q.quoter
  body := q.body
  span := q.span.shift bytes
  location := q.location.down lines
  bodyLocation := q.bodyLocation.down lines

/-- A quote behind the byte `start` is moved; what stands before it stays. -/
def Quote.movedFrom (start bytes lines : Nat) (q : Quote) : Quote :=
  if q.span.first < start then q else q.moved bytes lines

theorem Diagnostic.down_down (m n : Nat) (d : Diagnostic) : (d.down m).down n = d.down (m + n) := by
  simp only [down, Location.down_down]

theorem Quote.moved_moved (bytes bytes' lines lines' : Nat) (q : Quote) :
    (q.moved bytes lines).moved bytes' lines' = q.moved (bytes + bytes') (lines + lines') := by
  simp only [moved, ByteSpan.shift, Location.down_down, Nat.add_assoc]

theorem Quote.map_movedFrom {quotes : List Quote} {start : Nat}
    (hquotes : ∀ q ∈ quotes, q.span.first < start) (bytes lines lines' : Nat) (more : List Quote) :
    (quotes ++ more.map (moved start lines)).map (movedFrom start bytes lines') =
      quotes ++ more.map (moved (start + bytes) (lines + lines')) := by
  have hstay : quotes.map (movedFrom start bytes lines') = quotes := by
    have hsame : ∀ q ∈ quotes, movedFrom start bytes lines' q = id q :=
      fun q hq => if_pos (hquotes q hq)
    rw [List.map_congr_left hsame, List.map_id]
  have hmove : movedFrom start bytes lines' ∘ moved start lines =
      moved (start + bytes) (lines + lines') := by
    funext q
    have hlater : ¬ (q.moved start lines).span.first < start := by
      simp only [moved, ByteSpan.shift]
      omega
    rw [Function.comp_apply, movedFrom, if_neg hlater, moved_moved]
  rw [List.map_append, List.map_map, hstay, hmove]

namespace Scan

variable {marks : CommentSyntax} {isQuoter : String → Bool} {p q : Place} {pieces : List Piece}
  {lines cs : List Char}

def Found.shift (bytes : Nat) (f : Found) : Found := { f with first := f.first + bytes }

theorem Found.span_shift (bytes : Nat) (f : Found) : (f.shift bytes).span = f.span.shift bytes := by
  simp only [span, bodyFirst, shift, ByteSpan.shift]
  congr 1
  omega

theorem quotesFrom_append (offset : Nat) (pieces pieces' : List Piece) :
    quotesFrom offset (pieces ++ pieces') = quotesFrom offset pieces ++
      quotesFrom (offset + byteLength (pieces.map Piece.text).flatten) pieces' := by
  induction pieces generalizing offset with
  | nil => rfl
  | cons piece pieces ih =>
    simp only [List.cons_append, quotesFrom, ih, List.map_cons, List.flatten_cons,
      byteLength_append, List.append_assoc, Nat.add_assoc]

theorem quotesFrom_shift (bytes offset : Nat) (pieces : List Piece) :
    quotesFrom (bytes + offset) pieces = (quotesFrom offset pieces).map (·.shift bytes) := by
  induction pieces generalizing offset with
  | nil => rfl
  | cons piece pieces ih =>
    have hfound : piece.found (bytes + offset) = (piece.found offset).map (·.shift bytes) := by
      cases piece with
      | quote quoter body => simp [Piece.found, Found.shift, Nat.add_comm]
      | _ => rfl
    rw [quotesFrom, quotesFrom, List.map_append, hfound, Nat.add_assoc, ih]

/-! ## The start of a line is like the start of a file -/

/-- The character before a text only matters to quote marks that may belong to a name. -/
theorem Reads.of_before {depth depth' : Nat} {before before' : Option Char} {piece : Piece}
    (hbefore : continuesName before' = continuesName before)
    (h : Reads marks isQuoter depth before cs piece depth') :
    Reads marks isQuoter depth before' cs piece depth' := by
  cases h with
  | opening hblock hopens => exact .opening hblock hopens
  | nested hblock hnested hopens => exact .nested hblock hnested hopens
  | closing hblock hopens hcloses => exact .closing hblock hopens hcloses
  | inside hmarks => exact .inside hmarks
  | lineComment hblock hline htext hrest => exact .lineComment hblock hline htext hrest
  | charLiteral hcomment hopen hbody => exact .charLiteral hcomment (hbefore.trans hopen) hbody
  | string hcomment htext => exact .string hcomment htext
  | quote hcomment hopens hbody => exact .quote hcomment hopens hbody
  | single hcomment hchar hstring hquote =>
    rw [← hbefore] at hchar
    exact .single hcomment hchar hstring hquote

theorem continuesName_lines (hlines : lines.getLast? = some '\n') (seen : List Char) :
    continuesName (lines ++ seen).getLast? = continuesName seen.getLast? := by
  rw [List.getLast?_append, hlines]
  cases seen.getLast? with
  | none => rfl
  | some c => rfl

/-- What a scan does from a place on, it does also where whole lines stand before. -/
theorem Steps.behind_lines (hlines : lines.getLast? = some '\n')
    (h : Steps marks isQuoter p pieces q) :
    Steps marks isQuoter ⟨p.depth, lines ++ p.seen, p.rest⟩ pieces
      ⟨q.depth, lines ++ q.seen, q.rest⟩ := by
  induction h with
  | refl p => exact .refl _
  | step hstep _ ih =>
    refine .step ?_ ih
    obtain ⟨hreads⟩ := hstep
    rw [← List.append_assoc]
    exact .read (hreads.of_before (continuesName_lines hlines _))

end Scan

namespace Quote

open Scan

variable {marks : CommentSyntax} {isQuoter : String → Bool} {before after : String}
  {pieces : List Piece}

theorem ofFound_lines {lines : List Char} (hlines : lines.getLast? = some '\n') (cs : List Char)
    (f : Found) :
    ofFound (lines ++ cs) (f.shift (byteLength lines)) =
      (ofFound cs f).moved (byteLength lines) (lines.count '\n') := by
  have hbody : (f.shift (byteLength lines)).bodyFirst = byteLength lines + f.bodyFirst := by
    simp only [Found.bodyFirst, Found.shift]
    omega
  rw [ofFound, Found.span_shift, hbody, locationAt_lines hlines, positionAt_lines hlines]
  rfl

theorem ofFound_append {cs : List Char} {f : Found} (h : f.span.last ≤ byteLength cs)
    (after : List Char) : ofFound (cs ++ after) f = ofFound cs f := by
  have hbody : f.bodyFirst ≤ f.span.last := by
    simp only [Found.span]
    omega
  have hfirst : f.span.first ≤ f.bodyFirst := by
    simp only [Found.span, Found.bodyFirst]
    omega
  rw [ofFound, locationAt_append_of_le (by omega) h, positionAt_append_of_le (by omega)]
  rfl

/-- What is found in whole lines is there whatever follows them. -/
theorem scan_of_lines (hmarks : marks.WellFormed) (hin : marks.InLine)
    (hlines : before.toList.getLast? = some '\n')
    (hsteps : Steps marks isQuoter (.start (before ++ after).toList) pieces
      ⟨0, before.toList, after.toList⟩) :
    ∃ quotes, scan before marks isQuoter = .ok quotes ∧
      ∀ behind, (quotesFrom 0 pieces).map (ofFound (before.toList ++ behind)) = quotes := by
  have halone : Steps marks isQuoter (.start before.toList) pieces ⟨0, before.toList, []⟩ := by
    have hrest : (Place.start (before ++ after).toList).rest = before.toList ++ after.toList :=
      String.toList_append
    have hsame := hsteps.of_lines hmarks hin hrest (.inr hlines) (fun hne => absurd rfl hne)
    rwa [List.append_nil] at hsame
  have hscan := scan_of_rest_eq_nil hmarks halone rfl
  refine ⟨_, hscan, fun behind => List.map_congr_left fun f hf => ofFound_append ?_ behind⟩
  exact (stands_of_scan hscan (List.mem_map_of_mem hf)).2.1

/-- Where a scan comes to the end of whole lines outside of comments, it goes on as if a file
started there. -/
theorem scan_append_lines (hmarks : marks.WellFormed) (hlines : before.toList.getLast? = some '\n')
    (hsteps : Steps marks isQuoter (.start (before ++ after).toList) pieces
      ⟨0, before.toList, after.toList⟩) :
    let bytes := byteLength before.toList
    let lines := before.toList.count '\n'
    scan (before ++ after) marks isQuoter =
      ((scan after marks isQuoter).mapError (Diagnostic.down lines)).map
        ((quotesFrom 0 pieces).map (ofFound (before ++ after).toList) ++
          ·.map (moved bytes lines)) := by
  intro bytes lines
  -- What is read of the second part alone is read of it in the whole.
  obtain ⟨pieces', last, hafter, hfinal⟩ :=
    (Place.start after.toList).exists_steps hmarks isQuoter
  have hwhole : Steps marks isQuoter (.start (before ++ after).toList) (pieces ++ pieces')
      ⟨last.depth, before.toList ++ last.seen, last.rest⟩ := by
    have hmoved := hafter.behind_lines hlines
    simp only [Place.start, List.append_nil] at hmoved
    exact hsteps.append hmoved
  rcases hfinal with hrest | ⟨quoter, hunending⟩
  · have hbytes : byteLength (pieces.map Piece.text).flatten = bytes := by
      have hseen : before.toList = [] ++ (pieces.map Piece.text).flatten := hsteps.text_eq.1
      rw [List.nil_append] at hseen
      rw [← hseen]
    rw [scan_of_rest_eq_nil hmarks hwhole hrest, scan_of_rest_eq_nil hmarks hafter hrest,
      quotesFrom_append, hbytes, Nat.zero_add, List.map_append, String.toList_append]
    have hshift := quotesFrom_shift bytes 0 pieces'
    rw [Nat.add_zero] at hshift
    rw [hshift, List.map_map]
    simp only [Except.mapError, Except.map, List.map_map]
    congr 2
    exact List.map_congr_left fun f _ => ofFound_lines hlines after.toList f
  · have hspan : (⟨byteLength (before.toList ++ last.seen),
          byteLength (before.toList ++ last.seen) + byteLength quoter + 2⟩ : ByteSpan) =
        (⟨byteLength last.seen, byteLength last.seen + byteLength quoter + 2⟩ : ByteSpan).shift
          bytes := by
      simp only [byteLength_append, ByteSpan.shift, ByteSpan.mk.injEq]
      omega
    rw [scan_of_unending hmarks hwhole hunending, scan_of_unending hmarks hafter hunending, hspan,
      String.toList_append, locationAt_lines hlines]
    rfl

/-! ## Comments on lines of their own -/

/-- A whole comment line: two dashes or more, and behind them neither another dash nor an operator
symbol. -/
def IsCommentLine (line : List Char) : Prop :=
  ∃ n text, line = '-' :: '-' :: List.replicate n '-' ++ text ++ ['\n'] ∧ '\n' ∉ text ∧
    ∀ c ∈ text.head?, c ≠ '-' ∧ isOperatorSymbol c = false

/-- Dashes and a blank start a comment whatever follows. -/
theorem isCommentLine_blank (n : Nat) {text : List Char} (htext : '\n' ∉ text) :
    IsCommentLine ('-' :: '-' :: List.replicate n '-' ++ ' ' :: text ++ ['\n']) := by
  refine ⟨n, ' ' :: text, rfl, by simp [htext], ?_⟩
  rintro c ⟨⟩
  decide

theorem not_blockOpens_of_head {c : Char} (hc : c ≠ '\x7b') (cs : List Char) :
    ¬ BlockOpens haskell.comments (c :: cs) := by
  rw [haskell_comments]
  rintro ⟨opening, closing, hblock, hopens⟩
  obtain ⟨rfl, rfl⟩ := Prod.mk.inj (Option.some.inj hblock)
  exact hc (List.cons_prefix_cons.mp hopens).1.symm

theorem IsCommentLine.exists_line {line : List Char} (h : IsCommentLine line) :
    ∃ comment, line = comment ++ ['\n'] ∧ '\n' ∉ comment := by
  obtain ⟨n, text, rfl, htext, -⟩ := h
  exact ⟨'-' :: '-' :: List.replicate n '-' ++ text, rfl, by simp [htext]⟩

theorem reads_lineEnd (isQuoter : String → Bool) (before : Option Char) (rest : List Char) :
    Reads haskell.comments isQuoter 0 before ('\n' :: rest) (.single '\n') 0 := by
  refine .single ?_ (fun h => absurd h (by decide)) (by decide) ?_
  · rintro (h | ⟨final, k, behind, -, hcs, -⟩)
    · exact not_blockOpens_of_head (by decide) rest h
    · exact absurd (List.cons.inj hcs).1 (by decide)
  · rintro quoter behind ⟨hcs, -⟩
    exact absurd (List.cons.inj hcs).1 (by decide)

theorem step_lineEnd (isQuoter : String → Bool) (seen rest : List Char) :
    Step haskell.comments isQuoter ⟨0, seen, '\n' :: rest⟩ (.single '\n')
      ⟨0, seen ++ ['\n'], rest⟩ :=
  (reads_lineEnd isQuoter seen.getLast? rest).step rfl

/-- A whole comment line is read as the comment and its line end. -/
theorem steps_commentLine {line : List Char} (hline : IsCommentLine line) (isQuoter : String → Bool)
    (seen rest : List Char) :
    ∃ text, Steps haskell.comments isQuoter ⟨0, seen, line ++ rest⟩
      [.lineComment text, .single '\n'] ⟨0, seen ++ line, rest⟩ := by
  obtain ⟨n, text, rfl, htext, hhead⟩ := hline
  have hstarts : LineCommentStarts haskell.comments.line
      ('-' :: '-' :: List.replicate n '-' ++ text ++ '\n' :: rest) := by
    refine ⟨'-', n, text ++ '\n' :: rest, rfl, by simp [haskell_comments], ?_⟩
    cases text with
    | nil =>
      rintro c ⟨⟩
      decide
    | cons d text => exact hhead
  have hcomment : Reads haskell.comments isQuoter 0 seen.getLast?
      ('-' :: '-' :: List.replicate n '-' ++ text ++ '\n' :: rest)
      (.lineComment ('-' :: '-' :: List.replicate n '-' ++ text)) 0 := by
    refine .lineComment (not_blockOpens_of_head (by decide) _) hstarts ?_ (by simp)
    simp [htext]
  generalize '-' :: '-' :: List.replicate n '-' ++ text = comment at hcomment
  have hfirst : Step haskell.comments isQuoter ⟨0, seen, comment ++ '\n' :: rest⟩
      (.lineComment comment) ⟨0, seen ++ comment, '\n' :: rest⟩ := hcomment.step rfl
  refine ⟨comment, ?_⟩
  rw [List.append_assoc, ← List.append_assoc seen]
  exact .step hfirst (.step (step_lineEnd isQuoter _ rest) (.refl _))

theorem quotesFrom_string (offset : Nat) (pieces : List Piece) (text : List Char) :
    quotesFrom offset (pieces ++ [.string text]) = quotesFrom offset pieces := by
  rw [quotesFrom_append]
  exact List.append_nil _

/-- A comment line between whole lines is read without a quote, also where a string goes on into it
that it does not end. -/
theorem exists_steps_insert {line : List Char} (hlines : before.toList.getLast? = some '\n')
    (hsteps : Steps haskell.comments isQuoter (.start (before ++ after).toList) pieces
      ⟨0, before.toList, after.toList⟩) (hline : IsCommentLine line)
    (hstring : '"' ∈ line → ∀ text, pieces.getLast? ≠ some (.string text)) :
    ∃ pieces', Steps haskell.comments isQuoter
        (.start (before.toList ++ (line ++ after.toList))) pieces'
        ⟨0, before.toList ++ line, after.toList⟩ ∧
      quotesFrom 0 pieces' = quotesFrom 0 pieces := by
  have hrest : (Place.start (before ++ after).toList).rest = before.toList ++ after.toList :=
    String.toList_append
  -- A string at the end of the lines before may take the line end along and run on.
  by_cases hlast : ∃ text, pieces.getLast? = some (.string text)
  · obtain ⟨text, hlast⟩ := hlast
    have hquote : '"' ∉ line := fun hmem => hstring hmem text hlast
    obtain ⟨comment, rfl, hcomment⟩ := hline.exists_line
    obtain ⟨hend, hmore⟩ := hsteps.string_behind_lines haskell_comments_wellFormed
      haskell_comments_inLine hrest hlines hlast
    have hsame (more : List Char) :
        quotesFrom 0 (pieces.dropLast ++ [.string (text ++ more)]) = quotesFrom 0 pieces := by
      rw [quotesFrom_string, ← quotesFrom_string 0 pieces.dropLast text,
        List.dropLast_append_getLast? _ hlast]
    -- The string ends at the end of the new line or goes on over this one, too.
    rcases hend.line (fun h => hquote (List.mem_append_left _ h)) hcomment with htail | htail
    · have hlineEnd : Steps haskell.comments isQuoter
          ⟨0, before.toList ++ comment, '\n' :: after.toList⟩ [.single '\n']
          ⟨0, before.toList ++ comment ++ ['\n'], after.toList⟩ :=
        .step (step_lineEnd isQuoter _ _) (.refl _)
      have hread := (hmore comment _ htail).append hlineEnd
      rw [List.append_assoc before.toList] at hread
      rw [List.append_assoc comment]
      refine ⟨_, hread, ?_⟩
      rw [quotesFrom_append, hsame]
      exact List.append_nil _
    · exact ⟨_, hmore _ _ htail, hsame _⟩
  · obtain ⟨text, hcomment⟩ := steps_commentLine hline isQuoter before.toList after.toList
    have hbefore : Steps haskell.comments isQuoter
        (.start (before.toList ++ (line ++ after.toList))) pieces
        ⟨0, before.toList, line ++ after.toList⟩ :=
      hsteps.of_lines haskell_comments_wellFormed haskell_comments_inLine hrest (.inr hlines)
        fun _ text h => hlast ⟨text, h⟩
    refine ⟨_, hbefore.append hcomment, ?_⟩
    rw [quotesFrom_append]
    exact List.append_nil _

/-! ## Locality -/

/-- **A scan is local.** Where a scan of a Haskell file comes to the end of whole lines outside of
block comments, it has found what it finds in these lines alone, and it goes on as in a file of its
own: all places, also that of a quote without an end, are as many bytes and lines further down. So a
comment on a line of its own moves what stands behind it and changes nothing else, unless it stands
in a string that goes on over the line end, behind a backslash, and has a quotation mark. -/
theorem scan_local (isQuoter : String → Bool) {before after : String} {pieces : List Piece}
    (hlines : before.toList.getLast? = some '\n')
    (hsteps : Steps haskell.comments isQuoter (.start (before ++ after).toList) pieces
      ⟨0, before.toList, after.toList⟩) :
    let bytes := byteLength before.toList
    let lines := before.toList.count '\n'
    (∃ quotes, scan before haskell.comments isQuoter = .ok quotes ∧
      scan (before ++ after) haskell.comments isQuoter =
        ((scan after haskell.comments isQuoter).mapError (Diagnostic.down lines)).map
          (quotes ++ ·.map (moved bytes lines))) ∧
    ∀ line : String, IsCommentLine line.toList →
      ('"' ∈ line.toList → ∀ text, pieces.getLast? ≠ some (.string text)) →
      scan (before ++ line ++ after) haskell.comments isQuoter =
        ((scan (before ++ after) haskell.comments isQuoter).mapError (Diagnostic.down 1)).map
          (·.map (movedFrom bytes (byteLength line.toList) 1)) := by
  intro bytes lines
  obtain ⟨quotes, hbefore, hquotes⟩ :=
    scan_of_lines haskell_comments_wellFormed haskell_comments_inLine hlines hsteps
  have hwhole := scan_append_lines haskell_comments_wellFormed hlines hsteps
  rw [String.toList_append, hquotes] at hwhole
  refine ⟨⟨quotes, hbefore, hwhole⟩, fun line hline hstring => ?_⟩
  have hlist : (before ++ line ++ after).toList =
      before.toList ++ (line.toList ++ after.toList) := by
    rw [String.toList_append, String.toList_append, List.append_assoc]
  obtain ⟨pieces', hinserted, hsame⟩ := exists_steps_insert hlines hsteps hline hstring
  rw [← hlist, ← String.toList_append] at hinserted
  obtain ⟨comment, hcs, hlineEnd⟩ := hline.exists_line
  have hends : (before ++ line).toList.getLast? = some '\n' := by
    rw [String.toList_append, hcs, ← List.append_assoc, List.getLast?_concat]
  have hbytes : byteLength (before ++ line).toList = bytes + byteLength line.toList := by
    rw [String.toList_append, byteLength_append]
  have hcount : (before ++ line).toList.count '\n' = lines + 1 := by
    have hone : line.toList.count '\n' = 1 := by
      rw [hcs, List.count_append, List.count_eq_zero.mpr hlineEnd]
      rfl
    rw [String.toList_append, List.count_append, hone]
  -- The comment is no quote, so the same ones stand before the second part.
  have hfound : (quotesFrom 0 pieces').map (ofFound (before ++ line ++ after).toList) = quotes := by
    rw [hsame, hlist, hquotes]
  have hinserted := scan_append_lines haskell_comments_wellFormed hends hinserted
  rw [hfound, hbytes, hcount] at hinserted
  rw [hinserted, hwhole]
  cases scan after haskell.comments isQuoter with
  | error d => exact congrArg _ (d.down_down lines 1).symm
  | ok more =>
    refine congrArg _ (map_movedFrom (fun q hq => ?_) _ lines 1 more).symm
    have hstands := stands_of_scan hbefore hq
    exact Nat.lt_of_lt_of_le hstands.1 hstands.2.1

/-- A comment line is put behind another. -/
theorem scan_local_behind_comment :
    let before := "-- [rust| a |]\n"
    let after := "x = [rust| b |]\n"
    let line := "--- \"\n"
    before.toList.getLast? = some '\n' ∧ IsCommentLine line.toList ∧
    ∃ pieces, ('"' ∈ line.toList → ∀ text, pieces.getLast? ≠ some (.string text)) ∧
      Steps haskell.comments QuoteKind.isQuoter (.start (before ++ after).toList) pieces
        ⟨0, before.toList, after.toList⟩ ∧
      scan (before ++ line ++ after) haskell.comments QuoteKind.isQuoter =
        ((scan (before ++ after) haskell.comments QuoteKind.isQuoter).mapError
          (Diagnostic.down 1)).map
          (·.map (movedFrom (byteLength before.toList) (byteLength line.toList) 1)) := by
  intro before after line
  have hlines : before.toList.getLast? = some '\n' := by decide
  have hbefore : IsCommentLine before.toList := by
    have htext : before.toList = '-' :: '-' :: ' ' :: "[rust| a |]".toList ++ ['\n'] := by decide
    rw [htext]
    exact isCommentLine_blank 0 (by decide)
  have hline : IsCommentLine line.toList := by
    have htext : line.toList = '-' :: '-' :: List.replicate 1 '-' ++ ' ' :: ['"'] ++ ['\n'] := by
      decide
    rw [htext]
    exact isCommentLine_blank 1 (by decide)
  obtain ⟨text, hsteps⟩ : ∃ text, Steps haskell.comments QuoteKind.isQuoter
      (.start (before ++ after).toList) [.lineComment text, .single '\n']
      ⟨0, before.toList, after.toList⟩ := by
    rw [String.toList_append]
    exact steps_commentLine hbefore QuoteKind.isQuoter [] after.toList
  have hstring (_ : '"' ∈ line.toList) (text' : List Char) :
      [Piece.lineComment text, .single '\n'].getLast? ≠ some (.string text') := by
    simp
  exact ⟨hlines, hline, _, hstring, hsteps,
    (scan_local QuoteKind.isQuoter hlines hsteps).2 line hline hstring⟩

/-- The exception is one: a string goes on over the line end, and the comment is part of it up to
the first quotation mark. -/
theorem scan_local_not_in_string :
    let before := "\"\\\n"
    let after := "\n"
    let line := "-- \" [rust| i32 { 0 } |]\n"
    before.toList.getLast? = some '\n' ∧ IsCommentLine line.toList ∧
    Steps haskell.comments QuoteKind.isQuoter (.start (before ++ after).toList)
      [.string ['"', '\\', '\n']] ⟨0, before.toList, after.toList⟩ ∧
    scan (before ++ after) haskell.comments QuoteKind.isQuoter = .ok [] ∧
    (scan (before ++ line ++ after) haskell.comments QuoteKind.isQuoter).map (·.map (·.body)) =
      .ok [" i32 { 0 } "] := by
  intro before after line
  have hline : IsCommentLine line.toList := by
    have htext : line.toList = '-' :: '-' :: ' ' :: "\" [rust| i32 { 0 } |]".toList ++ ['\n'] := by
      decide
    rw [htext]
    exact isCommentLine_blank 0 (by decide)
  have hcomment : ¬ CommentStarts haskell.comments ['"', '\\', '\n', '\n'] := by
    rw [CommentStarts, blockOpens_iff, ← startsLineComment_iff]
    decide
  have hreads : Reads haskell.comments QuoteKind.isQuoter 0 none ['"', '\\', '\n', '\n']
      (.string ['"', '\\', '\n']) 0 :=
    .string hcomment (.escape '\n' (.lineEnd []))
  refine ⟨by decide, hline, ?_, ?_, ?_⟩
  · have hbefore : before.toList = ['"', '\\', '\n'] := by decide
    have hafter : after.toList = ['\n'] := by decide
    rw [String.toList_append, hbefore, hafter]
    exact .step (hreads.step rfl) (.refl _)
  · decide +kernel
  · decide +kernel

end Quote

end Graft

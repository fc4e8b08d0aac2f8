import Graft.Proofs.Token.Inside

/-!
# Spellings that are read again

Where the spelling of some tokens is read as tokens that count as much, it holds no comment, so that
it is read in the same way inside parentheses and behind the marks of a pointer.
-/

namespace Graft.Token

variable {us ts : List Token} {outer : List OpenGroup} {before : List Token} {p : Position}
  {cs rest tail : List Char}

/-- The spelling of `us` is read as `ts`, which count no less. -/
structure Returns (us ts : List Token) : Prop where
  reads : read (spelling us).toList = .ok ts
  counts : skipsAll us ≤ skipsAll ts

namespace Returns

/-- Nothing that may be passed over is passed over. -/
theorem skips_le (h : Returns us ts) : skipsOf (spelling us).toList ≤ skipsAll ts := by
  rw [skipsOf_spelling]
  exact (skipsOf_compactAll_le false us).trans h.counts

/-- No byte order mark is passed over. -/
theorem head_ne_mark (h : Returns us ts) : ∀ c ∈ (spelling us).toList.head?, c.toNat ≠ 0xFEFF := by
  intro c hc hmark
  obtain ⟨cs, hcs⟩ := List.head?_eq_some_iff.mp hc
  have hreads := h.reads
  have hskips := h.skips_le
  rw [hcs] at hreads hskips
  rw [read, if_pos hmark] at hreads
  have hle := readFrom_skips hreads
  have hcount : skipsOf (c :: cs) = skipsOf cs + 1 := by simp [skipsOf_cons, isSkip, hmark]
  simp only [pending, skipsAll_nil] at hle
  omega

theorem readFrom_start (h : Returns us ts) :
    readFrom [] [] .start (spelling us).toList = .ok ts := by
  have hreads := h.reads
  have hhead := h.head_ne_mark
  cases htext : (spelling us).toList with
  | nil =>
    rw [htext] at hreads
    rw [readFrom_nil, ← Except.ok.inj hreads]
    rfl
  | cons c cs =>
    rw [htext] at hreads hhead
    rw [read, if_neg (hhead c rfl)] at hreads
    exact hreads

theorem skips_eq (h : Returns us ts) : skipsAll us = skipsOf (spelling us).toList := by
  have hle := readFrom_skips h.readFrom_start
  have hspelling := skipsOf_compactAll_le false us
  have hcounts := h.counts
  rw [← skipsOf_spelling] at hspelling
  simp only [pending, skipsAll_nil] at hle
  omega

/-- Wherever the spelling stands, up to the blanks at its end, it is read as the same tokens. -/
theorem readFrom_eq (h : Returns us ts) (htext : (spelling us).toList = cs ++ tail)
    (htail : Blanks tail) (hrest : Parting rest) (outer : List OpenGroup) (before : List Token)
    (p : Position) : ∃ new q, unplacedAll new = unplacedAll ts ∧
      readFrom outer before p (cs ++ rest) = readFrom outer (new.reverse ++ before) q rest := by
  have hread := h.readFrom_start
  have hskips := h.skips_le
  rw [htext] at hread hskips
  refine readFrom_over htail hrest hread ?_ (@Over.top _ _ [] [] rfl) p
  simpa [pending] using hskips

end Returns

/-! ## Inside parentheses -/

theorem spaceArrows_dropFinalSpace (cs : List Char) :
    ∃ tail, Blanks tail ∧ spaceArrows cs = spaceArrows (dropFinalSpace cs) ++ tail := by
  unfold dropFinalSpace
  split
  next hlast =>
    obtain ⟨front, rfl⟩ := List.getLast?_eq_some_iff.mp hlast
    refine ⟨[' '], by simp [Blanks], ?_⟩
    rw [List.dropLast_concat, spaceArrows_append_cons (by decide)]
    rfl
  next => exact ⟨[], by simp [Blanks], (List.append_nil _).symm⟩

theorem spelling_parens (us : List Token) (span : Span) :
    (spelling [.group .parenthesis us span]).toList =
      '(' :: (spaceArrows (dropFinalSpace (compactAll false us)) ++ [')']) := by
  rw [spelling, String.toList_ofList]
  show spaceArrows ('(' :: (dropFinalSpace (compactAll false us) ++ [')'] ++ [])) = _
  rw [List.append_nil, spaceArrows, spaceArrows_append_cons (by decide)]
  · rfl
  · simp

theorem Returns.parens (h : Returns us ts) : ∃ ts',
    Returns [.group .parenthesis us .nowhere] ts' ∧
      unplacedAll ts' = [.group .parenthesis (unplacedAll ts) .nowhere] := by
  obtain ⟨tail, htail, harrows⟩ := spaceArrows_dropFinalSpace (compactAll false us)
  have htext : (spelling us).toList =
      spaceArrows (dropFinalSpace (compactAll false us)) ++ tail := by
    rw [spelling, String.toList_ofList, harrows]
  have hstart := h.readFrom_start
  have hskips := h.skips_le
  rw [htext] at hstart hskips
  have hclosing : Parting [')'] := by simp [Parting]
  have hmark := errorMark_append (d := .parenthesis) hclosing hstart
    (by simpa [pending] using hskips)
  obtain ⟨new, q, hnew, hread⟩ := h.readFrom_eq htext htail hclosing
    [⟨.parenthesis, [], .start⟩] [] (Position.start.next '(')
  have hgroup : read (spelling [.group .parenthesis us .nowhere]).toList =
      .ok [.group .parenthesis new ⟨.start, q.next ')'⟩] := by
    rw [spelling_parens, read, if_neg (by decide)]
    refine (readFrom_opens hmark).trans (hread.trans ?_)
    rw [List.append_nil]
    refine (readFrom_closing (d := .parenthesis)).trans ?_
    rw [List.reverse_reverse, readFrom_nil]
    rfl
  refine ⟨_, ⟨hgroup, ?_⟩, by simp only [unplacedAll, unplaced, hnew]⟩
  have hcounts := congrArg skipsAll hnew
  rw [skipsAll_unplacedAll, skipsAll_unplacedAll] at hcounts
  simpa [skips, hcounts] using h.counts

/-! ## Behind the marks of a pointer -/

/-- Nothing that `cs` starts with goes on from a word. -/
def Apart (cs : List Char) : Prop := ∀ c ∈ cs.head?, isIdentContinue c = false

/-- A word that opens no literal is read as itself. -/
theorem readFrom_word {c : Char} {word : List Char} (hsolid : Solid c)
    (hc : isIdentStart c = true) (hword : ∀ d ∈ word, isIdentContinue d = true)
    (hquoted : Literal.length?.quoted (c :: word ++ cs) = none)
    (hopens : opensLiteral (c :: word ++ cs) = false)
    (hraw : startsWith "r#" (c :: word ++ cs) = false) (hcs : Apart cs) :
    readFrom outer before p (c :: word ++ cs) =
      readFrom outer (.ident (.ofList (c :: word)) ⟨p, p.advance (c :: word)⟩ :: before)
        (p.advance (c :: word)) cs := by
  have hlength : Literal.length? (c :: word ++ cs) = none :=
    Literal.length?_of_unquoted (isDigit_of_isIdentStart hc) hquoted
  have hmark : startsMark (c :: word ++ cs) = false := by
    simp [startsMark, isMark_of_isIdentStart hc]
  have hbehind : cs.takeWhile isIdentContinue = [] := by
    cases cs with
    | nil => rfl
    | cons d cs => exact List.takeWhile_cons_of_neg (Bool.eq_false_iff.mp (hcs d rfl))
  have hname : nameLength? (c :: word ++ cs) = some (c :: word).length := by
    rw [nameLength?, if_neg (Bool.eq_false_iff.mp hraw), List.cons_append, Literal.identLength?,
      if_pos hc, List.takeWhile_append_of_pos hword, hbehind, List.append_nil, List.length_cons,
      Nat.add_comm]
  have hleaf : leaf? p (c :: word ++ cs) = some (.ident (.ofList (c :: word))
      ⟨p, p.advance (c :: word)⟩, (c :: word).length) := by
    rw [leaf?, hlength, hmark, hopens, hname]
    simp only [leaf?.covering, List.take_left]
    rfl
  obtain ⟨hopened, hclosed⟩ := delimiter_of_solid_word hc
  exact readFrom_leaf hsolid hopened hclosed hleaf

theorem readFrom_kind {kind : String} (hkind : kind = "const" ∨ kind = "mut") (hcs : Apart cs)
    (outer : List OpenGroup) (before : List Token) (p : Position) : ∃ span q,
      readFrom outer before p (kind.toList ++ cs) =
        readFrom outer (.ident kind span :: before) q cs := by
  rcases hkind with rfl | rfl
  · exact ⟨_, _, readFrom_word (c := 'c') ⟨by decide, by decide⟩ (by decide) (by decide) rfl rfl rfl
      hcs⟩
  · exact ⟨_, _, readFrom_word (c := 'm') ⟨by decide, by decide⟩ (by decide) (by decide) rfl rfl rfl
      hcs⟩

theorem compactAll_afterWord (us : List Token) :
    compactAll true us = compactAll false us ∨ compactAll true us = ' ' :: compactAll false us := by
  cases us with
  | nil => exact .inl rfl
  | cons t us =>
    rw [compactAll, compactAll]
    cases t with
    | ident name span => exact .inr rfl
    | literal text span => exact .inr rfl
    | punct c spacing span =>
      by_cases hc : c = '\''
      · subst hc
        exact .inr rfl
      · exact .inl (by simp [compact, hc])
    | group d inner span =>
      cases d with
      | brace => exact .inr rfl
      | _ => exact .inl rfl

theorem head_spaceArrows {c : Char} (h : (spaceArrows cs).head? = some c) :
    c = ' ' ∨ cs.head? = some c := by
  unfold spaceArrows at h
  split at h
  · exact .inl (Option.some.inj h).symm
  · exact .inr h
  · cases h

theorem isIdentContinue_of_isMark {c : Char} (hc : isMark c = true) :
    isIdentContinue c = false := by
  have hmarks : ∀ d ∈ "~!@#$%^&*-=+|;:,<.>/?'".toList, isIdentContinue d = false := by decide
  exact hmarks c (List.contains_iff_mem.mp hc)

/-- What needs no blank before it does not go on from a word. -/
theorem Returns.apart (h : Returns us ts) (hword : compactAll true us = compactAll false us) :
    Apart (spelling us).toList := by
  intro c hc
  have hmark := h.head_ne_mark c hc
  have hcounts := h.skips_eq
  rw [skipsOf_spelling] at hcounts
  rw [spelling, String.toList_ofList] at hc
  rcases head_spaceArrows hc with rfl | hc
  · decide
  cases us with
  | nil => cases hc
  | cons t us =>
    -- Words, literals and braces are parted from a word before them, so `us` starts otherwise.
    have hmore := skipsOf_compactAll_le t.isWord us
    rw [compactAll, skipsAll_cons, skipsOf_append] at hcounts
    cases t with
    | ident name span => simp [compactAll, compact] at hword
    | literal text span => simp [compactAll, compact] at hword
    | group d inner span =>
      cases d with
      | brace => simp [compactAll, compact] at hword
      | parenthesis =>
        obtain rfl : '(' = c := Option.some.inj hc
        decide
      | bracket =>
        obtain rfl : '[' = c := Option.some.inj hc
        decide
    | punct mark spacing span =>
      -- A mark that is no punctuation would count more than it is spelled with.
      have hpunct : isSkip mark = true ∨ isMark mark = true := by
        by_contra hnot
        rw [not_or, Bool.not_eq_true, Bool.not_eq_true] at hnot
        rw [skips, skipsOf_punct, hnot.1, hnot.2] at hcounts
        simp only [Bool.false_or, Bool.not_false, if_true, Bool.false_eq_true, if_false] at hcounts
        omega
      obtain rfl : mark = c := by
        rw [compactAll, compact] at hc
        split at hc
        next hcomma => exact hcomma.trans (Option.some.inj hc)
        split at hc
        next hsemicolon => exact hsemicolon.trans (Option.some.inj hc)
        · rw [Bool.and_false, if_neg Bool.false_ne_true] at hc
          exact Option.some.inj hc
      rcases hpunct with hskip | hpunct
      · rw [isSkip, Bool.or_eq_true, decide_eq_true_iff, decide_eq_true_iff] at hskip
        rw [hskip.resolve_right hmark]
        decide
      · exact isIdentContinue_of_isMark hpunct

theorem readFrom_blanks_append {gap : List Char} (hgap : Blanks gap) (cs : List Char)
    (outer : List OpenGroup) (before : List Token) (p : Position) :
    ∃ q, readFrom outer before p (gap ++ cs) = readFrom outer before q cs := by
  induction gap generalizing p with
  | nil => exact ⟨p, rfl⟩
  | cons c gap ih =>
    obtain rfl := hgap c List.mem_cons_self
    obtain ⟨q, hq⟩ := ih (fun d hd => hgap d (List.mem_cons_of_mem _ hd)) (p.next ' ')
    exact ⟨q, readFrom_blank.trans hq⟩

theorem Returns.gap (h : Returns us ts) : ∃ gap, Blanks gap ∧ Apart (gap ++ (spelling us).toList) ∧
    spaceArrows (compactAll true us) = gap ++ (spelling us).toList := by
  have htext : (spelling us).toList = spaceArrows (compactAll false us) := by
    rw [spelling, String.toList_ofList]
  rcases compactAll_afterWord us with hword | hword
  · exact ⟨[], by simp [Blanks], h.apart hword, by rw [hword, htext]; rfl⟩
  · refine ⟨[' '], by simp [Blanks], ?_, by rw [hword, htext]; rfl⟩
    intro c hc
    obtain rfl : ' ' = c := Option.some.inj hc
    decide

theorem Returns.pointer {kind : String} (h : Returns us ts)
    (hkind : kind = "const" ∨ kind = "mut") :
    ∃ ts', Returns (mark '*' :: word kind :: us) ts' ∧
      unplacedAll ts' = mark '*' :: word kind :: unplacedAll ts := by
  obtain ⟨gap, hgap, hapart, hcompact⟩ := h.gap
  have htext : (spelling (mark '*' :: word kind :: us)).toList =
      '*' :: (kind.toList ++ (gap ++ (spelling us).toList)) := by
    have hminus : '-' ∉ kind.toList := by rcases hkind with rfl | rfl <;> decide
    rw [spelling, String.toList_ofList, ← hcompact]
    show spaceArrows (['*'] ++ (kind.toList ++ compactAll true us)) = _
    rw [spaceArrows_append (by decide), spaceArrows_append hminus]
    rfl
  obtain ⟨span, p₁, hstar⟩ : ∃ span p₁, read (spelling (mark '*' :: word kind :: us)).toList =
      readFrom [] [.punct '*' .alone span] p₁ (kind.toList ++ (gap ++ (spelling us).toList)) := by
    have halone : startsMark (kind.toList ++ (gap ++ (spelling us).toList)) = false := by
      rcases hkind with rfl | rfl <;> rfl
    rw [htext, read, if_neg (by decide), readFrom_mark (by decide), halone]
    exact ⟨_, _, rfl⟩
  obtain ⟨span', p₂, hword⟩ := readFrom_kind hkind hapart [] [.punct '*' .alone span] p₁
  obtain ⟨p₃, hblanks⟩ := readFrom_blanks_append hgap (spelling us).toList []
    [.ident kind span', .punct '*' .alone span] p₂
  obtain ⟨new, q, hnew, hread⟩ := h.readFrom_eq (List.append_nil _).symm (by simp [Blanks])
    Parting.nil [] [.ident kind span', .punct '*' .alone span] p₃
  rw [List.append_nil, readFrom_nil, List.reverse_append, List.reverse_reverse] at hread
  -- The star, the word, the gap and the spelling are read one behind the other.
  have hall := hstar.trans (hword.trans (hblanks.trans hread))
  have hcounts := congrArg skipsAll hnew
  rw [skipsAll_unplacedAll, skipsAll_unplacedAll] at hcounts
  refine ⟨_, ⟨hall, ?_⟩, congrArg (fun us => mark '*' :: word kind :: us) hnew⟩
  have hus := h.counts
  rw [← hcounts] at hus
  simpa [mark, word, skips] using hus

end Graft.Token

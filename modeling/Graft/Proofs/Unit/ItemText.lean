import Graft.Proofs.Grammar.Sequence
import Graft.Proofs.Token.Ahead

/-!
# Texts of items before more text

A text of items is read up to the semicolon or the brace that closes its last item; behind that
only blanks and comments are left. So it is read the same on a line above other text, also with the
blanks at its end trimmed.
-/

namespace Graft.Token

variable {groups groups' outer : List OpenGroup} {done done' before ts : List Token}
  {p : Position} {c : Char} {cs behind rest : List Char}

/-! ## Blanks and comments -/

/-- A text of blanks and comments alone. -/
def Skipped (cs : List Char) : Prop := Comment.blankLength cs = cs.length

theorem skipped_nil : Skipped [] := by
  rw [Skipped, Comment.blankLength]
  rfl

/-- A comment or a blank before what is skipped is skipped as well. -/
theorem Skipped.of_drop {n : Nat} (hpiece : Comment.pieceLength (c :: cs) = n + 1)
    (h : Skipped (cs.drop n)) : Skipped (c :: cs) := by
  have hle := Comment.pieceLength_le (c :: cs)
  rw [hpiece, List.length_cons] at hle
  have hdrop : Comment.blankLength (cs.drop n) = cs.length - n := h.trans List.length_drop
  rw [Skipped, blankLength_eq, hpiece, List.drop_succ_cons, hdrop, List.length_cons]
  omega

/-- What is skipped starts with a comment or a blank, behind which the rest is skipped. -/
theorem Skipped.exists_drop (h : Skipped (c :: cs)) :
    ∃ n, Comment.pieceLength (c :: cs) = n + 1 ∧ Skipped (cs.drop n) := by
  cases hpiece : Comment.pieceLength (c :: cs) with
  | zero =>
    rw [Skipped, Comment.blankLength] at h
    simp [hpiece] at h
  | succ n =>
    have hle := Comment.pieceLength_le (c :: cs)
    rw [hpiece, List.length_cons] at hle
    rw [Skipped, blankLength_eq, hpiece, List.drop_succ_cons, List.length_cons] at h
    refine ⟨n, rfl, ?_⟩
    rw [Skipped, List.length_drop]
    omega

theorem isMark_of_isBlankMark (h : Comment.isBlankMark c = true) : isMark c = false := by
  by_contra hmark
  rw [Bool.not_eq_false] at hmark
  have hmarks : ∀ d ∈ "~!@#$%^&*-=+|;:,<.>/?'".toList, Comment.isBlankMark d = false := by decide
  rw [hmarks c (List.contains_iff_mem.mp hmark)] at h
  cases h

/-- No mark starts a comment or a blank. -/
theorem startsMark_of_pieceLength (h : Comment.pieceLength cs ≠ 0) : startsMark cs = false := by
  unfold startsMark
  by_cases hline : startsWith "//" cs = true
  · rw [hline]
    rfl
  by_cases hblock : startsWith "/*" cs = true
  · rw [hblock, Bool.not_true, Bool.and_false]
    rfl
  have hempty : ¬ startsWith "/**/" cs = true := fun hempty =>
    hblock (Comment.startsWith_of_append ⟨['*', '/'], rfl⟩ hempty)
  simp only [Comment.pieceLength, hline, hblock, hempty, Bool.false_and] at h
  cases cs with
  | nil => rfl
  | cons c cs =>
    have hblank : Comment.isBlankMark c = true := by
      by_contra hblank
      simp [hblank] at h
    simp [isMark_of_isBlankMark hblank]

theorem Skipped.startsMark (h : Skipped cs) : startsMark cs = false := by
  cases cs with
  | nil => rfl
  | cons c cs =>
    obtain ⟨n, hpiece, -⟩ := h.exists_drop
    exact startsMark_of_pieceLength (by simp [hpiece])

theorem free_of_isBlank {tail : List Char} (h : ∀ c ∈ tail, isBlank c = true) :
    Comment.Free tail := by
  intro c hc hmem
  have hmarks : ∀ d ∈ Comment.marks, isBlank d = false := by decide
  have hblank := h c (List.mem_of_mem_head? hc)
  rw [hmarks c hmem] at hblank
  cases hblank

/-- Blanks behind what is skipped may be dropped before the end of a line. -/
theorem readFrom_skipped {tail : List Char} (h : Skipped (cs ++ tail))
    (htail : ∀ c ∈ tail, isBlank c = true) (groups : List OpenGroup) (done : List Token)
    (p : Position) (rest : List Char) :
    ∃ q, readFrom groups done p (cs ++ '\n' :: rest) = readFrom groups done q ('\n' :: rest) := by
  have hfree := free_of_isBlank htail
  have hslash : '/' ∉ tail := fun hmem => by cases htail '/' hmem
  have hline : Comment.Free ('\n' :: rest) := .of_halts (.cons (by decide) rest)
  -- Each piece leaves fewer characters.
  induction hlength : cs.length using Nat.strongRecOn generalizing cs p with
  | ind n ih =>
    subst hlength
    cases cs with
    | nil => exact ⟨p, rfl⟩
    | cons c cs =>
      obtain ⟨n, hpiece, hskipped⟩ := Skipped.exists_drop h
      have hne : Comment.pieceLength (c :: cs ++ tail) ≠ 0 := fun hzero =>
        Nat.succ_ne_zero n (hpiece.symm.trans hzero)
      by_cases hopen : startsWith "//" (c :: cs) = true ∧ '\n' ∉ c :: cs
      · -- The line goes on to the end of the text.
        obtain ⟨hstarts, hmem⟩ := hopen
        have hall : ∀ d ∈ c :: cs, decide (d ≠ '\n') = true := fun d hd =>
          decide_eq_true fun heq => hmem (heq ▸ hd)
        have hwhole : Comment.lineLength (c :: cs ++ '\n' :: rest) = (c :: cs).length := by
          rw [Comment.lineLength, List.takeWhile_append_of_pos hall]
          simp
        have hread := Comment.pieceLength_line hfree hline hstarts hne
        rw [readFrom_piece, hread, hwhole, List.drop_left]
        exact ⟨_, rfl⟩
      · have hclosed : Comment.Closed (c :: cs) := by
          refine ⟨fun hstarts => ?_, fun hstarts => ?_⟩
          · by_contra hmem
            exact hopen ⟨hstarts, hmem⟩
          · have hblock := Comment.pieceLength_of_block
              ((hfree.startsWith (by decide) (c :: cs)).trans hstarts) hne
            have hle := Comment.blockLength?_within hblock hslash
            have hwithin := Comment.blockLength?_local hblock hle []
            rw [List.append_nil] at hwithin
            exact ⟨_, hwithin⟩
        have hcs : c :: cs ≠ [] := List.cons_ne_nil c cs
        have hfront : Comment.pieceLength (c :: cs) = n + 1 :=
          (Comment.pieceLength_append hfree hcs hclosed).symm.trans hpiece
        have hahead : Comment.pieceLength (c :: cs ++ '\n' :: rest) = n + 1 :=
          (Comment.pieceLength_append hline hcs hclosed).trans hfront
        have hle := Comment.pieceLength_le (c :: cs)
        rw [hfront, List.length_cons] at hle
        have hdrop : ∀ rest : List Char, (cs ++ rest).drop n = cs.drop n ++ rest := fun rest =>
          List.drop_append_of_le_length (Nat.le_of_succ_le_succ hle)
        have hshorter : (cs.drop n).length < (c :: cs).length := by
          rw [List.length_drop, List.length_cons]
          omega
        rw [readFrom_piece, hahead, List.cons_append, List.drop_succ_cons, hdrop]
        exact ih _ hshorter (hdrop tail ▸ hskipped) _ rfl

/-! ## The end of the last item -/

theorem Over.finish (h : Over outer before [] done groups' done') :
    groups' = outer ∧ ∃ new, done' = new.reverse ++ before ∧
      unplacedAll new = unplacedAll done.reverse := by
  cases h with
  | @top _ us hdone =>
    exact ⟨rfl, us.reverse, by rw [List.reverse_reverse], unplacedAll_reverse hdone⟩

/-- The text `cs` is read as `ts` up to the character `last` that closes the last item, and what
stands behind that instead of `behind` is read on, inside of other groups and at another place. -/
structure ClosesAt (ts : List Token) (groups : List OpenGroup) (done : List Token) (cs : List Char)
    (front : List Char) (last : Char) (behind : List Char) : Prop where
  text_eq : cs = front ++ last :: behind
  closes : last = ';' ∨ last = '\x7d'
  skipped : Skipped behind
  ahead (rest : List Char) : startsMark rest = false →
    ∀ {outer before groups' done'}, Over outer before groups done groups' done' → ∀ p,
      ∃ new q, unplacedAll new = unplacedAll ts ∧
        readFrom groups' done' p (front ++ last :: rest) =
          readFrom outer (new.reverse ++ before) q rest

/-- A turn that leaves a text with a last item is part of such a text. -/
theorem ClosesAt.turn {groups₁ : List OpenGroup} {done₁ : List Token} {q : Position}
    {cs₁ front : List Char} {last : Char} (h : ClosesAt ts groups₁ done₁ cs₁ front last behind)
    (hturn : Turn groups done p c cs groups₁ done₁ q cs₁) :
    ∃ taken, ClosesAt ts groups done (c :: cs) (c :: (taken ++ front)) last behind := by
  obtain ⟨rfl, hcloses, hskipped, hahead⟩ := h
  refine ⟨cs.take (stride (c :: cs) - 1), ?_⟩
  have hcs : cs = (cs.take (stride (c :: cs) - 1) ++ front) ++ last :: behind := by
    rw [List.append_assoc, hturn.left_eq, List.take_append_drop]
  have hle : front.length ≤ (cs.take (stride (c :: cs) - 1) ++ front).length := by
    rw [List.length_append]
    exact Nat.le_add_left _ _
  generalize cs.take (stride (c :: cs) - 1) ++ front = above at hcs hle
  subst hcs
  have hstop : last ∈ haltMarks := by rcases hcloses with rfl | rfl <;> decide
  have hhalts : ∀ rest, Halts (last :: rest) := Halts.cons hstop
  have hline : last ≠ '\n' := by rcases hcloses with rfl | rfl <;> decide
  have hmark : ∀ rest, startsMark (last :: rest) = startsMark (last :: behind) := by
    intro rest
    rcases hcloses with rfl | rfl <;> rfl
  have herror : ∀ rest, startsWith errorMark (c :: above ++ last :: rest) =
      startsWith errorMark (c :: above) := by
    intro rest
    refine startsWith_append_of_head (fun d hd => ?_) (c :: above)
    rw [← Option.some.inj hd]
    rcases hcloses with rfl | rfl <;> decide
  have hclosed := hturn.closed_before hline (.of_halts (hhalts behind))
  refine ⟨rfl, hcloses, hskipped, fun rest hrest outer before groups' done' hover p' => ?_⟩
  obtain ⟨groups₂, done₂, q', hover', hread⟩ := hturn.ahead hle (hhalts behind) (hhalts rest)
    (hmark rest) hclosed (herror behind) (herror rest) hover p'
  obtain ⟨new, q'', hnew, hbehind⟩ := hahead rest hrest hover' q'
  exact ⟨new, q'', hnew, hread.trans hbehind⟩

theorem getLast?_docTokens (d : Comment.Doc) (span : Span) :
    ∃ inner, (Comment.docTokens d span).getLast? = some (.group .bracket inner span) := by
  unfold Comment.docTokens
  cases d.inner <;> exact ⟨_, rfl⟩

theorem sealed_concat {t : Token} (ht : t.endsItem = true) : Sealed (ts ++ [t]) := by
  intro u hu
  rw [List.getLast?_concat] at hu
  rw [← Option.some.inj hu]
  exact ht

/-- The brace that closes the last group is the end of the last item. -/
theorem closing_ends {g : OpenGroup} {span : Span}
    (hts : ts = g.before.reverse ++ [.group g.delimiter done.reverse span])
    (hlast : ∀ t ∈ ts.getLast?, t.closesItem = true) (hskipped : Skipped cs) :
    Sealed ts ∧ ∃ front last behind,
      ClosesAt ts [g] done (g.delimiter.closing :: cs) front last behind := by
  obtain ⟨d, us, start⟩ := g
  have hcloses : (group d done.reverse span).closesItem = true :=
    hlast _ (by rw [hts]; exact List.getLast?_concat)
  cases d with
  | brace =>
    refine ⟨hts ▸ sealed_concat rfl, [], '\x7d', cs, rfl, .inr rfl, hskipped, ?_⟩
    intro rest _ outer before groups' done' hover p
    obtain ⟨⟨d, us', start'⟩, above, rfl, hsame, hclosed⟩ := hover.closed
    obtain rfl : d = .brace := hsame
    obtain ⟨rfl, new, hdone, hnew⟩ := (hclosed span ⟨start', p.next '\x7d'⟩).finish
    refine ⟨new, p.next '\x7d', ?_, ?_⟩
    · rw [hnew, hts, List.reverse_cons]
    · rw [← hdone]
      exact readFrom_closing
  | parenthesis => cases hcloses
  | bracket => cases hcloses

/-- The last token, if it is no group, is the semicolon at the end of the last item. -/
theorem semicolon_ends {t : Token} {n : Nat} (hts : ts = done.reverse ++ [t])
    (hlast : ∀ t ∈ ts.getLast?, t.closesItem = true) (hleaf : leaf? p (c :: cs) = some (t, n))
    (hskipped : Skipped (cs.drop (n - 1))) :
    Sealed ts ∧ ∃ front last behind, ClosesAt ts [] done (c :: cs) front last behind := by
  obtain ⟨hpos, -, hshows, hisLeaf⟩ := leaf?_eq_some hleaf
  have hcloses : t.closesItem = true := hlast t (by rw [hts]; exact List.getLast?_concat)
  have hmark : ∀ (p : Position) (cs : List Char), startsMark cs = false →
      leaf? p (';' :: cs) = some (.punct ';' .alone ⟨p, p.next ';'⟩, 1) := by
    intro p cs hcs
    rw [leaf?_of_mark (by decide) (by decide) (by decide), hcs]
    rfl
  -- Of the tokens that are no groups only the semicolon closes an item.
  obtain ⟨rfl, rfl⟩ : c = ';' ∧ n = 1 := by
    cases t with
    | punct mark spacing span =>
      have hsemicolon : mark = ';' := of_decide_eq_true hcloses
      subst hsemicolon
      obtain ⟨m, rfl⟩ := Nat.exists_eq_add_of_le' hpos
      have htake : c :: cs.take m = [';'] := hshows
      obtain ⟨rfl, -⟩ := List.cons.inj htake
      rw [leaf?_of_mark (by decide) (by decide) (by decide)] at hleaf
      exact ⟨rfl, (Prod.mk.inj (Option.some.inj hleaf)).2.symm⟩
    | group d inner span => exact absurd rfl (hisLeaf d inner span)
    | _ => cases hcloses
  rw [hmark p cs hskipped.startsMark] at hleaf
  obtain ⟨rfl, -⟩ := Prod.mk.inj (Option.some.inj hleaf)
  refine ⟨hts ▸ sealed_concat rfl, [], ';', cs, rfl, .inl rfl, hskipped, ?_⟩
  intro rest hrest outer before groups' done' hover p'
  have hover' : Over outer before [] (.punct ';' .alone ⟨p, p.next ';'⟩ :: done) groups'
      (.punct ';' .alone ⟨p', p'.next ';'⟩ :: done') := hover.cons rfl
  obtain ⟨rfl, new, hdone, hnew⟩ := hover'.finish
  refine ⟨new, p'.next ';', ?_, ?_⟩
  · rw [hnew, hts, List.reverse_cons]
  · rw [← hdone]
    exact readFrom_token rfl (.inl rfl) rfl (hmark p' rest hrest)

/-- **What is read as items is read up to the end of its last item**, or it is skipped as a whole. -/
theorem closesAt_of_read (hread : readFrom groups done p cs = .ok ts)
    (hlast : ∀ t ∈ ts.getLast?, t.closesItem = true) :
    (groups = [] ∧ ts = done.reverse ∧ Skipped cs) ∨
      Sealed ts ∧ ∃ front last behind, ClosesAt ts groups done cs front last behind := by
  -- By induction on the turns, from the end of the text backwards.
  refine readFrom_induction (motive := fun groups done _ cs =>
    (groups = [] ∧ ts = done.reverse ∧ Skipped cs) ∨
      Sealed ts ∧ ∃ front last behind, ClosesAt ts groups done cs front last behind) ?_ ?_ hread
  · exact fun done p hts => .inl ⟨rfl, hts, skipped_nil⟩
  intro groups done p c cs groups₁ done₁ q cs₁ _ hturn _ ih
  rcases ih with ⟨rfl, hts, hskipped⟩ | ⟨hsealed, front, last, behind, h⟩
  · -- This turn is the last that reads anything, or only skips what it takes.
    cases hturn with
    | blank hc => exact .inl ⟨rfl, hts, hskipped.of_drop (pieceLength_blankMark hc cs)⟩
    | comment _ hpiece => exact .inl ⟨rfl, hts, hskipped.of_drop hpiece⟩
    | @doc d span _ _ _ _ =>
      obtain ⟨inner, hgroup⟩ := getLast?_docTokens d span
      have hts' : ts = done.reverse ++ Comment.docTokens d span := by
        rw [hts, List.reverse_append, List.reverse_reverse]
      have hcloses := hlast (.group .bracket inner span) (by
        rw [hts', List.getLast?_append, hgroup]
        rfl)
      cases hcloses
    | @closing g outer hgroups hc =>
      subst hgroups hc
      rw [List.reverse_cons] at hts
      exact .inr (closing_ends hts hlast hskipped)
    | leaf _ _ _ hleaf =>
      rw [List.reverse_cons] at hts
      exact .inr (semicolon_ends hts hlast hleaf hskipped)
  · obtain ⟨taken, hcloses⟩ := h.turn hturn
    exact .inr ⟨hsealed, _, _, _, hcloses⟩

/-! ## Texts with their outer blanks left out -/

theorem exists_trimBlanks (cs : List Char) : ∃ lead tail, cs = lead ++ trimBlanks cs ++ tail ∧
    (∀ c ∈ lead, isBlank c = true) ∧ ∀ c ∈ tail, isBlank c = true := by
  let front := cs.dropWhile isBlank
  refine ⟨cs.takeWhile isBlank, (front.reverse.takeWhile isBlank).reverse, ?_,
    fun c => List.mem_takeWhile_imp, fun c hc => List.mem_takeWhile_imp (List.mem_reverse.mp hc)⟩
  have hfront : trimBlanks cs ++ (front.reverse.takeWhile isBlank).reverse = front := by
    rw [trimBlanks, ← List.reverse_append, List.takeWhile_append_dropWhile, List.reverse_reverse]
  rw [List.append_assoc, hfront, List.takeWhile_append_dropWhile]

theorem isBlankMark_of_isBlank (h : isBlank c = true) : Comment.isBlankMark c = true := by
  simp [Comment.isBlankMark, h]

theorem readFrom_lead {lead : List Char} (hlead : ∀ c ∈ lead, isBlank c = true)
    (groups : List OpenGroup) (done : List Token) (p : Position) (cs : List Char) :
    ∃ q, readFrom groups done p (lead ++ cs) = readFrom groups done q cs := by
  induction lead generalizing p with
  | nil => exact ⟨p, rfl⟩
  | cons c lead ih =>
    obtain ⟨hc, hlead⟩ := List.forall_mem_cons.mp hlead
    obtain ⟨q, hq⟩ := ih hlead (p.next c)
    exact ⟨q, (readFrom_blankMark (isBlankMark_of_isBlank hc)).trans hq⟩

theorem startsMark_of_free (h : Comment.Free rest) (hne : cs ≠ []) :
    startsMark (cs ++ rest) = startsMark cs := by
  obtain ⟨c, cs, rfl⟩ := List.exists_cons_of_ne_nil hne
  rw [startsMark, startsMark, h.startsWith (by decide), h.startsWith (by decide)]
  rfl

theorem startsMark_skipped_line {tail : List Char} (h : Skipped (cs ++ tail))
    (htail : ∀ c ∈ tail, isBlank c = true) (rest : List Char) :
    startsMark (cs ++ '\n' :: rest) = false := by
  by_cases hne : cs = []
  · subst hne
    rfl
  · rw [startsMark_of_free (.of_halts (.cons (by decide) rest)) hne,
      ← startsMark_of_free (free_of_isBlank htail) hne]
    exact h.startsMark

theorem sealed_of_read (hread : readFrom [] [] p cs = .ok ts)
    (hlast : ∀ t ∈ ts.getLast?, t.closesItem = true) : Sealed ts := by
  rcases closesAt_of_read hread hlast with ⟨-, rfl, -⟩ | ⟨hsealed, -⟩
  · exact .nil
  · exact hsealed

/-- **Items are read on a line above other text as they are read alone**, wherever they stand, with
the blanks around them or without. -/
theorem readFrom_line {lead tail : List Char} (hread : readFrom [] [] p (lead ++ cs ++ tail) = .ok ts)
    (hlast : ∀ t ∈ ts.getLast?, t.closesItem = true) (hlead : ∀ c ∈ lead, isBlank c = true)
    (htail : ∀ c ∈ tail, isBlank c = true) (done : List Token) (p' : Position) (rest : List Char) :
    ∃ new q, unplacedAll new = unplacedAll ts ∧
      readFrom [] done p' (cs ++ '\n' :: rest) = readFrom [] (new.reverse ++ done) q ('\n' :: rest) := by
  obtain ⟨p, hp⟩ := readFrom_lead hlead [] [] p (cs ++ tail)
  rw [← List.append_assoc, hread] at hp
  rcases closesAt_of_read hp.symm hlast with ⟨-, rfl, hskipped⟩ | ⟨-, front, last, behind, h⟩
  · obtain ⟨q, hq⟩ := readFrom_skipped hskipped htail [] done p' rest
    exact ⟨[], q, rfl, hq⟩
  obtain ⟨htext, hcloses, hskipped, hahead⟩ := h
  -- What closes the last item is no blank, so it stands before the blanks at the end.
  obtain ⟨between, rfl, rfl⟩ : ∃ between, cs = front ++ last :: between ∧
      behind = between ++ tail := by
    rcases List.append_eq_append_iff.mp htext with ⟨left, hfront, htail'⟩ | ⟨left, hcs, hleft⟩
    · have hblank := htail last (by rw [htail']; simp)
      rcases hcloses with rfl | rfl <;> cases hblank
    · cases left with
      | nil =>
        have hblank := htail last (by rw [← List.nil_append tail, ← hleft]; simp)
        rcases hcloses with rfl | rfl <;> cases hblank
      | cons d left =>
        obtain ⟨rfl, hbehind⟩ := List.cons.inj hleft
        exact ⟨left, hcs, hbehind⟩
  obtain ⟨new, q, hnew, hfront⟩ := hahead (between ++ '\n' :: rest)
    (startsMark_skipped_line hskipped htail rest) (@Over.top [] done [] [] rfl) p'
  obtain ⟨q', hq'⟩ := readFrom_skipped hskipped htail [] (new.reverse ++ done) q rest
  refine ⟨new, q', hnew, ?_⟩
  rw [List.append_assoc, List.cons_append]
  exact hfront.trans hq'

/-! ## Texts that are read anywhere -/

/-- Outside of groups the text is read as the tokens `ts`, wherever it stands and whatever stands
behind it. -/
def ReadsAnywhere (cs : List Char) (ts : List Token) : Prop :=
  ∀ done p rest, ∃ new q, unplacedAll new = unplacedAll ts ∧
    readFrom [] done p (cs ++ rest) = readFrom [] (new.reverse ++ done) q rest

namespace ReadsAnywhere

theorem nil : ReadsAnywhere [] [] := fun _ p _ => ⟨[], p, rfl, rfl⟩

theorem append {cs' : List Char} {ts' : List Token} (h : ReadsAnywhere cs ts)
    (h' : ReadsAnywhere cs' ts') : ReadsAnywhere (cs ++ cs') (ts ++ ts') := by
  intro done p rest
  obtain ⟨new, q, hnew, hread⟩ := h done p (cs' ++ rest)
  obtain ⟨new', q', hnew', hread'⟩ := h' (new.reverse ++ done) q rest
  refine ⟨new ++ new', q', ?_, ?_⟩
  · simp only [unplacedAll_eq_map, List.map_append] at hnew hnew' ⊢
    rw [hnew, hnew']
  · rw [List.append_assoc, hread, hread', List.reverse_append, List.append_assoc]

theorem blankMark (hc : Comment.isBlankMark c = true) : ReadsAnywhere [c] [] :=
  fun _ _ _ => ⟨[], _, rfl, readFrom_blankMark hc⟩

/-- A comment that takes a line. -/
theorem comment (hcs : '\n' ∉ cs) : ReadsAnywhere ("// ".toList ++ cs ++ ['\n']) [] := by
  intro done p rest
  rw [List.append_assoc, List.singleton_append]
  generalize htext : "// ".toList ++ cs ++ '\n' :: rest = text
  have hpiece : Comment.pieceLength text = Comment.lineLength text := by
    rw [← htext, List.append_assoc]
    rfl
  have hline : ∀ c ∈ "// ".toList ++ cs, decide (c ≠ '\n') = true := fun c hc =>
    decide_eq_true fun heq => (List.mem_append.mp (heq ▸ hc)).elim (by decide) hcs
  have hlength : Comment.lineLength text = ("// ".toList ++ cs).length := by
    rw [← htext, Comment.lineLength, List.takeWhile_append_of_pos hline]
    simp
  have hdrop : text.drop (Comment.pieceLength text) = '\n' :: rest := by
    rw [hpiece, hlength, ← htext, List.drop_left]
  rw [readFrom_piece, hdrop]
  exact ⟨[], _, rfl, readFrom_blankMark (by decide)⟩

/-- A whole text that does not end inside of a comment, as a line. -/
theorem of_read (hread : readFrom [] [] p cs = .ok ts) (hend : endsInLine cs = false) :
    ReadsAnywhere (cs ++ ['\n']) ts := by
  intro done p' rest
  obtain ⟨new, q, hnew, hahead⟩ := readFrom_ahead (.lineEnd rest) hread hend
    (@Over.top [] done [] [] rfl) p'
  refine ⟨new, q.next '\n', hnew, ?_⟩
  rw [List.append_assoc]
  exact hahead.trans (readFrom_blankMark (by decide))

/-- Items, as lines, with the blanks around them or without. -/
theorem items {lead tail : List Char} (hread : readFrom [] [] p (lead ++ cs ++ tail) = .ok ts)
    (hlast : ∀ t ∈ ts.getLast?, t.closesItem = true) (hlead : ∀ c ∈ lead, isBlank c = true)
    (htail : ∀ c ∈ tail, isBlank c = true) : ReadsAnywhere (cs ++ ['\n']) ts := by
  intro done p' rest
  obtain ⟨new, q, hnew, hline⟩ := readFrom_line hread hlast hlead htail done p' rest
  refine ⟨new, q.next '\n', hnew, ?_⟩
  rw [List.append_assoc]
  exact hline.trans (readFrom_blankMark (by decide))

theorem read (h : ReadsAnywhere cs ts) (hcs : startsWithOrderMark cs = false) :
    ∃ us, Token.read cs = .ok us ∧ unplacedAll us = unplacedAll ts := by
  obtain ⟨us, q, hus, hread⟩ := h [] .start []
  rw [List.append_nil, List.append_nil, readFrom_nil, List.reverse_reverse] at hread
  exact ⟨us, (read_eq hcs).trans hread, hus⟩

end ReadsAnywhere

end Graft.Token

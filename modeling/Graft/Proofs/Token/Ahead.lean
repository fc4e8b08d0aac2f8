import Graft.Proofs.Token.Comment

/-!
# A text before another

A text that does not end inside of a comment is read the same in front of a blank or a closing
parenthesis, wherever it stands: a reader inside of other groups finds the same tokens.
-/

namespace Graft.Token

variable {rest : List Char}

/-! ## Where a text ends -/

/-- The number of characters that the reader takes in one turn at the head of a text. -/
def stride (cs : List Char) : Nat :=
  if Comment.pieceLength cs ≠ 0 then Comment.pieceLength cs
  else
    match Comment.doc? cs with
    | some d => d.length
    | none =>
      match leaf? .start cs with
      | some (_, n) => n
      | none => 1

/-- Whether a text ends inside a comment that runs to the end of its line. -/
def endsInLine : List Char → Bool
  | [] => false
  | c :: cs => (startsWith "//" (c :: cs) && !(c :: cs).contains '\n') ||
      endsInLine (cs.drop (stride (c :: cs) - 1))
termination_by cs => cs.length

variable {groups groups' groups₁ outer : List OpenGroup} {done done' done₁ before ts : List Token}
  {p q : Position} {c : Char} {cs cs' cs₁ rest' : List Char}

theorem leaf?_delimiter (hc : (Delimiter.opened? c).isSome ∨ (Delimiter.closed? c).isSome)
    (hmark : startsWith errorMark (c :: cs) = false) : leaf? p (c :: cs) = none := by
  have hdelimiter : c = '(' ∨ c = '[' ∨ c = '\x7b' ∨ c = ')' ∨ c = ']' ∨ c = '\x7d' := by
    unfold Delimiter.opened? Delimiter.closed? at hc
    by_contra hnone
    simp only [not_or] at hnone
    simp [hnone] at hc
  have hlength : Literal.length? (c :: cs) = none := by
    refine Literal.length?_of_unquoted ?_ ?_ <;>
      rcases hdelimiter with rfl | rfl | rfl | rfl | rfl | rfl <;> rfl
  have hmarks : startsMark (c :: cs) = false ∧ nameLength? (c :: cs) = none := by
    rcases hdelimiter with rfl | rfl | rfl | rfl | rfl | rfl <;> exact ⟨rfl, rfl⟩
  simp [leaf?, hlength, hmarks, leaf?.errorLiteral?, hmark]

theorem stride_of_delimiter (hc : Solid c)
    (hdelimiter : (Delimiter.opened? c).isSome ∨ (Delimiter.closed? c).isSome)
    (hmark : startsWith errorMark (c :: cs) = false) : stride (c :: cs) = 1 := by
  simp [stride, hc.pieceLength, hc.doc?, leaf?_delimiter hdelimiter hmark]

/-- A turn takes the characters that `stride` counts. -/
theorem Turn.left_eq (h : Turn groups done p c cs groups' done' q cs') :
    cs' = cs.drop (stride (c :: cs) - 1) := by
  cases h with
  | blank hc => simp [stride, pieceLength_blankMark hc]
  | comment _ hpiece => simp [stride, hpiece]
  | doc hpiece hdoc _ => simp [stride, hpiece, hdoc]
  | @opening d hc hmark =>
    subst hc
    rw [stride_of_delimiter (solid_opening d) (.inl (by cases d <;> rfl)) hmark, Nat.sub_self,
      List.drop_zero]
  | @closing g outer _ hc =>
    subst hc
    have hmark : startsWith errorMark (g.delimiter.closing :: cs) = false := by
      cases g.delimiter <;> rfl
    rw [stride_of_delimiter (solid_closing g.delimiter)
      (.inr (by cases g.delimiter <;> rfl)) hmark, Nat.sub_self, List.drop_zero]
  | leaf hblank _ _ hleaf =>
    obtain ⟨hpiece, hdoc⟩ := no_comment_of_leaf? hblank hleaf
    obtain ⟨t', hleaf', -⟩ := leaf?_move .start hleaf
    simp [stride, hpiece, hdoc, hleaf']

/-- What does not end inside of a comment does not do so behind its first turn. -/
theorem Turn.endsInLine (h : Turn groups done p c cs groups' done' q cs')
    (hend : endsInLine (c :: cs) = false) : endsInLine cs' = false := by
  rw [Token.endsInLine, Bool.or_eq_false_iff] at hend
  rw [h.left_eq]
  exact hend.2

/-- Where the marks of a comment stand, a turn takes a comment. -/
theorem Turn.takes_comment (h : Turn groups done p c cs groups' done' q cs')
    (hmarks : startsWith "//" (c :: cs) = true ∨ startsWith "/*" (c :: cs) = true) :
    (Comment.pieceLength (c :: cs) ≠ 0 ∧ stride (c :: cs) = Comment.pieceLength (c :: cs)) ∨
      ∃ d, Comment.doc? (c :: cs) = some d ∧ stride (c :: cs) = d.length := by
  have hslash : c = '/' := by
    by_contra hc
    rcases hmarks with hmarks | hmarks <;>
    · rw [startsWith_cons_of_ne rfl hc] at hmarks
      cases hmarks
  cases h with
  | blank hc =>
    subst hslash
    cases hc
  | comment _ hpiece =>
    have hne : Comment.pieceLength (c :: cs) ≠ 0 := by simp [hpiece]
    exact .inl ⟨hne, if_pos hne⟩
  | doc hpiece hdoc _ => exact .inr ⟨_, hdoc, by simp [stride, hpiece, hdoc]⟩
  | @opening d hc _ =>
    subst hslash
    cases d <;> cases hc
  | @closing g _ _ hc =>
    subst hslash
    cases hd : g.delimiter <;> rw [hd] at hc <;> cases hc
  | leaf _ _ _ hleaf =>
    subst hslash
    obtain ⟨hline, hblock⟩ := head_of_leaf?_slash hleaf
    rcases hmarks with hmarks | hmarks <;> obtain ⟨more, hmore⟩ := List.isPrefixOf_iff_prefix.mp hmarks
    · exact absurd (by rw [← (List.cons.inj hmore).2]; rfl) hline
    · exact absurd (by rw [← (List.cons.inj hmore).2]; rfl) hblock

theorem Turn.line_length (h : Turn groups done p c cs groups' done' q cs')
    (hline : startsWith "//" (c :: cs) = true) : stride (c :: cs) = Comment.lineLength (c :: cs) := by
  rcases h.takes_comment (.inl hline) with ⟨hpiece, hstride⟩ | ⟨d, hdoc, hstride⟩
  · exact hstride.trans (Comment.pieceLength_of_line hline hpiece)
  · exact hstride.trans (Comment.doc?_of_line hline hdoc)

theorem Turn.block_length (h : Turn groups done p c cs groups' done' q cs')
    (hblock : startsWith "/*" (c :: cs) = true) :
    Comment.blockLength? 0 (c :: cs) = some (stride (c :: cs)) := by
  rcases h.takes_comment (.inr hblock) with ⟨hpiece, hstride⟩ | ⟨d, hdoc, hstride⟩
  · rw [hstride]
    exact Comment.pieceLength_of_block hblock hpiece
  · rw [hstride]
    exact Comment.doc?_of_block hblock hdoc

theorem Turn.closed (h : Turn groups done p c cs groups' done' q cs')
    (hend : Token.endsInLine (c :: cs) = false) : Comment.Closed (c :: cs) := by
  rw [Token.endsInLine, Bool.or_eq_false_iff] at hend
  refine ⟨fun hline => ?_, fun hblock => ⟨_, h.block_length hblock⟩⟩
  rw [hline, Bool.true_and, Bool.not_eq_false'] at hend
  exact List.contains_iff_mem.mp hend.1

/-- A turn that ends before a character that is no line end takes no comment that goes on to it. -/
theorem Turn.closed_before {d : Char} (h : Turn groups done p c (cs ++ d :: rest) groups' done' q
    (cs' ++ d :: rest)) (hd : d ≠ '\n') (hfree : Comment.Free (d :: rest)) :
    Comment.Closed (c :: cs) := by
  have hleft := congrArg List.length h.left_eq
  simp only [List.length_drop, List.length_append, List.length_cons] at hleft
  have hle : stride (c :: (cs ++ d :: rest)) ≤ (c :: cs).length := by
    rw [List.length_cons]
    omega
  exact Comment.closed_of_length hd hfree hle h.line_length h.block_length

/-- An open group that holds nothing but the comment in the mark of an unreadable literal never
closes. -/
theorem errorMark_ahead {d : Delimiter} (hrest : Breaks rest)
    (hmark : startsWith errorMark (d.opening :: cs) = false)
    (hread : readFrom (⟨d, done, p⟩ :: groups) [] q cs = .ok ts) :
    startsWith errorMark (d.opening :: (cs ++ rest)) = false := by
  by_contra hahead
  rw [Bool.not_eq_false] at hahead
  obtain ⟨behind, hbehind⟩ := List.isPrefixOf_iff_prefix.mp hahead
  rw [show errorMark.toList = '(' :: ("/*ERROR*/".toList ++ [')']) from rfl, List.cons_append,
    List.append_assoc] at hbehind
  obtain ⟨hd, hcs⟩ := List.cons.inj hbehind
  have hcomment : startsWith "/*ERROR*/" cs = true := by
    rw [← hrest.halts.startsWith (by decide), ← hcs]
    exact List.isPrefixOf_iff_prefix.mpr (List.prefix_append _ _)
  obtain ⟨more, rfl⟩ := List.isPrefixOf_iff_prefix.mp hcomment
  cases more with
  | nil =>
    have hpiece : Comment.pieceLength ("/*ERROR*/".toList ++ []) = 9 := rfl
    have hdrop : ("/*ERROR*/".toList ++ []).drop 9 = ([] : List Char) := rfl
    rw [readFrom_piece, hpiece, hdrop, readFrom_eq, Comment.blankLength] at hread
    cases hread
  | cons e more =>
    rw [List.append_assoc] at hcs
    have he : ')' = e := (List.cons.inj (List.append_cancel_left hcs)).1
    rw [← hd, ← he] at hmark
    cases hmark

/-! ## Reading on -/

theorem readFrom_doc {d : Comment.Doc} (hpiece : Comment.pieceLength (c :: cs) = 0)
    (hdoc : Comment.doc? (c :: cs) = some d) (hreturn : Comment.hasBareReturn d.text = false) :
    readFrom groups done p (c :: cs) = readFrom groups
      ((Comment.docTokens d ⟨p, p.advance ((c :: cs).take d.length)⟩).reverse ++ done)
      (p.advance ((c :: cs).take d.length)) (cs.drop (d.length - 1)) := by
  have hlength : Comment.blankLength (c :: cs) = 0 := by
    rw [Comment.blankLength]
    simp [hpiece]
  rw [readFrom_eq, hlength, List.take_zero, List.drop_zero]
  simp only [readSolid, hdoc, hreturn, Bool.false_eq_true, if_false]
  rfl

theorem unplacedAll_docTokens (d : Comment.Doc) (span span' : Span) :
    unplacedAll (Comment.docTokens d span') = unplacedAll (Comment.docTokens d span) := by
  unfold Comment.docTokens
  cases d.inner <;> rfl

theorem Over.append {new new' : List Token} (h : Over outer before groups done groups' done')
    (hnew : unplacedAll new' = unplacedAll new) :
    Over outer before groups (new ++ done) groups' (new' ++ done') := by
  have happend : ∀ {us us' : List Token}, unplacedAll us' = unplacedAll us →
      unplacedAll (new' ++ us') = unplacedAll (new ++ us) := by
    intro us us' hus
    simp only [unplacedAll_eq_map, List.map_append] at hnew hus ⊢
    rw [hnew, hus]
  cases h with
  | @top _ us hdone =>
    rw [← List.append_assoc]
    exact .top (happend hdone)
  | group hbelow hdone => exact .group hbelow (happend hdone)

/-- The mark of an unreadable literal is there with `rest` behind the text or without. -/
theorem Turn.errorMark_eq (h : Turn groups done p c cs groups' done' q cs')
    (hrest : Breaks rest) (hread : readFrom groups' done' q cs' = .ok ts) :
    startsWith errorMark (c :: cs ++ rest) = startsWith errorMark (c :: cs) := by
  by_cases hc : c = '('
  · cases h with
    | @opening d hopening hmark =>
      subst hopening
      rw [hmark, List.cons_append, errorMark_ahead hrest hmark hread]
    | leaf _ hopened => exact Token.errorMark_eq hopened rest
    | blank hblank =>
      subst hc
      cases hblank
    | comment hslash =>
      subst hslash
      cases hc
    | @closing g _ _ hclosing =>
      rw [hclosing] at hc
      cases hd : g.delimiter <;> rw [hd] at hc <;> cases hc
    | doc _ hdoc =>
      subst hc
      cases hdoc
  · rw [List.cons_append, startsWith_cons_of_ne rfl hc, startsWith_cons_of_ne rfl hc]

theorem Turn.length_le (h : Turn groups done p c cs groups' done' q cs') :
    cs'.length ≤ cs.length := by
  rw [h.left_eq, List.length_drop]
  exact Nat.sub_le _ _

/-- A turn that ends before `rest` is taken before `rest'` as well, inside of other groups and at
another place. -/
theorem Turn.ahead (h : Turn groups done p c (cs ++ rest) groups₁ done₁ q (cs₁ ++ rest))
    (hle : cs₁.length ≤ cs.length) (hrest : Halts rest) (hrest' : Halts rest')
    (hmark : startsMark rest' = startsMark rest) (hclosed : Comment.Closed (c :: cs))
    (herror : startsWith errorMark (c :: cs ++ rest) = startsWith errorMark (c :: cs))
    (herror' : startsWith errorMark (c :: cs ++ rest') = startsWith errorMark (c :: cs))
    (hover : Over outer before groups done groups' done') (p' : Position) :
    ∃ groups₂ done₂ q', Over outer before groups₁ done₁ groups₂ done₂ ∧
      readFrom groups' done' p' (c :: (cs ++ rest')) = readFrom groups₂ done₂ q' (cs₁ ++ rest') := by
  have hpiece : Comment.pieceLength (c :: (cs ++ rest')) = Comment.pieceLength (c :: (cs ++ rest)) :=
    (Comment.pieceLength_append (.of_halts hrest') (List.cons_ne_nil c cs) hclosed).trans
      (Comment.pieceLength_append (.of_halts hrest) (List.cons_ne_nil c cs) hclosed).symm
  have hdoc : Comment.doc? (c :: (cs ++ rest')) = Comment.doc? (c :: (cs ++ rest)) :=
    (Comment.doc?_append (.of_halts hrest') hclosed).trans
      (Comment.doc?_append (.of_halts hrest) hclosed).symm
  -- What is dropped stands before `rest`.
  have hdrop : ∀ {n}, n ≤ cs.length + rest.length → cs₁ ++ rest = (cs ++ rest).drop n →
      n ≤ cs.length ∧ (cs ++ rest').drop n = cs₁ ++ rest' := by
    intro n hn heq
    have hlength := congrArg List.length heq
    simp only [List.length_drop, List.length_append] at hlength
    have hwithin : n ≤ cs.length := by omega
    rw [List.drop_append_of_le_length hwithin] at heq
    rw [List.drop_append_of_le_length hwithin, List.append_cancel_right heq]
    exact ⟨hwithin, rfl⟩
  have hall : cs₁ ++ rest = cs ++ rest → cs₁ = cs := List.append_cancel_right
  generalize hleft : cs₁ ++ rest = left at h
  cases h with
  | blank hc =>
    obtain rfl := hall hleft
    exact ⟨_, _, _, hover, readFrom_blankMark hc⟩
  | @comment n _ hc hn =>
    have hle := Comment.pieceLength_le (c :: (cs ++ rest))
    rw [hn, List.length_cons, List.length_append] at hle
    obtain ⟨-, hbehind⟩ := hdrop (Nat.le_of_succ_le_succ hle) hleft
    rw [readFrom_piece, hpiece, hn, List.drop_succ_cons, hbehind]
    exact ⟨_, _, _, hover, rfl⟩
  | @doc d span _ hzero hd hreturn =>
    have hle := Comment.doc?_le hd
    rw [List.length_cons, List.length_append] at hle
    obtain ⟨-, hbehind⟩ := hdrop (Nat.sub_le_of_le_add hle) hleft
    exact ⟨_, _, _, hover.append (unplacedAll_reverse (unplacedAll_docTokens d span _)),
      (readFrom_doc (hpiece.trans hzero) (hdoc.trans hd) hreturn).trans
        (congrArg (readFrom _ _ _) hbehind)⟩
  | opening hc hopens =>
    obtain rfl := hall hleft
    subst hc
    have hopens' := herror'.trans (herror.symm.trans hopens)
    exact ⟨_, _, _, .group hover rfl, readFrom_opens hopens'⟩
  | @closing g below hgroups hc =>
    obtain rfl := hall hleft
    subst hgroups hc
    obtain ⟨⟨d, us, start⟩, above, rfl, hsame, hclosed⟩ := hover.closed
    subst hsame
    exact ⟨_, _, _, hclosed _ _, readFrom_closing⟩
  | @leaf t n hblank hopened hcloses hleaf =>
    have hle := leaf?_le hleaf
    rw [List.length_cons, List.length_append] at hle
    obtain ⟨hwithin, hbehind⟩ := hdrop (Nat.sub_le_of_le_add hle) hleft
    obtain ⟨t', hmoved, ht⟩ := leaf?_move p' hleaf
    have hleaf' : leaf? p' (c :: (cs ++ rest')) = some (t', n) :=
      leaf?_local hrest hrest' hmark hmoved (Nat.le_add_of_sub_le hwithin) herror herror'
    have hopened' : Delimiter.opened? c = none ∨ startsWith errorMark (c :: (cs ++ rest')) = true :=
      hopened.imp_right fun hopens => herror'.trans (herror.symm.trans hopens)
    exact ⟨_, _, _, hover.cons ht, (readFrom_token hblank hopened' hcloses hleaf').trans
      (congrArg (readFrom _ _ _) hbehind)⟩

/-- **What stands behind a text does not change how the text is read**, if it starts with a blank
or a closing parenthesis and the text does not end inside of a comment. The same holds of a text
inside of other groups and at another place. -/
theorem readFrom_ahead (hrest : Breaks rest) (hread : readFrom groups done p cs = .ok ts)
    (hend : endsInLine cs = false) (hover : Over outer before groups done groups' done')
    (p' : Position) :
    ∃ new q, unplacedAll new = unplacedAll ts ∧
      readFrom groups' done' p' (cs ++ rest) = readFrom outer (new.reverse ++ before) q rest := by
  -- By induction on the turns of the first reader, which the second follows up to `rest`.
  refine readFrom_induction (motive := fun groups done _ cs => endsInLine cs = false →
    ∀ groups' done' p', Over outer before groups done groups' done' →
      ∃ new q, unplacedAll new = unplacedAll ts ∧
        readFrom groups' done' p' (cs ++ rest) = readFrom outer (new.reverse ++ before) q rest)
    ?_ ?_ hread hend groups' done' p' hover
  · rintro done p rfl - groups' done' p' hover
    cases hover with
    | @top _ new hnew =>
      refine ⟨new.reverse, p', unplacedAll_reverse hnew, ?_⟩
      rw [List.reverse_reverse, List.nil_append]
  intro groups done p c cs groups₁ done₁ q cs₁ hread hturn hmore ih hend groups' done' p' hover
  have hbare : Turn groups done p c (cs ++ []) groups₁ done₁ q (cs₁ ++ []) := by
    rw [List.append_nil, List.append_nil]
    exact hturn
  obtain ⟨groups₂, done₂, q', hover', hahead⟩ := hbare.ahead hturn.length_le .nil hrest.halts
    (startsMark_of_breaks hrest) (hturn.closed hend) (by rw [List.append_nil])
    (hturn.errorMark_eq hrest hmore) hover p'
  obtain ⟨new, q'', hnew, hbehind⟩ := ih (hturn.endsInLine hend) groups₂ done₂ q' hover'
  exact ⟨new, q'', hnew, hahead.trans hbehind⟩

/-! ## Whole texts -/

variable {text : List Char}

/-- Whether a byte order mark stands at the head of a text. Only a whole text may start with it. -/
def startsWithOrderMark (text : List Char) : Bool := text.head?.any (·.toNat = 0xFEFF)

/-- Whether a whole text ends inside a comment that runs to the end of its line. -/
def endsInComment (text : List Char) : Bool :=
  endsInLine (if startsWithOrderMark text then text.tail else text)

theorem read_eq (hmark : startsWithOrderMark text = false) :
    read text = readFrom [] [] .start text := by
  cases text with
  | nil =>
    rw [readFrom_nil]
    rfl
  | cons c text => exact if_neg (of_decide_eq_false hmark)

/-- A text without a byte order mark is read in front of others, wherever it stands, as it is read
alone. -/
theorem readFrom_inside (hrest : Breaks rest) (hmark : startsWithOrderMark text = false)
    (hread : read text = .ok ts) (hend : endsInComment text = false) (outer : List OpenGroup)
    (before : List Token) (p : Position) :
    ∃ new q, unplacedAll new = unplacedAll ts ∧
      readFrom outer before p (text ++ rest) = readFrom outer (new.reverse ++ before) q rest := by
  rw [endsInComment, hmark] at hend
  rw [read_eq hmark] at hread
  exact readFrom_ahead hrest hread hend (@Over.top outer before [] [] rfl) p

/-- A whole text is read in front of others as it is read alone. -/
theorem read_ahead (hrest : Breaks rest) (hne : text ≠ []) (hread : read text = .ok ts)
    (hend : endsInComment text = false) :
    ∃ new q, unplacedAll new = unplacedAll ts ∧
      read (text ++ rest) = readFrom [] new.reverse q rest := by
  obtain ⟨c, cs, rfl⟩ := List.exists_cons_of_ne_nil hne
  by_cases hmark : c.toNat = 0xFEFF
  · have hhead : startsWithOrderMark (c :: cs) = true := decide_eq_true hmark
    rw [endsInComment, hhead] at hend
    rw [read, if_pos hmark] at hread
    obtain ⟨new, q, hnew, hahead⟩ :=
      readFrom_ahead hrest hread hend (@Over.top [] [] [] [] rfl) (Position.start.next c)
    rw [List.append_nil new.reverse] at hahead
    refine ⟨new, q, hnew, ?_⟩
    rw [List.cons_append, read, if_pos hmark]
    exact hahead
  · have hhead : startsWithOrderMark (c :: cs) = false := decide_eq_false hmark
    obtain ⟨new, q, hnew, hahead⟩ := readFrom_inside hrest hhead hread hend [] [] .start
    rw [List.append_nil new.reverse] at hahead
    refine ⟨new, q, hnew, ?_⟩
    rw [List.cons_append, read, if_neg hmark]
    exact hahead

end Graft.Token

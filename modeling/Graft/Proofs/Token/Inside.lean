import Graft.Proofs.Token.Front
import Graft.Proofs.Token.Skips

/-!
# A text inside another

A text that counts as many slashes as its tokens holds no comment. Wherever it stands in front of
blanks and closing parentheses, inside of groups and behind other tokens, it is read as the tokens
that it is read as alone.
-/

namespace Graft.Token

variable {ts us : List Token}

theorem unplacedAll_eq_map (ts : List Token) : unplacedAll ts = ts.map unplaced := by
  induction ts with
  | nil => rfl
  | cons t ts ih => rw [unplacedAll, ih, List.map_cons]

theorem unplacedAll_reverse (h : unplacedAll ts = unplacedAll us) :
    unplacedAll ts.reverse = unplacedAll us.reverse := by
  simp only [unplacedAll_eq_map, List.map_reverse] at h ⊢
  rw [h]

/-! ## A slash that starts no comment -/

variable {groups groups' outer : List OpenGroup} {done done' before : List Token}
  {p q : Position} {c : Char} {cs rest tail : List Char}

/-- No token starts with the marks of a comment. -/
theorem head_of_leaf?_slash {t : Token} {n : Nat} (h : leaf? p ('/' :: cs) = some (t, n)) :
    cs.head? ≠ some '/' ∧ cs.head? ≠ some '*' := by
  have hlength : Literal.length? ('/' :: cs) = none := Literal.length?_of_unquoted (by decide) rfl
  have hopens : opensLiteral ('/' :: cs) = false := rfl
  have hname : nameLength? ('/' :: cs) = none := rfl
  have hmark : startsMark ('/' :: cs) = true := by
    by_contra hmark
    rw [leaf?, hlength] at h
    simp only [hmark, hopens, hname] at h
    cases h
  constructor
  · intro hcs
    obtain ⟨more, rfl⟩ := List.head?_eq_some_iff.mp hcs
    cases hmark
  · intro hcs
    obtain ⟨more, rfl⟩ := List.head?_eq_some_iff.mp hcs
    cases hmark

theorem pieceLength_slash (h : cs.head? ≠ some '/' ∧ cs.head? ≠ some '*') :
    Comment.pieceLength ('/' :: cs) = 0 ∧ Comment.doc? ('/' :: cs) = none := by
  cases cs with
  | nil => exact ⟨rfl, rfl⟩
  | cons d cs =>
    have hslash : '/' ≠ d := fun heq => h.1 (by rw [heq]; rfl)
    have hstar : '*' ≠ d := fun heq => h.2 (by rw [heq]; rfl)
    simp [Comment.pieceLength, Comment.doc?, startsWith, List.isPrefixOf_cons_cons, hslash, hstar,
      Comment.isBlankMark, isBlank]

/-- Neither a blank nor a comment stands where a token is read. -/
theorem no_comment_of_leaf? {t : Token} {n : Nat} (hblank : Comment.isBlankMark c = false)
    (hleaf : leaf? p (c :: cs) = some (t, n)) :
    Comment.pieceLength (c :: cs) = 0 ∧ Comment.doc? (c :: cs) = none := by
  by_cases hslash : c = '/'
  · subst hslash
    exact pieceLength_slash (head_of_leaf?_slash hleaf)
  · have hc : Solid c := ⟨hslash, hblank⟩
    exact ⟨hc.pieceLength cs, hc.doc? cs⟩

theorem readFrom_token {t : Token} {n : Nat} (hblank : Comment.isBlankMark c = false)
    (hopened : Delimiter.opened? c = none ∨ startsWith errorMark (c :: cs) = true)
    (hclosed : Delimiter.closed? c = none) (hleaf : leaf? p (c :: cs) = some (t, n)) :
    readFrom groups done p (c :: cs) =
      readFrom groups (t :: done) (p.advance ((c :: cs).take n)) (cs.drop (n - 1)) := by
  obtain ⟨hpiece, hdoc⟩ := no_comment_of_leaf? hblank hleaf
  have hlength : Comment.blankLength (c :: cs) = 0 := by
    rw [Comment.blankLength]
    simp [hpiece]
  rw [readFrom_eq, hlength]
  exact readSolid_leaf hdoc hopened hclosed hleaf

/-! ## Two readers -/

/-- One reader stands where the other does, but the groups `outer` and the tokens `before` stand
around what it reads. -/
inductive Over (outer : List OpenGroup) (before : List Token) :
    List OpenGroup → List Token → List OpenGroup → List Token → Prop where
  | top {done done' : List Token} : unplacedAll done' = unplacedAll done →
      Over outer before [] done outer (done' ++ before)
  | group {groups groups' : List OpenGroup} {done done' us us' : List Token} {d : Delimiter}
      {start start' : Position} : Over outer before groups us groups' us' →
      unplacedAll done' = unplacedAll done →
      Over outer before (⟨d, us, start⟩ :: groups) done (⟨d, us', start'⟩ :: groups') done'

namespace Over

theorem cons {t t' : Token} (h : Over outer before groups done groups' done')
    (ht : t'.unplaced = t.unplaced) :
    Over outer before groups (t :: done) groups' (t' :: done') := by
  cases h with
  | @top _ us hdone => exact @top _ _ _ (t' :: us) (congrArg₂ List.cons ht hdone)
  | group hbelow hdone => exact .group hbelow (congrArg₂ List.cons ht hdone)

theorem closed {g : OpenGroup} (h : Over outer before (g :: groups) done groups' done') :
    ∃ g' above, groups' = g' :: above ∧ g'.delimiter = g.delimiter ∧ ∀ span span',
      Over outer before groups (.group g.delimiter done.reverse span :: g.before) above
        (.group g.delimiter done'.reverse span' :: g'.before) := by
  cases h with
  | group hbelow hdone =>
    refine ⟨_, _, rfl, rfl, fun span span' => hbelow.cons ?_⟩
    rw [unplaced, unplaced, unplacedAll_reverse hdone]

end Over

theorem skipsOf_slash (cs : List Char) : skipsOf ('/' :: cs) = skipsOf cs + 1 := skipsOf_cons '/' cs

/-- A text of blanks alone. -/
def Blanks (tail : List Char) : Prop := ∀ c ∈ tail, c = ' '

theorem Blanks.parting (h : Blanks tail) : Parting tail := fun c hc => .inl (h c hc)

theorem readFrom_blanks (htail : Blanks tail) (h : readFrom groups done p tail = .ok ts) :
    groups = [] ∧ ts = done.reverse := by
  induction tail generalizing p with
  | nil =>
    cases groups with
    | nil => exact ⟨rfl, Except.ok.inj (h.symm.trans readFrom_nil)⟩
    | cons g groups =>
      rw [readFrom_eq, Comment.blankLength] at h
      cases h
  | cons c tail ih =>
    obtain rfl := htail c List.mem_cons_self
    rw [readFrom_blank] at h
    exact ih (fun d hd => htail d (List.mem_cons_of_mem _ hd)) h

/-- The mark of an unreadable literal holds what would be a comment inside of a group. -/
theorem errorMark_append {d : Delimiter} (hrest : Parting rest)
    (hread : readFrom groups [] p (cs ++ tail) = .ok ts)
    (hskips : pending groups [] + skipsOf (cs ++ tail) ≤ skipsAll ts) :
    startsWith errorMark (d.opening :: (cs ++ rest)) = false := by
  -- The comment of the mark would stand in `cs`, and its two slashes would be lost.
  by_contra hmark
  rw [Bool.not_eq_false] at hmark
  obtain ⟨behind, hbehind⟩ := List.isPrefixOf_iff_prefix.mp hmark
  obtain ⟨-, hcs⟩ := List.cons.inj hbehind
  have hcomment : startsWith "/*ERROR*/" cs = true := by
    rw [← hrest.breaks.halts.startsWith (by decide)]
    exact List.isPrefixOf_iff_prefix.mpr ⟨')' :: behind, hcs⟩
  obtain ⟨more, rfl⟩ := List.isPrefixOf_iff_prefix.mp hcomment
  have hpiece : Comment.pieceLength ("/*ERROR*/".toList ++ more ++ tail) = 9 := rfl
  have hdrop : ("/*ERROR*/".toList ++ more ++ tail).drop 9 = more ++ tail := rfl
  have hcount : skipsOf ("/*ERROR*/".toList ++ more ++ tail) = skipsOf (more ++ tail) + 2 := by
    rw [List.append_assoc, skipsOf_append, Nat.add_comm]
    rfl
  rw [readFrom_piece, hpiece, hdrop] at hread
  have hle := readFrom_skips hread
  omega

theorem errorMark_eq
    (hopened : Delimiter.opened? c = none ∨ startsWith errorMark (c :: cs) = true)
    (rest : List Char) :
    startsWith errorMark (c :: cs ++ rest) = startsWith errorMark (c :: cs) := by
  rcases hopened with hopened | hmark
  · have hc : c ≠ '(' := by
      rintro rfl
      cases hopened
    rw [List.cons_append, startsWith_cons_of_ne rfl hc, startsWith_cons_of_ne rfl hc]
  · rw [hmark]
    exact List.isPrefixOf_iff_prefix.mpr
      ((List.isPrefixOf_iff_prefix.mp hmark).trans (List.prefix_append (c :: cs) rest))

/-- A leaf that is read before blanks is read before what else parts texts. -/
theorem leaf?_rest (htail : Blanks tail) (hrest : Parting rest)
    (hopened : Delimiter.opened? c = none ∨ startsWith errorMark (c :: (cs ++ tail)) = true)
    {t : Token} {n : Nat} (hleaf : leaf? p (c :: (cs ++ tail)) = some (t, n)) (p' : Position) :
    ∃ t', leaf? p' (c :: (cs ++ rest)) = some (t', n) ∧ t'.unplaced = t.unplaced ∧
      n - 1 ≤ cs.length ∧
      (Delimiter.opened? c = none ∨ startsWith errorMark (c :: (cs ++ rest)) = true) := by
  have herror : startsWith errorMark (c :: (cs ++ tail)) = startsWith errorMark (c :: cs) := by
    refine startsWith_append_of_head (fun d hd => ?_) (c :: cs)
    obtain rfl := htail d (List.mem_of_mem_head? hd)
    decide
  have herror' := errorMark_eq (herror ▸ hopened) rest
  have hleaf' := (leaf?_append htail.parting (List.cons_ne_nil c cs) herror).symm.trans hleaf
  obtain ⟨t', hmoved, ht⟩ := leaf?_move p' hleaf'
  rw [← leaf?_append hrest (List.cons_ne_nil c cs) herror'] at hmoved
  exact ⟨t', hmoved, ht, Nat.sub_le_of_le_add (leaf?_le hleaf'),
    hopened.imp_right fun hmark => herror'.trans (herror.symm.trans hmark)⟩

/-- A reader inside of other groups reads a text without comments as a reader at the start does,
which may have found blanks behind it. -/
theorem readFrom_over (htail : Blanks tail) (hrest : Parting rest)
    (hread : readFrom groups done p (cs ++ tail) = .ok ts)
    (hskips : pending groups done + skipsOf (cs ++ tail) ≤ skipsAll ts)
    (hover : Over outer before groups done groups' done') (p' : Position) :
    ∃ new q, unplacedAll new = unplacedAll ts ∧
      readFrom groups' done' p' (cs ++ rest) = readFrom outer (new.reverse ++ before) q rest := by
  have hend : ∀ {groups done groups' done'} {p p' : Position},
      readFrom groups done p tail = .ok ts → Over outer before groups done groups' done' →
      ∃ new q, unplacedAll new = unplacedAll ts ∧
        readFrom groups' done' p' rest = readFrom outer (new.reverse ++ before) q rest := by
    intro groups done groups' done' p p' hread hover
    obtain ⟨rfl, rfl⟩ := readFrom_blanks htail hread
    cases hover with
    | @top _ new hnew =>
      exact ⟨new.reverse, p', unplacedAll_reverse hnew, by rw [List.reverse_reverse]⟩
  -- By induction on the turns of the first reader, which the second follows up to `tail`.
  refine readFrom_induction (motive := fun groups done p text => ∀ cs, text = cs ++ tail →
    pending groups done + skipsOf text ≤ skipsAll ts → ∀ groups' done' p',
      Over outer before groups done groups' done' → ∃ new q, unplacedAll new = unplacedAll ts ∧
        readFrom groups' done' p' (cs ++ rest) = readFrom outer (new.reverse ++ before) q rest)
    ?_ ?_ hread cs rfl hskips groups' done' p' hover
  · rintro done p rfl cs htext - groups' done' p' hover
    obtain ⟨rfl, rfl⟩ := List.append_eq_nil_iff.mp htext.symm
    exact hend (p := p) readFrom_nil hover
  intro groups done p c text groups₁ done₁ q text₁ hread hturn hmore ih cs htext hskips groups'
    done' p' hover
  cases cs with
  | nil =>
    rw [List.nil_append] at htext
    exact hend (htext ▸ hread) hover
  | cons c' cs =>
    obtain ⟨rfl, rfl⟩ : c = c' ∧ text = cs ++ tail := List.cons.inj htext
    have hleft := hturn.skips_le.trans hskips
    have hlost := readFrom_skips hmore
    cases hturn with
    | blank hc =>
      rw [List.cons_append, readFrom_blankMark hc]
      exact ih cs rfl hleft _ _ _ hover
    | @comment n _ hc _ =>
      -- With a comment less would be read than is counted.
      subst hc
      have hdrop := skipsOf_drop_le n (cs ++ tail)
      rw [skipsOf_slash] at hskips
      omega
    | @doc d span _ _ hdoc _ =>
      have hlt := pending_doc_lt hdoc groups done span
      exact absurd (hlost.trans_lt hlt) (Nat.not_lt.mpr hskips)
    | opening hc _ =>
      subst hc
      rw [List.cons_append, readFrom_opens (errorMark_append hrest hmore hleft)]
      exact ih cs rfl hleft _ _ _ (.group hover rfl)
    | @closing g below hgroups hc =>
      subst hgroups hc
      obtain ⟨⟨d, us, start⟩, above, rfl, hsame, hclosed⟩ := hover.closed
      subst hsame
      rw [List.cons_append, readFrom_closing]
      exact ih cs rfl hleft _ _ _ (hclosed _ _)
    | @leaf t n hblank hopened hclosed hleaf =>
      obtain ⟨t', hmoved, ht, hle, hopened'⟩ := leaf?_rest htail hrest hopened hleaf p'
      have hdrop : ∀ more, (cs ++ more).drop (n - 1) = cs.drop (n - 1) ++ more := fun more =>
        List.drop_append_of_le_length hle
      rw [List.cons_append, readFrom_token hblank hopened' hclosed hmoved, hdrop]
      exact ih _ (hdrop tail) hleft _ _ _ (hover.cons ht)

end Graft.Token

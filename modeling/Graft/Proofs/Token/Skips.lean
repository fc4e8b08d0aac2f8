import Graft.Proofs.Token.Bare

/-!
# Characters that reading may pass over

Reading passes over comments, which start with a slash, and over a byte order mark at the start of a
text. So the slashes and byte order marks of a text are counted, those of its tokens, and those of a
spelling: a text with as many as the tokens that it is read as holds no comment.
-/

namespace Graft.Token

variable {cs cs' : List Char} {ts us : List Token}

/-- A character that may be passed over. -/
def isSkip (c : Char) : Bool := c = '/' || c.toNat = 0xFEFF

/-- How many characters of a text may be passed over. -/
def skipsOf (cs : List Char) : Nat := cs.countP isSkip

@[simp] theorem skipsOf_nil : skipsOf [] = 0 := rfl

theorem skipsOf_cons (c : Char) (cs : List Char) :
    skipsOf (c :: cs) = skipsOf cs + if isSkip c then 1 else 0 := List.countP_cons

@[simp] theorem skipsOf_append (cs cs' : List Char) :
    skipsOf (cs ++ cs') = skipsOf cs + skipsOf cs' := List.countP_append

theorem skipsOf_eq_zero_iff : skipsOf cs = 0 ↔ ∀ c ∈ cs, isSkip c = false := by
  rw [skipsOf, List.countP_eq_zero]
  simp only [Bool.not_eq_true]

theorem skipsOf_le_of_sublist (h : cs.Sublist cs') : skipsOf cs ≤ skipsOf cs' := h.countP_le

theorem mem_toDigits {base n : Nat} {c : Char} (hbase : 1 < base) (hc : c ∈ Nat.toDigits base n) :
    ∃ digit : Nat, c = digit.digitChar := by
  -- A digit is the last one or a digit of the number without the last.
  induction n using Nat.strongRecOn with
  | ind n ih =>
    by_cases hlt : n < base
    · rw [Nat.toDigits_of_lt_base hlt, List.mem_singleton] at hc
      exact ⟨n, hc⟩
    · have hle : base ≤ n := Nat.not_lt.mp hlt
      rw [Nat.toDigits_of_base_le hbase hle, List.mem_append, List.mem_singleton] at hc
      rcases hc with hc | hc
      · exact ih _ (Nat.div_lt_self (by omega) hbase) hc
      · exact ⟨n % base, hc⟩

theorem skipsOf_digits {base : Nat} (hbase : 1 < base) (n : Nat) :
    skipsOf (Nat.toDigits base n) = 0 := by
  rw [skipsOf_eq_zero_iff]
  intro c hc
  obtain ⟨digit, rfl⟩ := mem_toDigits hbase hc
  have hslash : digit.digitChar ≠ '/' := Nat.digitChar_ne '/' (by decide)
  have hmark : digit.digitChar ≠ Char.ofNat 0xFEFF := Nat.digitChar_ne _ (by decide)
  have hcode : digit.digitChar.toNat ≠ 0xFEFF := by
    intro hcode
    exact hmark (by rw [← hcode, Char.ofNat_toNat])
  simp [isSkip, hslash, hcode]

/-- A number is read as a whole. -/
theorem skipsOf_number (n : Nat) : skipsOf (toString n).toList = 0 := by
  rw [Nat.toString_eq_ofList_toDigits, String.toList_ofList]
  exact skipsOf_digits (by decide) n

mutual

/-- How many characters of a token may be passed over. A mark that is no punctuation counts as well:
no text is read as it. -/
def skips : Token → Nat
  | ident name _ => skipsOf name.toList
  | literal text _ => skipsOf text.toList
  | punct c _ _ => if isSkip c || !isMark c then 1 else 0
  | group _ inner _ => skipsAll inner

/-- How many characters of a sequence of tokens may be passed over. -/
def skipsAll : List Token → Nat
  | [] => 0
  | t :: ts => t.skips + skipsAll ts

end

@[simp] theorem skipsAll_nil : skipsAll [] = 0 := rfl

@[simp] theorem skipsAll_cons (t : Token) (ts : List Token) :
    skipsAll (t :: ts) = t.skips + skipsAll ts := rfl

@[simp] theorem skipsAll_append (ts us : List Token) :
    skipsAll (ts ++ us) = skipsAll ts + skipsAll us := by
  induction ts with
  | nil => simp
  | cons t ts ih => simp [ih, Nat.add_assoc]

@[simp] theorem skipsAll_reverse (ts : List Token) : skipsAll ts.reverse = skipsAll ts := by
  induction ts with
  | nil => rfl
  | cons t ts ih => simp [ih, Nat.add_comm]

mutual

/-- Where a token stands does not count. -/
theorem skips_unplaced : (t : Token) → t.unplaced.skips = t.skips
  | ident .. => rfl
  | punct .. => rfl
  | literal .. => rfl
  | group _ inner _ => skipsAll_unplacedAll inner

theorem skipsAll_unplacedAll : (ts : List Token) → skipsAll (unplacedAll ts) = skipsAll ts
  | [] => rfl
  | t :: ts => congrArg₂ (· + ·) (skips_unplaced t) (skipsAll_unplacedAll ts)

end

/-! ## Spellings -/

theorem skipsOf_dropFinalSpace (cs : List Char) : skipsOf (dropFinalSpace cs) = skipsOf cs := by
  unfold dropFinalSpace
  split
  next hlast =>
    obtain ⟨front, rfl⟩ := List.getLast?_eq_some_iff.mp hlast
    simp [skipsOf_cons, isSkip]
  next => rfl

theorem skipsOf_spaceArrows (cs : List Char) : skipsOf (spaceArrows cs) = skipsOf cs := by
  fun_induction spaceArrows cs with
  | case1 cs ih => simp [skipsOf_cons, ih, isSkip]
  | case2 c cs _ ih => simp [skipsOf_cons, ih]
  | case3 => rfl

theorem skipsOf_punct {c : Char} {spacing : Spacing} {span : Span} (afterWord : Bool) :
    skipsOf (compact afterWord (.punct c spacing span)) = if isSkip c then 1 else 0 := by
  rw [compact]
  split
  next hc =>
    subst hc
    rfl
  split
  next hc =>
    subst hc
    rfl
  split
  next hc =>
    obtain rfl : c = '\'' := by simpa using (Bool.and_eq_true_iff.mp hc).1
    rfl
  next => simp [skipsOf_cons]

mutual

/-- A token is spelled with no more than it counts. -/
theorem skipsOf_compact_le (afterWord : Bool) :
    (t : Token) → skipsOf (t.compact afterWord) ≤ t.skips
  | ident name _ => by
    cases afterWord <;> simp [compact, skips, skipsOf_cons, isSkip]
  | literal text _ => by
    cases afterWord <;> simp [compact, skips, skipsOf_cons, isSkip]
  | punct c spacing span => by
    rw [skipsOf_punct, skips]
    cases isSkip c <;> simp
  | group d inner _ => by
    have hinner := skipsOf_compactAll_le false inner
    have hgap : skipsOf (if (afterWord && d = .brace) then [' '] else []) = 0 := by
      split <;> rfl
    have hdelimiters : isSkip d.opening = false ∧ isSkip d.closing = false := by
      cases d <;> decide
    rw [compact, skips]
    simp only [skipsOf_append, skipsOf_cons, skipsOf_nil, skipsOf_dropFinalSpace, hgap,
      hdelimiters, Bool.false_eq_true, if_false, Nat.add_zero, Nat.zero_add]
    exact hinner

theorem skipsOf_compactAll_le (afterWord : Bool) :
    (ts : List Token) → skipsOf (compactAll afterWord ts) ≤ skipsAll ts
  | [] => Nat.le_refl 0
  | t :: ts => by
    have htoken := skipsOf_compact_le afterWord t
    have hmore := skipsOf_compactAll_le t.isWord ts
    simp only [compactAll, skipsOf_append, skipsAll_cons]
    omega

end

theorem skipsOf_spelling (ts : List Token) :
    skipsOf (spelling ts).toList = skipsOf (compactAll false ts) := by
  rw [spelling, String.toList_ofList, skipsOf_spaceArrows]

/-! ## Reading -/

variable {groups groups' : List OpenGroup} {done done' : List Token} {p q : Position} {c : Char}

theorem skipsOf_escape_le (c : Char) : skipsOf (Quoted.escape c).toList ≤ skipsOf [c] := by
  have hzero : ∀ {s : String}, skipsOf s.toList = 0 → skipsOf s.toList ≤ skipsOf [c] :=
    fun hs => hs ▸ Nat.zero_le _
  unfold Quoted.escape
  -- An escape has no slash of its own; a character that needs none is written as it is.
  repeat' split
  any_goals exact hzero rfl
  · refine hzero ?_
    have hdigits := skipsOf_digits (show 1 < 16 by decide) c.toNat
    simp only [Quoted.hexDigits, String.toList_append, skipsOf_append, String.toList_ofList,
      hdigits]
    rfl
  · simp

theorem skipsOf_literalBody_le (cs : List Char) :
    skipsOf (Quoted.literalBody cs).toList ≤ skipsOf cs := by
  induction cs with
  | nil => exact Nat.le_refl 0
  | cons c cs ih =>
    have hc : skipsOf (if (c.toNat = 0 && cs.head?.any fun d => '0' ≤ d && d ≤ '7') then "\\x00"
        else Quoted.escape c).toList ≤ skipsOf [c] := by
      split
      · exact Nat.zero_le _
      · exact skipsOf_escape_le c
    rw [Quoted.literalBody, String.toList_append, skipsOf_append, ← List.singleton_append,
      skipsOf_append]
    exact Nat.add_le_add hc ih

theorem skipsAll_docTokens_le (d : Comment.Doc) (span : Span) :
    skipsAll (Comment.docTokens d span) ≤ skipsOf d.text := by
  have hbody := skipsOf_literalBody_le d.text
  have hliteral : skipsOf (Quoted.literal d.text).toList ≤ skipsOf d.text := by
    simpa [Quoted.literal, skipsOf_cons, isSkip] using hbody
  have hmarks : isSkip '#' = false ∧ isSkip '!' = false ∧ isSkip '=' = false ∧
      isMark '#' = true ∧ isMark '!' = true ∧ isMark '=' = true := by decide
  have hdoc : skipsOf ['d', 'o', 'c'] = 0 := rfl
  rw [Comment.docTokens]
  cases d.inner <;> simpa [skips, hmarks, hdoc] using hliteral

/-- The text of a comment is a part of what the comment takes behind its three opening marks. -/
theorem skipsOf_text_add_drop {text : List Char} {length n : Nat} (hhead : 0 < skipsOf (cs.take 3))
    (htext : text.Sublist ((cs.drop 3).take n)) (hlength : length = 3 + n) :
    skipsOf text + skipsOf (cs.drop length) < skipsOf cs := by
  have hle := skipsOf_le_of_sublist htext
  have hcs := congrArg skipsOf (List.take_append_drop 3 cs)
  have hmore := congrArg skipsOf (List.take_append_drop n (cs.drop 3))
  rw [skipsOf_append] at hcs hmore
  rw [List.drop_drop] at hmore
  rw [hlength]
  omega

theorem skipsOf_lineDoc (h : 0 < skipsOf (cs.take 3)) (inner : Bool) :
    skipsOf (Comment.lineDoc cs inner).text + skipsOf (cs.drop (Comment.lineDoc cs inner).length) <
      skipsOf cs := by
  have htake := List.prefix_iff_eq_take.mp (List.takeWhile_prefix (fun c : Char => c ≠ '\n')
    (l := cs.drop 3))
  have htext : (Comment.lineDoc cs inner).text.Sublist
      ((cs.drop 3).takeWhile fun c : Char => c ≠ '\n') := by
    unfold Comment.lineDoc
    simp only
    split
    · exact List.dropLast_sublist _
    · exact .refl _
  exact skipsOf_text_add_drop h (htake ▸ htext) rfl

/-- Of a documentation comment at least its first slash is lost. -/
theorem skipsOf_doc {d : Comment.Doc} (h : Comment.doc? cs = some d) :
    skipsOf d.text + skipsOf (cs.drop d.length) < skipsOf cs := by
  have hslash : ∀ {s : String}, s.toList.head? = some '/' → s.length = 3 →
      startsWith s cs = true → 0 < skipsOf (cs.take 3) := by
    intro s hs hlength hstarts
    obtain ⟨more, hmore⟩ := List.head?_eq_some_iff.mp hs
    rw [← hlength, take_of_startsWith hstarts, hmore, skipsOf_cons]
    exact Nat.lt_add_left _ (by decide)
  have hline : ∀ {inner : Bool}, 0 < skipsOf (cs.take 3) → Comment.lineDoc cs inner = d →
      skipsOf d.text + skipsOf (cs.drop d.length) < skipsOf cs := by
    rintro inner hhead rfl
    exact skipsOf_lineDoc hhead inner
  have hblock : ∀ {s : String} {more : List Char} {inner : Bool}, s.toList = '/' :: '*' :: more →
      s.length = 3 → startsWith s cs = true → Comment.doc?.block cs inner = some d →
      skipsOf d.text + skipsOf (cs.drop d.length) < skipsOf cs := by
    intro s more inner hs hthree hstarts h
    obtain ⟨n, hn, rfl⟩ := Option.map_eq_some_iff.mp h
    -- A block is at least as long as its marks, which the text does not include.
    have hlength : 3 ≤ n := by
      obtain ⟨behind, rfl⟩ := List.isPrefixOf_iff_prefix.mp hstarts
      rw [hs, List.cons_append, List.cons_append, Comment.blockLength?] at hn
      obtain ⟨m, hm, rfl⟩ := Option.map_eq_some_iff.mp hn
      exact Nat.add_le_add_right (Comment.blockLength?_pos hm) 2
    exact skipsOf_text_add_drop (n := n - 3) (hslash (by rw [hs]; rfl) hthree hstarts)
      (List.take_sublist_take_left (Nat.sub_le_sub_left (by decide) n)) (by simp only; omega)
  -- The four ways in which documentation opens.
  unfold Comment.doc? at h
  split at h
  next hstarts => exact hline (hslash rfl rfl hstarts) (Option.some.inj h)
  split at h
  next hstarts => exact hblock rfl rfl hstarts h
  split at h
  next hstarts =>
    split at h
    · cases h
    · exact hline (hslash rfl rfl hstarts) (Option.some.inj h)
  split at h
  next hstarts => exact hblock rfl rfl (Bool.and_eq_true_iff.mp hstarts).1 h
  next => cases h

/-- How many characters may be passed over of the tokens that were read so far. -/
def pending : List OpenGroup → List Token → Nat
  | [], done => skipsAll done
  | g :: groups, done => pending groups g.before + skipsAll done

theorem pending_append (groups : List OpenGroup) (new done : List Token) :
    pending groups (new ++ done) = skipsAll new + pending groups done := by
  cases groups with
  | nil => simp [pending]
  | cons g groups => simp [pending, Nat.add_left_comm]

theorem pending_cons (groups : List OpenGroup) (t : Token) (done : List Token) :
    pending groups (t :: done) = t.skips + pending groups done :=
  pending_append groups [t] done

theorem isMark_of_leaf? {spacing : Spacing} {span : Span} {n : Nat}
    (h : leaf? p cs = some (.punct c spacing span, n)) : isMark c = true := by
  have herror : leaf?.errorLiteral? p cs ≠ some (.punct c spacing span, n) := by
    unfold leaf?.errorLiteral?
    split <;> simp
  unfold leaf? at h
  split at h
  · simp at h
  split at h
  next hmark =>
    split at h
    · split at h
      · simp only [Option.some.injEq, Prod.mk.injEq, punct.injEq] at h
        rw [← h.1.1]
        rfl
      · cases h
    · obtain ⟨d, hd, h⟩ := Option.map_eq_some_iff.mp h
      simp only [Prod.mk.injEq, punct.injEq] at h
      have hany := (Bool.and_eq_true_iff.mp hmark).2
      rw [hd, h.1.1] at hany
      exact hany
  split at h
  · split at h
    · simp at h
    · exact absurd h herror
  · exact absurd h herror

/-- A token counts what it is read from. -/
theorem skips_of_leaf? {t : Token} {n : Nat} (h : leaf? p cs = some (t, n)) :
    t.skips = skipsOf (cs.take n) := by
  have hleaf := leaf?_eq_some h
  have hshows := hleaf.shows
  cases t with
  | ident name span => rw [show cs.take n = name.toList from hshows, skips]
  | literal text span => rw [show cs.take n = text.toList from hshows, skips]
  | punct mark spacing span =>
    rw [show cs.take n = [mark] from hshows, skips, isMark_of_leaf? h]
    simp [skipsOf_cons]
  | group d inner span => exact absurd rfl (hleaf.leaf d inner span)

theorem skipsOf_drop_le (n : Nat) (cs : List Char) : skipsOf (cs.drop n) ≤ skipsOf cs :=
  skipsOf_le_of_sublist (List.drop_sublist n cs)

theorem pending_doc_lt {d : Comment.Doc} (hdoc : Comment.doc? (c :: cs) = some d)
    (groups : List OpenGroup) (done : List Token) (span : Span) :
    pending groups ((Comment.docTokens d span).reverse ++ done) + skipsOf (cs.drop (d.length - 1)) <
      pending groups done + skipsOf (c :: cs) := by
  have htokens := skipsAll_docTokens_le d span
  have hdrop := skipsOf_doc hdoc
  obtain ⟨n, hn⟩ := Nat.exists_eq_succ_of_ne_zero (Nat.one_le_iff_ne_zero.mp
    (Comment.doc?_pos hdoc))
  rw [hn, List.drop_succ_cons] at hdrop
  rw [pending_append, skipsAll_reverse, hn, Nat.succ_sub_one]
  omega

/-- No turn adds to what is counted. -/
theorem Turn.skips_le (h : Turn groups done p c cs groups' done' q cs') :
    pending groups' done' + skipsOf cs' ≤ pending groups done + skipsOf (c :: cs) := by
  have hmore : skipsOf cs ≤ skipsOf (c :: cs) := skipsOf_drop_le 1 (c :: cs)
  -- Tokens and groups move what they count from the text to `done`; comments lose it.
  cases h with
  | blank _ => exact Nat.add_le_add_left hmore _
  | @comment n _ _ _ => exact Nat.add_le_add_left ((skipsOf_drop_le n cs).trans hmore) _
  | doc _ hdoc _ => exact (pending_doc_lt hdoc groups done _).le
  | opening _ _ =>
    rw [pending, skipsAll_nil]
    exact Nat.add_le_add_left hmore _
  | closing hgroups _ =>
    subst hgroups
    rw [pending_cons, pending, skips, skipsAll_reverse]
    omega
  | @leaf t n _ _ _ hleaf =>
    have ht := skips_of_leaf? hleaf
    have hsplit := congrArg skipsOf (List.take_append_drop n (c :: cs))
    obtain ⟨m, rfl⟩ := Nat.exists_eq_succ_of_ne_zero (Nat.one_le_iff_ne_zero.mp
      (leaf?_eq_some hleaf).pos)
    rw [skipsOf_append, List.drop_succ_cons] at hsplit
    rw [pending_cons, Nat.succ_sub_one]
    omega

/-- What is read counts no more than its text. -/
theorem readFrom_skips (h : readFrom groups done p cs = .ok ts) :
    skipsAll ts ≤ pending groups done + skipsOf cs := by
  refine readFrom_induction (motive := fun groups done _ cs =>
    skipsAll ts ≤ pending groups done + skipsOf cs) ?_ ?_ h
  · rintro done - rfl
    simp [pending]
  · intro groups done p c cs groups' done' q cs' _ hturn _ hmore
    exact hmore.trans hturn.skips_le

end Graft.Token

import Graft.Proofs.Token.Word

/-!
# Steps of the reader

The reader passes over a blank, opens or closes a group, or reads one token. What it has read
outside of all groups stays, so that a text that is read as one identifier is that identifier and no
more.
-/

namespace Graft.Token

variable {groups : List OpenGroup} {done : List Token} {p : Position} {c : Char} {cs : List Char}

/-- A character that is no blank and starts no comment. -/
structure Solid (c : Char) : Prop where
  slash : c ≠ '/'
  blank : Comment.isBlankMark c = false

theorem Solid.pieceLength (h : Solid c) (cs : List Char) : Comment.pieceLength (c :: cs) = 0 := by
  have hstarts : ∀ {s : String}, s.toList.head? = some '/' → startsWith s (c :: cs) = false :=
    fun hs => startsWith_cons_of_ne hs h.slash
  simp [Comment.pieceLength, hstarts (s := "//") rfl, hstarts (s := "/**/") rfl,
    hstarts (s := "/*") rfl, h.blank]

theorem Solid.blankLength (h : Solid c) (cs : List Char) : Comment.blankLength (c :: cs) = 0 := by
  rw [Comment.blankLength]
  simp [h.pieceLength]

theorem Solid.doc? (h : Solid c) (cs : List Char) : Comment.doc? (c :: cs) = none := by
  have hstarts : ∀ {s : String}, s.toList.head? = some '/' → startsWith s (c :: cs) = false :=
    fun hs => startsWith_cons_of_ne hs h.slash
  simp [Comment.doc?, hstarts (s := "//!") rfl, hstarts (s := "/*!") rfl,
    hstarts (s := "///") rfl, hstarts (s := "/**") rfl]

theorem Solid.of_blankLength (h : Comment.blankLength (c :: cs) = 0) (hc : c ≠ '/') :
    Solid c := by
  refine ⟨hc, ?_⟩
  by_contra hblank
  rw [Bool.not_eq_false] at hblank
  have hstarts : ∀ {s : String}, s.toList.head? = some '/' → startsWith s (c :: cs) = false :=
    fun hs => startsWith_cons_of_ne hs hc
  have hpiece : Comment.pieceLength (c :: cs) = 1 := by
    simp [Comment.pieceLength, hstarts (s := "//") rfl, hstarts (s := "/**/") rfl,
      hstarts (s := "/*") rfl, hblank]
  rw [Comment.blankLength] at h
  simp [hpiece] at h

/-- What the reader does with `cs`, which no blank stands before. -/
def readSolid (groups : List OpenGroup) (done : List Token) (here : Position) :
    List Char → Except Position (List Token)
  | [] =>
    match groups with
    | [] => .ok done.reverse
    | g :: _ => .error g.start
  | c :: rest =>
    match Comment.doc? (c :: rest) with
    | some d =>
      if Comment.hasBareReturn d.text then .error here
      else
        let after := here.advance ((c :: rest).take d.length)
        readFrom groups ((Comment.docTokens d ⟨here, after⟩).reverse ++ done) after
          (rest.drop (d.length - 1))
    | none =>
      match (if startsWith errorMark (c :: rest) then none else Delimiter.opened? c) with
      | some d => readFrom (⟨d, done, here⟩ :: groups) [] (here.next c) rest
      | none =>
        match Delimiter.closed? c with
        | some d =>
          match groups with
          | [] => .error here
          | g :: outer =>
            if g.delimiter = d then
              readFrom outer (.group d done.reverse ⟨g.start, here.next c⟩ :: g.before)
                (here.next c) rest
            else .error here
        | none =>
          match leaf? here (c :: rest) with
          | some (t, n) =>
            readFrom groups (t :: done) (here.advance ((c :: rest).take n)) (rest.drop (n - 1))
          | none => .error here

theorem readFrom_eq : readFrom groups done p cs =
    readSolid groups done (p.advance (cs.take (Comment.blankLength cs)))
      (cs.drop (Comment.blankLength cs)) := by
  rw [readFrom.eq_def]
  simp only
  split
  next heq =>
    rw [heq]
    rfl
  next heq =>
    rw [heq]
    rfl

theorem readFrom_solid (hc : Solid c) :
    readFrom groups done p (c :: cs) = readSolid groups done p (c :: cs) := by
  rw [readFrom_eq, hc.blankLength]
  rfl

theorem readFrom_nil : readFrom [] done p [] = .ok done.reverse := by
  rw [readFrom_eq, Comment.blankLength]
  rfl

theorem readSolid_leaf {t : Token} {n : Nat} (hdoc : Comment.doc? (c :: cs) = none)
    (hopened : Delimiter.opened? c = none ∨ startsWith errorMark (c :: cs) = true)
    (hclosed : Delimiter.closed? c = none) (hleaf : leaf? p (c :: cs) = some (t, n)) :
    readSolid groups done p (c :: cs) =
      readFrom groups (t :: done) (p.advance ((c :: cs).take n)) (cs.drop (n - 1)) := by
  have hgroup : (if startsWith errorMark (c :: cs) then none else Delimiter.opened? c) = none := by
    rcases hopened with hopened | hmark
    · rw [hopened, ite_self]
    · rw [if_pos hmark]
  simp only [readSolid, hdoc, hgroup, hclosed, hleaf]

theorem readFrom_leaf (hc : Solid c) (hopened : Delimiter.opened? c = none)
    (hclosed : Delimiter.closed? c = none) {rest : List Char} {t : Token}
    (hleaf : leaf? p (c :: cs ++ rest) = some (t, (c :: cs).length)) :
    readFrom groups done p (c :: cs ++ rest) =
      readFrom groups (t :: done) (p.advance (c :: cs)) rest := by
  have htake : (c :: (cs ++ rest)).take (cs.length + 1) = c :: cs := by
    rw [List.take_succ_cons, List.take_left]
  have hdrop : (cs ++ rest).drop cs.length = rest := List.drop_left
  rw [List.cons_append] at hleaf ⊢
  rw [readFrom_solid hc, readSolid_leaf (hc.doc? _) (.inl hopened) hclosed hleaf, List.length_cons,
    htake, Nat.add_sub_cancel, hdrop]

theorem solid_opening (d : Delimiter) : Solid d.opening := by
  cases d <;> exact ⟨by decide, by decide⟩

theorem solid_closing (d : Delimiter) : Solid d.closing := by
  cases d <;> exact ⟨by decide, by decide⟩

theorem readFrom_opens {d : Delimiter} (hmark : startsWith errorMark (d.opening :: cs) = false) :
    readFrom groups done p (d.opening :: cs) =
      readFrom (⟨d, done, p⟩ :: groups) [] (p.next d.opening) cs := by
  have hopened : Delimiter.opened? d.opening = some d := by cases d <;> rfl
  rw [readFrom_solid (solid_opening d)]
  simp only [readSolid, (solid_opening d).doc?, hmark, hopened, Bool.false_eq_true, if_false]

theorem readFrom_opening (d : Delimiter) (hcs : cs.head? ≠ some '/') :
    readFrom groups done p (d.opening :: cs) =
      readFrom (⟨d, done, p⟩ :: groups) [] (p.next d.opening) cs := by
  refine readFrom_opens ?_
  cases cs with
  | nil => cases d <;> rfl
  | cons c cs =>
    have hc : '/' ≠ c := fun heq => hcs (by rw [heq]; rfl)
    simp [startsWith, errorMark, List.isPrefixOf_cons_cons, hc]

theorem readFrom_closing {d : Delimiter} {before : List Token} {start : Position} :
    readFrom (⟨d, before, start⟩ :: groups) done p (d.closing :: cs) =
      readFrom groups (.group d done.reverse ⟨start, p.next d.closing⟩ :: before)
        (p.next d.closing) cs := by
  have hopened : Delimiter.opened? d.closing = none := by cases d <;> rfl
  have hclosed : Delimiter.closed? d.closing = some d := by cases d <;> rfl
  rw [readFrom_solid (solid_closing d)]
  simp only [readSolid, (solid_closing d).doc?, hopened, ite_self, hclosed, if_true]

/-! ## Turns -/

theorem blankLength_eq (cs : List Char) : Comment.blankLength cs =
    Comment.pieceLength cs + Comment.blankLength (cs.drop (Comment.pieceLength cs)) := by
  cases hpiece : Comment.pieceLength cs with
  | zero => rw [List.drop_zero, Nat.zero_add]
  | succ n =>
    cases cs with
    | nil => cases hpiece
    | cons c cs =>
      rw [Comment.blankLength]
      simp [hpiece]

theorem readFrom_piece : readFrom groups done p cs =
    readFrom groups done (p.advance (cs.take (Comment.pieceLength cs)))
      (cs.drop (Comment.pieceLength cs)) := by
  rw [readFrom_eq, blankLength_eq, List.take_add, ← List.drop_drop, Position.advance_append,
    ← readFrom_eq]

theorem pieceLength_blankMark (hc : Comment.isBlankMark c = true) (cs : List Char) :
    Comment.pieceLength (c :: cs) = 1 := by
  have hslash : c ≠ '/' := by
    rintro rfl
    cases hc
  have hstarts : ∀ {s : String}, s.toList.head? = some '/' → startsWith s (c :: cs) = false :=
    fun hs => startsWith_cons_of_ne hs hslash
  simp [Comment.pieceLength, hstarts (s := "//") rfl, hstarts (s := "/**/") rfl,
    hstarts (s := "/*") rfl, hc]

theorem readFrom_blankMark (hc : Comment.isBlankMark c = true) :
    readFrom groups done p (c :: cs) = readFrom groups done (p.next c) cs := by
  rw [readFrom_piece, pieceLength_blankMark hc]
  rfl

theorem readFrom_blank :
    readFrom groups done p (' ' :: cs) = readFrom groups done (p.next ' ') cs :=
  readFrom_blankMark rfl

/-- One turn of a reader that stands in front of `c :: cs`: the groups, tokens and place that it
goes on with, and the text that is left. -/
inductive Turn (groups : List OpenGroup) (done : List Token) (p : Position) (c : Char)
    (cs : List Char) : List OpenGroup → List Token → Position → List Char → Prop where
  | blank : Comment.isBlankMark c = true → Turn groups done p c cs groups done (p.next c) cs
  | comment {n : Nat} {q : Position} : c = '/' → Comment.pieceLength (c :: cs) = n + 1 →
      Turn groups done p c cs groups done q (cs.drop n)
  | doc {d : Comment.Doc} {span : Span} {q : Position} : Comment.pieceLength (c :: cs) = 0 →
      Comment.doc? (c :: cs) = some d → Comment.hasBareReturn d.text = false →
      Turn groups done p c cs groups ((Comment.docTokens d span).reverse ++ done) q
        (cs.drop (d.length - 1))
  | opening {d : Delimiter} : c = d.opening → startsWith errorMark (c :: cs) = false →
      Turn groups done p c cs (⟨d, done, p⟩ :: groups) [] (p.next c) cs
  | closing {g : OpenGroup} {outer : List OpenGroup} : groups = g :: outer →
      c = g.delimiter.closing →
      Turn groups done p c cs outer
        (.group g.delimiter done.reverse ⟨g.start, p.next c⟩ :: g.before) (p.next c) cs
  | leaf {t : Token} {n : Nat} : Comment.isBlankMark c = false →
      (Delimiter.opened? c = none ∨ startsWith errorMark (c :: cs) = true) →
      Delimiter.closed? c = none → leaf? p (c :: cs) = some (t, n) →
      Turn groups done p c cs groups (t :: done) (p.advance ((c :: cs).take n)) (cs.drop (n - 1))

theorem exists_turn_of_readSolid {ts : List Token} (hblank : Comment.isBlankMark c = false)
    (hpiece : Comment.pieceLength (c :: cs) = 0)
    (h : readSolid groups done p (c :: cs) = .ok ts) :
    ∃ groups' done' q cs', Turn groups done p c cs groups' done' q cs' ∧
      readFrom groups' done' q cs' = .ok ts ∧ cs'.length ≤ cs.length := by
  have hdrop : ∀ n, (cs.drop n).length ≤ cs.length := fun n => by
    rw [List.length_drop]
    exact Nat.sub_le _ _
  rw [readSolid] at h
  split at h
  next d hdoc =>
    split at h
    · cases h
    next hreturn => exact ⟨_, _, _, _, .doc hpiece hdoc (Bool.not_eq_true _ ▸ hreturn), h, hdrop _⟩
  split at h
  next d hopened =>
    -- A parenthesis that opens a group does not start the mark of an unreadable literal.
    have hmark : startsWith errorMark (c :: cs) = false := by
      by_contra hmark
      rw [Bool.not_eq_false] at hmark
      simp [hmark] at hopened
    rw [hmark, if_neg Bool.false_ne_true] at hopened
    exact ⟨_, _, _, _, .opening (Delimiter.opened?_eq_some hopened) hmark, h, Nat.le_refl _⟩
  next hopened =>
    split at h
    next d hclosed =>
      split at h
      · cases h
      split at h
      next hsame =>
        exact ⟨_, _, _, _, .closing rfl (hsame ▸ Delimiter.closed?_eq_some hclosed), hsame ▸ h,
          Nat.le_refl _⟩
      · cases h
    next hclosed =>
      split at h
      next t n hleaf =>
        have hopened : Delimiter.opened? c = none ∨ startsWith errorMark (c :: cs) = true := by
          by_cases hmark : startsWith errorMark (c :: cs) = true
          · exact .inr hmark
          · rw [if_neg hmark] at hopened
            exact .inl hopened
        exact ⟨_, _, _, _, .leaf hblank hopened hclosed hleaf, h, hdrop _⟩
      · cases h

/-- What is read is read in turns. -/
theorem exists_turn {ts : List Token} (h : readFrom groups done p (c :: cs) = .ok ts) :
    ∃ groups' done' q cs', Turn groups done p c cs groups' done' q cs' ∧
      readFrom groups' done' q cs' = .ok ts ∧ cs'.length ≤ cs.length := by
  by_cases hblank : Comment.isBlankMark c = true
  · exact ⟨_, _, _, _, .blank hblank, (readFrom_blankMark hblank).symm.trans h, Nat.le_refl _⟩
  rw [Bool.not_eq_true] at hblank
  by_cases hpiece : Comment.pieceLength (c :: cs) = 0
  · have hlength : Comment.blankLength (c :: cs) = 0 := by
      rw [Comment.blankLength]
      simp [hpiece]
    rw [readFrom_eq, hlength] at h
    exact exists_turn_of_readSolid hblank hpiece h
  · -- What is passed over and no blank is a comment.
    have hc : c = '/' := by
      by_contra hslash
      exact hpiece ((⟨hslash, hblank⟩ : Solid c).pieceLength cs)
    obtain ⟨n, hn⟩ := Nat.exists_eq_succ_of_ne_zero hpiece
    rw [readFrom_piece, hn] at h
    refine ⟨_, _, _, _, .comment hc hn, h, ?_⟩
    rw [List.length_drop]
    exact Nat.sub_le _ _

/-- What holds at the end of a text and is carried back over every turn holds where reading starts.
-/
theorem readFrom_induction {ts : List Token}
    {motive : List OpenGroup → List Token → Position → List Char → Prop}
    (nil : ∀ done p, ts = done.reverse → motive [] done p [])
    (turn : ∀ {groups done p c cs groups' done' q cs'}, readFrom groups done p (c :: cs) = .ok ts →
      Turn groups done p c cs groups' done' q cs' → readFrom groups' done' q cs' = .ok ts →
      motive groups' done' q cs' → motive groups done p (c :: cs))
    (h : readFrom groups done p cs = .ok ts) : motive groups done p cs := by
  -- Each turn leaves fewer characters.
  induction hlength : cs.length using Nat.strongRecOn generalizing groups done p cs with
  | ind n ih =>
    subst hlength
    cases cs with
    | nil =>
      cases groups with
      | nil => exact nil done p (Except.ok.inj (h.symm.trans readFrom_nil))
      | cons g groups =>
        rw [readFrom_eq, Comment.blankLength] at h
        cases h
    | cons c cs =>
      obtain ⟨groups', done', q, cs', hturn, hread, hle⟩ := exists_turn h
      exact turn h hturn hread (ih _ (Nat.lt_succ_of_le hle) hread rfl)

/-! ## What was read stays -/

/-- The tokens outside of all open groups that were read so far. -/
def topLevel : List OpenGroup → List Token → List Token
  | [], done => done.reverse
  | g :: groups, _ => topLevel groups g.before

/-- What was read outside of all groups stays, and a group that is open comes behind it. -/
def Extends (groups : List OpenGroup) (done ts : List Token) : Prop :=
  ∃ more, ts = topLevel groups done ++ more ∧
    (groups ≠ [] → ∃ d inner span, more.head? = some (.group d inner span))

theorem Extends.of_append {new ts : List Token} (h : Extends groups (new.reverse ++ done) ts) :
    Extends groups done ts := by
  obtain ⟨more, hts, hmore⟩ := h
  cases groups with
  | nil => exact ⟨new ++ more, by simpa [topLevel] using hts, fun hne => absurd rfl hne⟩
  | cons g groups => exact ⟨more, hts, hmore⟩

theorem Extends.of_opened {d : Delimiter} {ts : List Token}
    (h : Extends (⟨d, done, p⟩ :: groups) [] ts) : Extends groups done ts := by
  obtain ⟨more, hts, hmore⟩ := h
  exact ⟨more, hts, fun _ => hmore nofun⟩

theorem Extends.of_closed {g : OpenGroup} {d : Delimiter} {inner ts : List Token} {span : Span}
    (h : Extends groups (.group d inner span :: g.before) ts) : Extends (g :: groups) done ts := by
  obtain ⟨more, hts, hmore⟩ := h
  cases groups with
  | nil =>
    refine ⟨.group d inner span :: more, ?_, fun _ => ⟨_, _, _, rfl⟩⟩
    simpa [topLevel] using hts
  | cons g' groups => exact ⟨more, hts, fun _ => hmore nofun⟩

theorem readFrom_extends {ts : List Token} (h : readFrom groups done p cs = .ok ts) :
    Extends groups done ts := by
  refine readFrom_induction (motive := fun groups done _ _ => Extends groups done ts) ?_ ?_ h
  · rintro done - rfl
    exact ⟨[], (List.append_nil _).symm, fun hne => absurd rfl hne⟩
  · intro groups done p c cs groups' done' q cs' _ hturn _ hmore
    cases hturn with
    | blank _ => exact hmore
    | comment _ _ => exact hmore
    | doc _ _ _ => exact hmore.of_append
    | opening _ _ => exact hmore.of_opened
    | closing hgroups _ =>
      subst hgroups
      exact hmore.of_closed
    | @leaf t _ _ _ _ _ => exact (show Extends groups ([t].reverse ++ done) ts from hmore).of_append

theorem nameLength?_of_leaf? {name : String} {span : Span} {n : Nat}
    (h : leaf? p cs = some (.ident name span, n)) : nameLength? cs = some n := by
  have herror : leaf?.errorLiteral? p cs ≠ some (.ident name span, n) := by
    unfold leaf?.errorLiteral?
    split <;> simp
  -- Literals, marks and lifetimes are tried before names.
  unfold leaf? at h
  split at h
  · simp at h
  split at h
  · split at h
    · split at h <;> simp at h
    · obtain ⟨c, -, h⟩ := Option.map_eq_some_iff.mp h
      simp at h
  split at h
  · split at h
    next m hm =>
      obtain ⟨-, rfl⟩ := Prod.mk.inj (Option.some.inj h)
      exact hm
    next => exact absurd h herror
  · exact absurd h herror

theorem leaf?_of_readFrom {name : String} {span : Span}
    (h : readFrom [] [] p cs = .ok [.ident name span]) :
    ∃ here n, leaf? here (cs.drop (Comment.blankLength cs)) = some (.ident name span, n) := by
  rw [readFrom_eq] at h
  generalize p.advance (cs.take (Comment.blankLength cs)) = here at h
  cases hdrop : cs.drop (Comment.blankLength cs) with
  | nil =>
    rw [hdrop] at h
    cases h
  | cons c rest =>
    rw [hdrop, readSolid] at h
    split at h
    -- A documentation comment gives more than one token, and a group no identifier.
    next d _ =>
      split at h
      · cases h
      · obtain ⟨more, hmore, -⟩ := readFrom_extends h
        simp [topLevel, Comment.docTokens] at hmore
    next =>
      split at h
      next =>
        obtain ⟨more, hmore, hgroup⟩ := readFrom_extends h
        obtain ⟨d, inner, span, hhead⟩ := hgroup (List.cons_ne_nil _ _)
        rw [show topLevel _ _ = [] from rfl, List.nil_append] at hmore
        rw [← hmore] at hhead
        cases hhead
      next =>
        split at h
        · cases h
        · split at h
          next t n hleaf =>
            obtain ⟨more, hmore, -⟩ := readFrom_extends h
            have ht : .ident name span = t := (List.cons.inj hmore).1
            exact ⟨here, n, ht ▸ hleaf⟩
          · cases h

/-- A text that is read as the identifier that it is. -/
theorem word_of_read {text : String} {span : Span}
    (h : read text.toList = .ok [.ident text span]) :
    WordText text.toList ∧ ∃ c more, text.toList = c :: more ∧ Solid c ∧ c.toNat ≠ 0xFEFF := by
  have hpos : 0 < text.toList.length := by
    refine List.length_pos_iff.mpr fun hnil => ?_
    rw [hnil] at h
    cases h
  -- An identifier of all characters leaves none for a byte order mark or a blank.
  have hwhole : ∀ {p : Position} {cs : List Char}, cs.length ≤ text.toList.length →
      readFrom [] [] p cs = .ok [.ident text span] →
      cs.length = text.toList.length ∧ Comment.blankLength cs = 0 ∧
        ∃ n, cs.length ≤ n ∧ nameLength? cs = some n := by
    intro p cs hcs hread
    obtain ⟨here, n, hleaf⟩ := leaf?_of_readFrom hread
    have hshows : (cs.drop (Comment.blankLength cs)).take n = text.toList :=
      (leaf?_eq_some hleaf).shows
    have hlength := congrArg List.length hshows
    rw [List.length_take, List.length_drop] at hlength
    have hblank : Comment.blankLength cs = 0 := by omega
    rw [hblank, List.drop_zero] at hleaf
    exact ⟨by omega, hblank, n, by omega, nameLength?_of_leaf? hleaf⟩
  cases htext : text.toList with
  | nil => simp [htext] at hpos
  | cons c more =>
    rw [htext] at h hwhole
    rw [read] at h
    split at h
    next =>
      obtain ⟨hlength, -⟩ := hwhole (Nat.le_succ more.length) h
      simp at hlength
    next hmark =>
      obtain ⟨-, hblank, n, hn, hname⟩ := hwhole (Nat.le_refl _) h
      have hword := wordText_of_nameLength? hname hn
      obtain ⟨c', more', heq, hc⟩ := hword.head
      obtain ⟨rfl, rfl⟩ := List.cons.inj heq
      have hslash : c ≠ '/' := isIdentStart_ne hc (by decide)
      exact ⟨hword, c, more, rfl, .of_blankLength hblank hslash, hmark⟩

end Graft.Token

import Graft.Proofs.Token.Extend
import Graft.Proofs.Token.Respaced

/-!
# Tokens that stay apart

A spelling puts most tokens next to each other, whatever blanks stood between them. It is read as
the same tokens if none of them goes on into the one behind it and if the marks of its operators
stood together before.
-/

namespace Graft.Token

/-! ## The condition -/

/-- The mark that comes next. -/
def nextMark? : List Token → Option Char
  | punct c _ _ :: _ => some c
  | _ => none

/-- The text is a literal, and the blanks around arrows do not change it. -/
def keepsLiteral (cs : List Char) : Bool :=
  Literal.length? cs = some cs.length && spaceArrows cs = cs && cs.getLast? ≠ some '-'

/-- In the spelling no token goes on into the next one, no two marks start a comment, and the marks
of an operator and of a lifetime stood together before. -/
inductive StaysApart : List Token → Prop where
  | nil : StaysApart []
  | ident {ts} (name : String) (span : Span) : readsAsWord name = true →
      nextMark? ts ≠ some '#' → StaysApart ts → StaysApart (.ident name span :: ts)
  | literal {ts} (text : String) (span : Span) : keepsLiteral text.toList = true →
      (∀ c ∈ nextMark? ts, c ≠ '#' ∧ Literal.goesOn text.toList c = false) →
      StaysApart ts → StaysApart (.literal text span :: ts)
  | lifetime {ts} (name : String) (span span' : Span) : readsAsWord name = true →
      nextMark? ts ≠ some '#' →
      StaysApart ts → StaysApart (.punct '\'' .joint span :: .ident name span' :: ts)
  | arrow {ts} (spacing : Spacing) (span span' : Span) : runsInto '>' ts = false →
      StaysApart ts → StaysApart (.punct '-' .joint span :: .punct '>' spacing span' :: ts)
  | mark {ts} (c : Char) (spacing : Spacing) (span : Span) : isMark c = true → c ≠ '\'' →
      (c = '/' → nextMark? ts ≠ some '/' ∧ nextMark? ts ≠ some '*') →
      (c = '-' → nextMark? ts ≠ some '>') → (runsInto c ts = true → spacing = .joint) →
      StaysApart ts → StaysApart (.punct c spacing span :: ts)
  | group {inner ts} (d : Delimiter) (span : Span) : StaysApart inner →
      StaysApart ts → StaysApart (.group d inner span :: ts)

/-- Whether a token stays apart from the tokens behind it. -/
def checkFirst : Token → List Token → Bool
  | ident name _, ts => readsAsWord name && nextMark? ts ≠ some '#'
  | literal text _, ts =>
    keepsLiteral text.toList &&
      (nextMark? ts).all fun c => c ≠ '#' && !Literal.goesOn text.toList c
  | punct c spacing _, ts =>
    if c = '\'' then spacing = .joint && ts.head?.any isIdent
    else if c = '-' && nextMark? ts = some '>' then spacing = .joint && !runsInto '>' ts.tail
    else
      isMark c && (c ≠ '/' || (nextMark? ts ≠ some '/' && nextMark? ts ≠ some '*')) &&
        (!runsInto c ts || spacing = .joint)
  | group .., _ => true
where
  isIdent : Token → Bool
    | ident .. => true
    | _ => false

mutual

def checkInside : Token → Bool
  | group _ inner _ => checkApart inner
  | _ => true

def checkApart : List Token → Bool
  | [] => true
  | t :: ts => checkFirst t ts && checkInside t && checkApart ts

end

theorem StaysApart.punct {c : Char} {spacing : Spacing} {span : Span} {ts : List Token}
    (h : checkFirst (.punct c spacing span) ts = true) (hts : StaysApart ts) :
    StaysApart (.punct c spacing span :: ts) := by
  simp only [checkFirst] at h
  split at h
  next hc =>
    -- The name of a lifetime is a word of its own.
    subst hc
    obtain ⟨hspacing, hword⟩ := Bool.and_eq_true_iff.mp h
    obtain rfl := of_decide_eq_true hspacing
    cases hts with
    | ident name span' hreads hnext hus => exact .lifetime name span span' hreads hnext hus
    | _ => cases hword
  next hquote =>
    split at h
    next harrow =>
      obtain ⟨hdash, hgreater⟩ := Bool.and_eq_true_iff.mp harrow
      obtain rfl := of_decide_eq_true hdash
      obtain ⟨hspacing, hruns⟩ := Bool.and_eq_true_iff.mp h
      obtain rfl := of_decide_eq_true hspacing
      rw [Bool.not_eq_true'] at hruns
      cases hts with
      | mark d spacing' span' _ _ _ _ _ hus =>
        obtain rfl : d = '>' := by simpa [nextMark?] using hgreater
        exact .arrow spacing' span span' hruns hus
      | _ => simp [nextMark?] at hgreater
    next harrow =>
      simp only [Bool.and_eq_true, Bool.or_eq_true, Bool.not_eq_true', decide_eq_true_iff,
        ne_eq] at h harrow
      obtain ⟨⟨hc, hslash⟩, hjoint⟩ := h
      refine .mark c spacing span hc hquote (fun h => hslash.resolve_left (not_not.mpr h))
        (fun h hgreater => harrow ⟨h, hgreater⟩) (fun h => hjoint.resolve_left ?_) hts
      rw [h]
      exact Bool.noConfusion

theorem StaysApart.cons {t : Token} {ts : List Token} (hfirst : checkFirst t ts = true)
    (hinside : ∀ d inner span, t = .group d inner span → StaysApart inner) (hts : StaysApart ts) :
    StaysApart (t :: ts) := by
  cases t with
  | ident name span =>
    simp only [checkFirst, Bool.and_eq_true, decide_eq_true_iff] at hfirst
    exact .ident name span hfirst.1 hfirst.2 hts
  | literal text span =>
    obtain ⟨hkeeps, hnext⟩ := Bool.and_eq_true_iff.mp hfirst
    refine .literal text span hkeeps (fun c hc => ?_) hts
    simpa [Option.mem_def.mp hc] using hnext
  | group d inner span => exact .group d span (hinside d inner span rfl) hts
  | punct c spacing span => exact .punct hfirst hts

mutual

theorem StaysApart.of_checkInside : (t : Token) → checkInside t = true →
    ∀ d inner span, t = .group d inner span → StaysApart inner
  | .ident .., _ | .punct .., _ | .literal .., _ => nofun
  | .group _ inner _, h => by
    rintro _ _ _ ⟨⟩
    exact StaysApart.of_check inner h

theorem StaysApart.of_check : (ts : List Token) → checkApart ts = true → StaysApart ts
  | [], _ => .nil
  | t :: ts, h => by
    rw [checkApart, Bool.and_eq_true, Bool.and_eq_true] at h
    exact .cons h.1.1 (StaysApart.of_checkInside t h.1.2) (StaysApart.of_check ts h.2)

end

/-! ## Texts of tokens -/

/-- The text `cs` renders the tokens `ts`, with blanks anywhere between. -/
inductive Renders : List Char → List Token → Prop where
  | nil : Renders [] []
  | blank {cs ts} : Renders cs ts → Renders (' ' :: cs) ts
  | word {cs ts} (w : Word) (span : Span) : EndsName cs → Renders cs ts →
      Renders (w.text.toList ++ cs) (.ident w.text span :: ts)
  | literal {cs ts} (text : String) (span : Span) :
      Literal.length? text.toList = some text.toList.length → EndsName cs →
      (∀ c ∈ cs.head?, Literal.goesOn text.toList c = false) → Renders cs ts →
      Renders (text.toList ++ cs) (.literal text span :: ts)
  | lifetime {cs ts} (w : Word) (span span' : Span) : EndsName cs → Renders cs ts →
      Renders ('\'' :: (w.text.toList ++ cs)) (.punct '\'' .joint span :: .ident w.text span' :: ts)
  | mark {cs ts} {c : Char} (spacing : Spacing) (span : Span) : c ≠ '\'' →
      startsMark (c :: cs) = true →
      (runsInto c ts = true → spacing = .joint ∧ startsMark cs = true) → Renders cs ts →
      Renders (c :: cs) (.punct c spacing span :: ts)
  | group {cs ts text inner} (d : Delimiter) (span : Span) : Renders text inner → Renders cs ts →
      Renders (d.opening :: (text ++ d.closing :: cs)) (.group d inner span :: ts)

variable {ts us : List Token} {cs rest : List Char} {c : Char}

theorem startsMark_append_of_halts (h : startsMark cs = true) (hrest : Halts rest) :
    startsMark (cs ++ rest) = true := by
  cases cs with
  | nil => cases h
  | cons c cs =>
    rw [startsMark, hrest.startsWith (by decide), hrest.startsWith (by decide)]
    exact h

/-- What starts with a mark starts no comment. -/
theorem startsWith_of_startsMark (h : startsMark cs = true) : startsWith "/*" cs = false := by
  rw [startsMark, Bool.and_eq_true, Bool.and_eq_true, Bool.not_eq_true', Bool.not_eq_true'] at h
  exact h.1.2

/-- Behind its parenthesis the mark of an unreadable literal starts a comment. -/
theorem startsWith_errorMark_of_not (h : startsWith "/*" cs = false) (c : Char) :
    startsWith errorMark (c :: cs) = false := by
  by_contra hmark
  rw [Bool.not_eq_false] at hmark
  obtain ⟨more, heq⟩ := List.isPrefixOf_iff_prefix.mp hmark
  obtain ⟨-, rfl⟩ := List.cons.inj heq
  cases h

/-- What is said of the first characters of literals can be decided along a list. -/
theorem exists_cons_of_literal (h : Literal.length? cs = some cs.length) :
    ∃ c more, cs = c :: more ∧ c ∈ Literal.heads := by
  cases cs with
  | nil => cases h
  | cons c cs => exact ⟨c, cs, rfl, Literal.head_mem_of_length? h⟩

namespace Renders

/-- No comment starts where tokens are shown, and no byte order mark. -/
theorem head (h : Renders cs ts) (hrest : Halts rest) :
    startsWith "/*" (cs ++ rest) = false ∧ ∀ c ∈ cs.head?, c.toNat ≠ 0xFEFF := by
  have hstarts : ∀ {c : Char} {cs : List Char}, c ≠ '/' → startsWith "/*" (c :: cs) = false :=
    startsWith_cons_of_ne rfl
  cases h with
  | nil =>
    refine ⟨?_, nofun⟩
    cases rest with
    | nil => rfl
    | cons c rest => exact hstarts (hrest.head_ne (by decide))
  | blank _ => exact ⟨rfl, fun c hc => by cases hc; decide⟩
  | word w _ _ _ =>
    obtain ⟨d, more, heq, hsolid, hmark⟩ := w.head
    rw [heq]
    exact ⟨hstarts hsolid.slash, fun c hc => by cases hc; exact hmark⟩
  | literal text _ hlength _ _ _ =>
    obtain ⟨d, more, heq, hd⟩ := exists_cons_of_literal hlength
    have hheads : ∀ d ∈ Literal.heads, d ≠ '/' ∧ d.toNat ≠ 0xFEFF := by decide
    rw [heq]
    exact ⟨hstarts (hheads d hd).1, fun c hc => by cases hc; exact (hheads d hd).2⟩
  | lifetime _ _ _ _ _ => exact ⟨rfl, fun c hc => by cases hc; decide⟩
  | @mark cs ts c _ _ _ hmark _ _ =>
    refine ⟨startsWith_of_startsMark (startsMark_append_of_halts hmark hrest), fun d hd => ?_⟩
    cases hd
    have hmarks : ∀ d ∈ "~!@#$%^&*-=+|;:,<.>/?'".toList, d.toNat ≠ 0xFEFF := by decide
    exact hmarks c (List.contains_iff_mem.mp (isMark_of_startsMark hmark))
  | group d _ _ _ => cases d <;> exact ⟨rfl, fun c hc => by cases hc; decide⟩

end Renders

/-! ## Reading them -/

theorem readFrom_mark_of_startsMark (hmark : startsMark (c :: cs) = true) (hquote : c ≠ '\'')
    (groups : List OpenGroup) (done : List Token) (p : Position) :
    readFrom groups done p (c :: cs) =
      readFrom groups (.punct c (if startsMark cs then .joint else .alone) ⟨p, p.next c⟩ :: done)
        (p.next c) cs := by
  have hmarks : ∀ c ∈ "~!@#$%^&*-=+|;:,<.>/?'".toList, Comment.isBlankMark c = false ∧
      Delimiter.opened? c = none ∧ Delimiter.closed? c = none := by decide
  obtain ⟨hblank, hopened, hclosed⟩ :=
    hmarks c (List.contains_iff_mem.mp (isMark_of_startsMark hmark))
  exact readFrom_token hblank (.inl hopened) hclosed (leaf?_mark hmark hquote p)

theorem readFrom_literal (hlength : Literal.length? cs = some cs.length) (hrest : EndsName rest)
    (hmore : ∀ c ∈ rest.head?, Literal.goesOn cs c = false) (groups : List OpenGroup)
    (done : List Token) (p : Position) :
    readFrom groups done p (cs ++ rest) =
      readFrom groups (.literal (.ofList cs) ⟨p, p.advance cs⟩ :: done) (p.advance cs) rest := by
  have hleaf : leaf? p (cs ++ rest) =
      some (.literal (.ofList cs) ⟨p, p.advance cs⟩, cs.length) := by
    rw [leaf?, Literal.length?_ahead hlength hrest hmore]
    simp only [leaf?.covering, List.take_left]
  obtain ⟨c, more, rfl, hc⟩ := exists_cons_of_literal hlength
  have hheads : ∀ c ∈ Literal.heads, (c ≠ '/' ∧ Comment.isBlankMark c = false) ∧
      Delimiter.opened? c = none ∧ Delimiter.closed? c = none := by decide
  obtain ⟨⟨hslash, hblank⟩, hopened, hclosed⟩ := hheads c hc
  exact readFrom_leaf ⟨hslash, hblank⟩ hopened hclosed hleaf

/-- In front of what closes a group or ends the text, `cs` is read as the tokens `ts` with other
blanks between them. -/
theorem Renders.readFrom (h : Renders cs ts) (hrest : Halts rest) (groups : List OpenGroup)
    (done : List Token) (p : Position) : ∃ us q, Respaced ts us ∧
      Token.readFrom groups done p (cs ++ rest) =
        Token.readFrom groups (us.reverse ++ done) q rest := by
  have hcons : ∀ (t : Token) (us done : List Token),
      us.reverse ++ t :: done = (t :: us).reverse ++ done := fun t us done => by
    rw [List.reverse_cons, List.append_assoc, List.singleton_append]
  -- All that stands before is left open: every form moves on, and a group starts anew inside.
  induction h generalizing rest groups done p with
  | nil => exact ⟨[], p, .nil, rfl⟩
  | blank _ ih =>
    obtain ⟨us, q, hus, hread⟩ := ih hrest groups done (p.next ' ')
    exact ⟨us, q, hus, readFrom_blank.trans hread⟩
  | word w span hends _ ih =>
    have hword := w.readFrom_eq (hends.append hrest.ends.name) groups done p
    obtain ⟨us, q, hus, hread⟩ := ih hrest groups _ _
    rw [hcons] at hread
    rw [List.append_assoc]
    exact ⟨_, q, .ident w.text span _ hus, hword.trans hread⟩
  | @literal cs ts text span hlength hends hmore _ ih =>
    have hgoes : ∀ c ∈ (cs ++ rest).head?, Literal.goesOn text.toList c = false := by
      cases cs with
      | nil => exact Literal.goesOn_of_ends hrest.ends _
      | cons c cs => exact hmore
    have hliteral := readFrom_literal hlength (hends.append hrest.ends.name) hgoes groups done p
    rw [String.ofList_toList] at hliteral
    obtain ⟨us, q, hus, hread⟩ := ih hrest groups _ _
    rw [hcons] at hread
    rw [List.append_assoc]
    exact ⟨_, q, .literal text span _ hus, hliteral.trans hread⟩
  | lifetime w span span' hends _ ih =>
    have hlifetime := w.readFrom_lifetime (hends.append hrest.ends.name) groups done p
    obtain ⟨us, q, hus, hread⟩ := ih hrest groups _ _
    rw [hcons, hcons] at hread
    rw [List.cons_append, List.append_assoc]
    exact ⟨_, q, .punct '\'' span _ (fun _ => rfl) (.ident w.text span' _ hus),
      hlifetime.trans hread⟩
  | @mark cs ts c spacing span hquote hmark hruns _ ih =>
    have hpunct := readFrom_mark_of_startsMark (startsMark_append_of_halts hmark hrest) hquote
      groups done p
    obtain ⟨us, q, hus, hread⟩ := ih hrest groups _ _
    rw [hcons] at hread
    refine ⟨_, q, .punct c span _ (fun hruns' => ?_) hus, hpunct.trans hread⟩
    obtain ⟨rfl, hstarts⟩ := hruns hruns'
    exact if_pos (startsMark_append_of_halts hstarts hrest)
  | @group cs ts text inner d span hinner _ ihinner ih =>
    have hclosing : Halts (d.closing :: (cs ++ rest)) := Halts.cons (by cases d <;> decide) _
    have hopening := startsWith_errorMark_of_not (hinner.head hclosing).1 d.opening
    obtain ⟨us, q, hus, hread⟩ := ihinner hclosing (⟨d, done, p⟩ :: groups) [] (p.next d.opening)
    obtain ⟨vs, q', hvs, hread'⟩ := ih hrest groups
      (.group d us ⟨p, q.next d.closing⟩ :: done) (q.next d.closing)
    refine ⟨.group d us ⟨p, q.next d.closing⟩ :: vs, q', .group d span _ hus hvs, ?_⟩
    rw [← hcons, ← hread', List.cons_append, List.append_assoc, List.cons_append,
      readFrom_opens hopening, hread, List.append_nil, readFrom_closing, List.reverse_reverse]

/-- A text that renders tokens is read as them, with other blanks between them. -/
theorem Renders.read (h : Renders cs ts) : ∃ us, Token.read cs = .ok us ∧ Respaced ts us := by
  obtain ⟨us, q, hus, hread⟩ := h.readFrom Halts.nil [] [] .start
  rw [List.append_nil, List.append_nil, readFrom_nil, List.reverse_reverse] at hread
  refine ⟨us, ?_, hus⟩
  obtain ⟨-, hmark⟩ := h.head Halts.nil
  cases cs with
  | nil =>
    rw [readFrom_nil] at hread
    exact hread
  | cons c cs =>
    -- A byte order mark would be passed over.
    rw [Token.read, if_neg (hmark c rfl)]
    exact hread

/-! ## Spellings -/

theorem startsMark_slash (h : ∀ d ∈ cs.head?, d ≠ '/' ∧ d ≠ '*') :
    startsMark ('/' :: cs) = true := by
  cases cs with
  | nil => rfl
  | cons d cs =>
    obtain ⟨hslash, hstar⟩ := h d rfl
    simp [startsMark, startsWith, List.isPrefixOf_cons_cons, Ne.symm hslash, Ne.symm hstar, isMark]

theorem joins_cases {d : Char} (h : joins c d = true) : c ≠ ',' ∧ c ≠ ';' ∧ d ≠ '\'' ∧ d ≠ '-' := by
  obtain ⟨s, hs, hmem⟩ := List.any_eq_true.mp h
  have hall : ∀ s ∈ compounds, ∀ p ∈ s.toList.zip s.toList.tail,
      p.1 ≠ ',' ∧ p.1 ≠ ';' ∧ p.2 ≠ '\'' ∧ p.2 ≠ '-' := by decide
  exact hall s hs (c, d) (List.contains_iff_mem.mp hmem)

theorem exists_mark_of_runsInto (hquote : c ≠ '\'') (h : runsInto c ts = true) :
    ∃ d ∈ nextMark? ts, joins c d = true := by
  rcases ts with _ | ⟨_ | ⟨d, spacing, span⟩ | _ | _, ts⟩
  case cons.punct => exact ⟨d, rfl, by simpa [runsInto, hquote] using h⟩
  all_goals simp [runsInto, hquote] at h

theorem isMark_of_goesOn (h : Literal.goesOn cs c = true) : isMark c = true ∧ c ≠ '\'' := by
  rw [Literal.goesOn, Bool.and_eq_true, Bool.or_eq_true, Bool.and_eq_true, Bool.or_eq_true,
    decide_eq_true_iff, decide_eq_true_iff, decide_eq_true_iff] at h
  rcases h with ⟨-, rfl | ⟨rfl | rfl, -⟩⟩ <;> decide

/-- The text `cs` renders the tokens `ts`, and what it starts with is known from them. Behind a word
nothing goes on into it. -/
structure Laid (afterWord : Bool) (cs : List Char) (ts : List Token) : Prop where
  renders : Renders cs ts
  ends : afterWord = true → nextMark? ts ≠ some '#' → EndsName cs
  starts : ∀ c ∈ cs.head?, isMark c = true → c ≠ '\'' → nextMark? ts = some c
  marks : ∀ c ∈ nextMark? ts, c ≠ '\'' → c ≠ '-' → startsMark cs = true

namespace Laid

/-- What starts as a word or a literal does is set off from a word before it. -/
theorem word {piece : List Char} (h : Renders (piece ++ cs) ts)
    (hpiece : ∃ d more, piece = d :: more ∧ (isMark d = true → d = '\''))
    (hnext : ∀ c ∈ nextMark? ts, c = '\'') (afterWord : Bool) :
    Laid afterWord (gap afterWord ++ (piece ++ cs)) ts := by
  have hmarks : ∀ c ∈ nextMark? ts, c ≠ '\'' → c ≠ '-' →
      startsMark (gap afterWord ++ (piece ++ cs)) = true :=
    fun c hc hquote => absurd (hnext c hc) hquote
  cases afterWord with
  | true =>
    refine ⟨h.blank, fun _ _ => (ends_gap _).name, fun c hc hmark => ?_, hmarks⟩
    cases hc
    cases hmark
  | false =>
    obtain ⟨d, more, rfl, hd⟩ := hpiece
    refine ⟨h, nofun, fun c hc hmark hquote => ?_, hmarks⟩
    cases hc
    exact absurd (hd hmark) hquote

/-- A mark is put next to a word before it. -/
theorem mark (h : Renders cs ts) (hquote : c ≠ '\'') (hstarts : startsMark (c :: cs) = true)
    {spacing : Spacing} (hruns : runsInto c ts = true → spacing = .joint ∧ startsMark cs = true)
    (span : Span) (afterWord : Bool) : Laid afterWord (c :: cs) (.punct c spacing span :: ts) := by
  refine ⟨.mark spacing span hquote hstarts hruns h, fun _ hhash d hd => ?_, fun d hd _ _ => hd,
    fun _ _ _ _ => hstarts⟩
  cases hd
  have hmarks : ∀ c ∈ "~!@#$%^&*-=+|;:,<.>/?'".toList,
      c ≠ '\'' → c ≠ '#' → c ∈ nameEndMarks := by decide
  exact hmarks c (List.contains_iff_mem.mp (isMark_of_startsMark hstarts)) hquote
    fun hc => hhash (congrArg some hc)

end Laid

/-- The spelling renders the tokens, behind a word and elsewhere, at the end of a group and not. -/
def IsLaid (ts : List Token) : Prop :=
  ∀ afterWord trim, Laid afterWord (spaced trim (compactAll afterWord ts)) ts

namespace IsLaid

theorem nil : IsLaid [] := by
  intro afterWord trim
  have hnil : spaced trim (compactAll afterWord []) = [] := by cases trim <;> rfl
  rw [hnil]
  exact ⟨.nil, fun _ _ => .nil, (by rintro _ ⟨⟩), (by rintro _ ⟨⟩)⟩

theorem word (h : IsLaid ts) (w : Word) (span : Span) (hnext : nextMark? ts ≠ some '#') :
    IsLaid (.ident w.text span :: ts) := by
  intro afterWord trim
  obtain ⟨hminus, hblank⟩ := w.wordText.mem
  obtain ⟨d, more, heq, hd⟩ := w.wordText.head
  have htext : spaced trim (compactAll afterWord (.ident w.text span :: ts)) =
      gap afterWord ++ (w.text.toList ++ spaced trim (compactAll true ts)) :=
    spaced_word trim afterWord (heq ▸ List.cons_ne_nil d more) hminus hblank _
  rw [htext]
  have hbehind := h true trim
  refine Laid.word (.word w span (hbehind.ends rfl hnext) hbehind.renders)
    ⟨d, more, heq, fun hmark => ?_⟩ (by rintro _ ⟨⟩) afterWord
  rw [isMark_of_isIdentStart hd] at hmark
  cases hmark

theorem literal (h : IsLaid ts) (text : String) (span : Span)
    (hkeeps : keepsLiteral text.toList = true)
    (hnext : ∀ c ∈ nextMark? ts, c ≠ '#' ∧ Literal.goesOn text.toList c = false) :
    IsLaid (.literal text span :: ts) := by
  intro afterWord trim
  rw [keepsLiteral, Bool.and_eq_true, Bool.and_eq_true, decide_eq_true_iff, decide_eq_true_iff,
    decide_eq_true_iff] at hkeeps
  obtain ⟨⟨hlength, harrows⟩, hdash⟩ := hkeeps
  obtain ⟨d, more, heq, hd⟩ := exists_cons_of_literal hlength
  have htext : spaced trim (compactAll afterWord (.literal text span :: ts)) =
      gap afterWord ++ (text.toList ++ spaced trim (compactAll true ts)) :=
    spaced_piece trim afterWord (heq ▸ List.cons_ne_nil d more) harrows hdash
      (Literal.getLast?_ne_blank hlength) _
  rw [htext]
  have hbehind := h true trim
  refine Laid.word (.literal text span hlength ?_ ?_ hbehind.renders) ⟨d, more, heq, ?_⟩
    (by rintro _ ⟨⟩) afterWord
  · exact hbehind.ends rfl fun hhash => (hnext '#' hhash).1 rfl
  · intro c hc
    by_contra hgoes
    rw [Bool.not_eq_false] at hgoes
    obtain ⟨hmark, hquote⟩ := isMark_of_goesOn hgoes
    have hbefore := (hnext c (hbehind.starts c hc hmark hquote)).2
    rw [hgoes] at hbefore
    cases hbefore
  · have hheads : ∀ d ∈ Literal.heads, isMark d = true → d = '\'' := by decide
    exact hheads d hd

theorem lifetime (h : IsLaid ts) (w : Word) (span span' : Span) (hnext : nextMark? ts ≠ some '#') :
    IsLaid (.punct '\'' .joint span :: .ident w.text span' :: ts) := by
  intro afterWord trim
  obtain ⟨hminus, hblank⟩ := w.wordText.mem
  have hcompact : compactAll afterWord (.punct '\'' .joint span :: .ident w.text span' :: ts) =
      gap afterWord ++ ('\'' :: w.text.toList) ++ compactAll true ts := by
    cases afterWord <;> simp [compactAll, compact, isWord, gap]
  have htext : spaced trim (compactAll afterWord
      (.punct '\'' .joint span :: .ident w.text span' :: ts)) =
      gap afterWord ++ ('\'' :: w.text.toList ++ spaced trim (compactAll true ts)) := by
    rw [hcompact]
    exact spaced_word trim afterWord (List.cons_ne_nil _ _) (by simpa using hminus)
      (by simpa using hblank) _
  rw [htext]
  have hbehind := h true trim
  exact Laid.word (.lifetime w span span' (hbehind.ends rfl hnext) hbehind.renders)
    ⟨'\'', _, rfl, fun _ => rfl⟩ (fun c hc => by cases hc; rfl) afterWord

/-- An arrow has blanks on both sides. -/
theorem arrow (h : IsLaid ts) (spacing : Spacing) (span span' : Span)
    (hruns : runsInto '>' ts = false) :
    IsLaid (.punct '-' .joint span :: .punct '>' spacing span' :: ts) := by
  intro afterWord trim
  show Laid afterWord (spaced trim ('-' :: '>' :: compactAll false ts)) _
  rw [spaced_arrow]
  have hgreater : Renders ('>' :: ' ' :: spaced trim (compactAll false ts))
      (.punct '>' spacing span' :: ts) :=
    .mark spacing span' (by decide) rfl (fun h => by rw [hruns] at h; cases h)
      (h false trim).renders.blank
  refine ⟨.blank (.mark .joint span (by decide) rfl (fun _ => ⟨rfl, rfl⟩) hgreater), ?_, ?_, ?_⟩
  · exact fun _ _ => (Ends.cons (by decide) _).name
  · intro c hc hmark
    cases hc
    cases hmark
  · intro c hc _ hdash
    cases hc
    exact absurd rfl hdash

/-- A comma and a semicolon have a blank behind them, which is left out at the end of a group. -/
theorem separator (h : IsLaid ts) (hc : c = ',' ∨ c = ';') (spacing : Spacing) (span : Span) :
    IsLaid (.punct c spacing span :: ts) := by
  intro afterWord trim
  obtain ⟨hblank, hquote, hdash, hslash⟩ : c ≠ ' ' ∧ c ≠ '\'' ∧ c ≠ '-' ∧ c ≠ '/' := by
    rcases hc with rfl | rfl <;> decide
  have hmark : isMark c = true := by rcases hc with rfl | rfl <;> rfl
  have hcompact : compactAll afterWord (.punct c spacing span :: ts) =
      c :: ' ' :: compactAll false ts := by
    rcases hc with rfl | rfl <;> rfl
  have hrenders : Renders (spaced trim (' ' :: compactAll false ts)) ts := by
    rcases spaced_blank_eq trim (compactAll false ts) with heq | heq <;> rw [heq]
    · exact (h false trim).renders
    · exact (h false trim).renders.blank
  rw [hcompact, spaced_mark trim hblank fun hc => absurd hc hdash]
  refine Laid.mark hrenders hquote (startsMark_of_isMark hmark hslash _) (fun hruns => ?_) span
    afterWord
  -- No operator starts with either.
  obtain ⟨d, -, hjoins⟩ := exists_mark_of_runsInto hquote hruns
  obtain ⟨hcomma, hsemicolon, -⟩ := joins_cases hjoins
  exact absurd hc (not_or_intro hcomma hsemicolon)

/-- Between two marks that make no arrow there is no blank. -/
theorem spaced_mark (h : IsLaid ts) (hmark : isMark c = true)
    (hdash : c = '-' → nextMark? ts ≠ some '>') (trim : Bool) :
    spaced trim (c :: compactAll false ts) = c :: spaced trim (compactAll false ts) := by
  have hmarks : ∀ c ∈ "~!@#$%^&*-=+|;:,<.>/?'".toList, c ≠ ' ' := by decide
  refine Token.spaced_mark trim (hmarks c (List.contains_iff_mem.mp hmark)) fun hc hgreater => ?_
  obtain ⟨tail, htail⟩ := List.head?_eq_some_iff.mp hgreater
  refine hdash hc ((h false trim).starts '>' ?_ (by decide) (by decide))
  have hspaced : spaced trim ('>' :: tail) = '>' :: spaced trim tail :=
    Token.spaced_mark trim (by decide) fun hc => absurd hc (by decide)
  rw [htail, hspaced]
  rfl

/-- No comment starts where a slash is spelled. -/
theorem startsMark_mark (h : IsLaid ts) (hmark : isMark c = true)
    (hslash : c = '/' → nextMark? ts ≠ some '/' ∧ nextMark? ts ≠ some '*') (trim : Bool) :
    startsMark (c :: spaced trim (compactAll false ts)) = true := by
  by_cases hc : c = '/'
  · subst hc
    refine startsMark_slash fun d hd => ⟨?_, ?_⟩
    · rintro rfl
      exact (hslash rfl).1 ((h false trim).starts '/' hd (by decide) (by decide))
    · rintro rfl
      exact (hslash rfl).2 ((h false trim).starts '*' hd (by decide) (by decide))
  · exact startsMark_of_isMark hmark hc _

theorem mark (h : IsLaid ts) (hmark : isMark c = true) (hquote : c ≠ '\'')
    (hslash : c = '/' → nextMark? ts ≠ some '/' ∧ nextMark? ts ≠ some '*')
    (hdash : c = '-' → nextMark? ts ≠ some '>') {spacing : Spacing}
    (hruns : runsInto c ts = true → spacing = .joint) (span : Span) :
    IsLaid (.punct c spacing span :: ts) := by
  by_cases hcomma : c = ','
  · exact h.separator (.inl hcomma) spacing span
  by_cases hsemicolon : c = ';'
  · exact h.separator (.inr hsemicolon) spacing span
  intro afterWord trim
  have hcompact : compactAll afterWord (.punct c spacing span :: ts) =
      c :: compactAll false ts := by
    simp [compactAll, compact, isWord, hcomma, hsemicolon, hquote]
  rw [hcompact, h.spaced_mark hmark hdash trim]
  refine Laid.mark (h false trim).renders hquote (h.startsMark_mark hmark hslash trim)
    (fun hruns' => ⟨hruns hruns', ?_⟩) span afterWord
  -- The operator goes on with the next mark, and that is what the spelling goes on with.
  obtain ⟨d, hd, hjoins⟩ := exists_mark_of_runsInto hquote hruns'
  obtain ⟨-, -, hquote', hdash'⟩ := joins_cases hjoins
  exact (h false trim).marks d hd hquote' hdash'

theorem group {inner : List Token} (h : IsLaid ts) (hinner : IsLaid inner) (d : Delimiter)
    (span : Span) : IsLaid (.group d inner span :: ts) := by
  intro afterWord trim
  show Laid afterWord (spaced trim (gap (afterWord && d = .brace) ++
    d.opening :: dropFinalSpace (compactAll false inner) ++ [d.closing] ++ compactAll false ts)) _
  rw [spaced_group]
  have hgroup := Renders.group d span (hinner false true).renders (h false trim).renders
  cases (afterWord && d = .brace) with
  | true =>
    refine ⟨hgroup.blank, fun _ _ => (ends_gap _).name, fun c hc hmark => ?_, by rintro _ ⟨⟩⟩
    cases hc
    cases hmark
  | false =>
    refine ⟨hgroup, fun _ _ => (Ends.cons (by cases d <;> decide) _).name, fun c hc hmark => ?_,
      by rintro _ ⟨⟩⟩
    cases hc
    cases d <;> cases hmark

end IsLaid

/-- The spelling of tokens that stay apart renders them. -/
theorem StaysApart.isLaid (h : StaysApart ts) : IsLaid ts := by
  induction h with
  | nil => exact .nil
  | ident name span hreads hnext _ ih => exact ih.word ⟨name, hreads⟩ span hnext
  | literal text span hkeeps hnext _ ih => exact ih.literal text span hkeeps hnext
  | lifetime name span span' hreads hnext _ ih => exact ih.lifetime ⟨name, hreads⟩ span span' hnext
  | arrow spacing span span' hruns _ ih => exact ih.arrow spacing span span' hruns
  | mark c spacing span hmark hquote hslash hdash hruns _ ih =>
    exact ih.mark hmark hquote hslash hdash hruns span
  | group d span _ _ ihinner ih => exact ih.group ihinner d span

/-- **Tokens that stay apart are read again from their spelling**, with other blanks between
them. -/
theorem StaysApart.read_spelling (h : StaysApart ts) :
    ∃ us, read (spelling ts).toList = .ok us ∧ Respaced ts us := by
  rw [spelling, String.toList_ofList]
  exact (h.isLaid false false).renders.read

end Graft.Token

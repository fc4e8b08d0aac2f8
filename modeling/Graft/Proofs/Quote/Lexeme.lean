import Mathlib.Data.List.Infix
import Mathlib.Data.List.TakeWhile
import Graft.Proofs.Quote.Scan

/-!
# The lexical rules of host files

What a comment, a character literal, a string and a quote are, said of the characters alone. The
lengths that a scan computes at the head of a text are the lengths of these forms.
-/

namespace Graft.Scan

variable {cs rest text : List Char}

/-! ## Comments -/

theorem startsWith_iff {s : String} : startsWith s cs ↔ s.toList <+: cs := by
  rw [startsWith, List.isPrefixOf_iff_prefix]

/-- A block comment opens at the head of a text. -/
def BlockOpens (marks : CommentSyntax) (cs : List Char) : Prop :=
  ∃ opening closing, marks.block = some (opening, closing) ∧ opening.toList <+: cs

/-- A comment to the end of the line starts at the head of a text: the mark, its last character any
number of times more, and behind that no operator symbol. -/
def LineCommentStarts (mark : String) (cs : List Char) : Prop :=
  ∃ final n after, mark.toList.getLast? = some final ∧
    cs = mark.toList ++ List.replicate n final ++ after ∧
    ∀ c ∈ after.head?, c ≠ final ∧ isOperatorSymbol c = false

/-- A comment of either kind starts at the head of a text. -/
def CommentStarts (marks : CommentSyntax) (cs : List Char) : Prop :=
  BlockOpens marks cs ∨ LineCommentStarts marks.line cs

theorem blockOpens_iff {marks : CommentSyntax} :
    BlockOpens marks cs ↔ marks.block.any fun (opening, _) => startsWith opening cs := by
  unfold BlockOpens
  cases marks.block with
  | none => simp
  | some block => simp [Prod.ext_iff, startsWith_iff]

theorem dropWhile_replicate_append (final : Char) (n : Nat) {after : List Char}
    (hafter : ∀ c ∈ after.head?, c ≠ final) :
    (List.replicate n final ++ after).dropWhile (· = final) = after := by
  rw [List.dropWhile_append_of_pos (by simp +contextual [List.mem_replicate])]
  cases after with
  | nil => rfl
  | cons c after =>
    have hc := hafter c rfl
    rw [List.dropWhile_cons_of_neg (by simpa using hc)]

/-- A text is a run of one character and what that does not go on with. -/
theorem exists_replicate_append (final : Char) (cs : List Char) :
    ∃ n after, cs = List.replicate n final ++ after ∧ ∀ c ∈ after.head?, c ≠ final := by
  have hrun : cs.takeWhile (· = final) =
      List.replicate (cs.takeWhile (· = final)).length final := by
    rw [List.eq_replicate_iff]
    refine ⟨rfl, fun c hc => ?_⟩
    simpa using List.mem_takeWhile_imp hc
  refine ⟨(cs.takeWhile (· = final)).length, cs.dropWhile (· = final), ?_, ?_⟩
  · rw [← hrun, List.takeWhile_append_dropWhile]
  · intro c hc
    have hstop := List.head?_dropWhile_not (· = final) cs
    rw [Option.mem_def.mp hc] at hstop
    simpa using hstop

theorem startsLineComment_iff {mark : String} :
    startsLineComment mark cs ↔ LineCommentStarts mark cs := by
  unfold startsLineComment LineCommentStarts
  cases hfinal : mark.toList.getLast? with
  | none =>
    have hempty : mark.isEmpty := by
      rw [List.getLast?_eq_none_iff] at hfinal
      simpa [String.isEmpty_iff, String.toList_eq_nil_iff] using hfinal
    simp [hempty]
  | some final =>
    have hne : mark.isEmpty = false := by
      rw [Bool.eq_false_iff]
      intro hempty
      rw [String.isEmpty_iff.mp hempty] at hfinal
      cases hfinal
    simp only [hne, Bool.not_false, Bool.true_and, Bool.and_eq_true, startsWith_iff,
      Option.getD_some]
    -- Both sides look at what comes behind the mark and the run of its last character.
    constructor
    · rintro ⟨⟨behind, rfl⟩, h⟩
      obtain ⟨n, after, rfl, hafter⟩ := exists_replicate_append final behind
      rw [← String.length_toList, List.drop_left, dropWhile_replicate_append final n hafter] at h
      refine ⟨final, n, after, rfl, (List.append_assoc ..).symm, ?_⟩
      intro c hc
      cases after with
      | nil => cases hc
      | cons d after =>
        obtain rfl := Option.some.inj hc
        exact ⟨hafter d rfl, by simpa using h⟩
    · rintro ⟨final', n, after, hsome, rfl, hafter⟩
      obtain rfl := Option.some.inj hsome
      refine ⟨⟨_, (List.append_assoc ..).symm⟩, ?_⟩
      rw [← String.length_toList, List.append_assoc, List.drop_left,
        dropWhile_replicate_append final n fun c hc => (hafter c hc).1]
      cases after with
      | nil => rfl
      | cons c after => simp [(hafter c rfl).2]

/-! ## Character literals -/

/-- What stands between the marks of a character literal: one character of the line, or an escape
that starts with one and holds no mark behind it. -/
inductive CharLiteralBody : List Char → Prop where
  | plain {c : Char} (hline : c ≠ '\n') (hescape : c ≠ '\\') : CharLiteralBody [c]
  | escape {c : Char} {cs : List Char} (hline : c ≠ '\n') (hcs : ∀ d ∈ cs, d ≠ '\n' ∧ d ≠ '\'')
      (hlength : cs.length ≤ 8) : CharLiteralBody ('\\' :: c :: cs)

theorem findIdx?_eq_some_append {α : Type} {p : α → Bool} {xs : List α} {i : Nat}
    (h : xs.findIdx? p = some i) :
    ∃ before x after, xs = before ++ x :: after ∧ before.length = i ∧ p x ∧
      ∀ y ∈ before, p y = false := by
  induction xs generalizing i with
  | nil => cases h
  | cons y ys ih =>
    rw [List.findIdx?_cons] at h
    split at h
    next hy => exact ⟨[], y, ys, rfl, Option.some.inj h, hy, by simp⟩
    next hy =>
      obtain ⟨j, hj, rfl⟩ := Option.map_eq_some_iff.mp h
      obtain ⟨before, x, after, rfl, rfl, hx, hbefore⟩ := ih hj
      refine ⟨y :: before, x, after, rfl, rfl, hx, ?_⟩
      simpa [hy] using hbefore

theorem charLiteralLength?_eq_some {n : Nat} (h : charLiteralLength? cs = some n) :
    ∃ body, CharLiteralBody body ∧ body ++ ['\''] <+: cs ∧ n = body.length + 2 := by
  unfold charLiteralLength? at h
  split at h
  · cases h
  · cases h
  next cs =>
    simp only at h
    split at h
    next k hk =>
      split at h
      · cases h
      next hne =>
        obtain rfl := Option.some.inj h
        -- The escape is looked for in what is left of the line, in its first ten characters.
        have hinside : (cs.take 10).takeWhile (· ≠ '\n') <+: cs :=
          (List.takeWhile_prefix _).trans (List.take_prefix _ _)
        have hshort : ((cs.take 10).takeWhile (· ≠ '\n')).length ≤ 10 :=
          (List.takeWhile_prefix _).length_le.trans (List.length_take_le _ _)
        have hline : ∀ d ∈ (cs.take 10).takeWhile (· ≠ '\n'), d ≠ '\n' := by
          intro d hd
          simpa using List.mem_takeWhile_imp hd
        cases hc : (cs.take 10).takeWhile (· ≠ '\n') with
        | nil =>
          rw [hc] at hk
          cases hk
        | cons c inside =>
          rw [hc] at hk hinside hshort hline
          obtain ⟨before, d, after, hsplit, rfl, hd, hbefore⟩ := findIdx?_eq_some_append hk
          rw [List.tail_cons] at hsplit
          obtain rfl : d = '\'' := by simpa using hd
          subst hsplit
          refine ⟨'\\' :: c :: before, .escape (hline c List.mem_cons_self) ?_ ?_, ?_, rfl⟩
          · intro e he
            exact ⟨hline e (by simp [he]), by simpa using hbefore e he⟩
          · simp only [List.length_cons, List.length_append] at hshort
            omega
          · obtain ⟨rest, rfl⟩ := hinside
            exact ⟨after ++ rest, by simp⟩
    · cases h
  next c cs hline hescape =>
    obtain rfl := Option.some.inj h
    exact ⟨[c], .plain hline hescape, ⟨cs, rfl⟩, rfl⟩
  · cases h

theorem charLiteralLength?_of_body {body : List Char} (hbody : CharLiteralBody body) :
    charLiteralLength? (body ++ '\'' :: rest) = some (body.length + 2) := by
  cases hbody with
  | @plain c hline hescape =>
    rw [List.singleton_append, charLiteralLength?]
    · rfl
    · exact hline
    · exact hescape
  | @escape c cs hline hcs hlength =>
    -- Ten characters reach past the mark, which no end of line comes before.
    obtain ⟨rest', hinside⟩ : ∃ rest',
        ((c :: cs ++ '\'' :: rest).take 10).takeWhile (· ≠ '\n') = c :: cs ++ '\'' :: rest' := by
      refine ⟨(rest.take (8 - cs.length)).takeWhile (· ≠ '\n'), ?_⟩
      have htake : (c :: cs ++ '\'' :: rest).take 10 =
          (c :: cs ++ ['\'']) ++ rest.take (8 - cs.length) := by
        have hliteral : (c :: cs ++ ['\'']).length = cs.length + 2 := by
          simp only [List.length_append, List.length_cons, List.length_nil]
        have hfits : (c :: cs ++ ['\'']).length ≤ 10 := by omega
        have hreach : 10 - (c :: cs ++ ['\'']).length = 8 - cs.length := by omega
        rw [show c :: cs ++ '\'' :: rest = (c :: cs ++ ['\'']) ++ rest by simp, List.take_append,
          List.take_of_length_le hfits, hreach]
      have hstay : ∀ d ∈ c :: cs ++ ['\''], (decide (d ≠ '\n')) = true := by
        intro d hd
        rcases List.mem_append.mp hd with hd | hd
        · rcases List.mem_cons.mp hd with rfl | hd
          · simpa using hline
          · simpa using (hcs d hd).1
        · simp [List.mem_singleton.mp hd]
      rw [htake, List.takeWhile_append_of_pos hstay]
      simp
    have hmark : (cs ++ '\'' :: rest').findIdx? (· = '\'') = some cs.length := by
      have hnone : cs.findIdx? (· = '\'') = none := by
        rw [List.findIdx?_eq_none_iff]
        intro d hd
        simpa using (hcs d hd).2
      rw [List.findIdx?_append, hnone, List.findIdx?_cons]
      simp
    rw [List.cons_append, List.cons_append, charLiteralLength?]
    rw [← List.cons_append, hinside]
    simp [hmark]

/-! ## Strings -/

/-- A string behind its opening quote, and what follows it. A backslash takes the character behind
it along; the end of the line ends a string that nothing closes. -/
inductive StringTail : List Char → List Char → Prop where
  | closed (rest : List Char) : StringTail ['"'] rest
  | lineEnd (rest : List Char) : StringTail [] ('\n' :: rest)
  | textEnd : StringTail [] []
  | brokenEscape : StringTail ['\\'] []
  | escape (c : Char) {text rest : List Char} :
      StringTail text rest → StringTail ('\\' :: c :: text) rest
  | plain {c : Char} {text rest : List Char} (hquote : c ≠ '"') (hline : c ≠ '\n')
      (hescape : c ≠ '\\') : StringTail text rest → StringTail (c :: text) rest

theorem stringTailLength_of_tail (h : StringTail text rest) :
    stringTailLength (text ++ rest) = text.length := by
  induction h with
  | closed rest => simp [stringTailLength]
  | lineEnd rest => simp [stringTailLength]
  | textEnd => rfl
  | brokenEscape => simp [stringTailLength]
  | escape c _ ih => simp [stringTailLength, ih]
  | @plain c text rest hquote hline hescape _ ih =>
    rw [List.cons_append, stringTailLength, ih, List.length_cons]
    · exact hquote
    · exact hline
    · intro _ _ h _
      exact hescape h

theorem exists_stringTail (cs : List Char) :
    ∃ text rest, cs = text ++ rest ∧ StringTail text rest := by
  fun_induction stringTailLength cs with
  | case1 => exact ⟨[], [], rfl, .textEnd⟩
  | case2 rest => exact ⟨['"'], rest, rfl, .closed rest⟩
  | case3 rest => exact ⟨[], _, rfl, .lineEnd rest⟩
  | case4 c cs ih =>
    obtain ⟨text, rest, rfl, h⟩ := ih
    exact ⟨_, rest, rfl, .escape c h⟩
  | case5 c cs hquote hline hescape ih =>
    by_cases hc : c = '\\'
    · cases cs with
      | nil => exact ⟨['\\'], [], by rw [hc]; rfl, .brokenEscape⟩
      | cons d cs => exact absurd rfl (hescape d cs hc)
    · obtain ⟨text, rest, rfl, h⟩ := ih
      exact ⟨c :: text, rest, rfl, .plain hquote hline hc h⟩

/-! ## Quotes -/

def IsLetter (c : Char) : Prop := ('A' ≤ c ∧ c ≤ 'Z') ∨ ('a' ≤ c ∧ c ≤ 'z')

def IsDigit (c : Char) : Prop := '0' ≤ c ∧ c ≤ '9'

/-- The names that quoters may have. -/
def IsQuoterName : List Char → Prop
  | [] => False
  | c :: cs => (IsLetter c ∨ c = '_') ∧ ∀ d ∈ cs, IsLetter d ∨ IsDigit d ∨ d = '_' ∨ d = '\''

theorem isAlpha_iff {c : Char} : c.isAlpha ↔ IsLetter c := by
  have hupper : c.isUpper ↔ 'A' ≤ c ∧ c ≤ 'Z' := decide_eq_true_iff
  have hlower : c.isLower ↔ 'a' ≤ c ∧ c ≤ 'z' :=
    Bool.and_eq_true_iff.trans (and_congr decide_eq_true_iff decide_eq_true_iff)
  exact Bool.or_eq_true_iff.trans (or_congr hupper hlower)

theorem isDigit_iff {c : Char} : c.isDigit ↔ IsDigit c :=
  Bool.and_eq_true_iff.trans (and_congr decide_eq_true_iff decide_eq_true_iff)

theorem isAscii_of_le {c d : Char} (hd : isAscii d) (h : c ≤ d) : isAscii c := by
  simp only [isAscii, decide_eq_true_eq] at hd ⊢
  exact lt_of_le_of_lt h hd

theorem IsLetter.isAscii {c : Char} (h : IsLetter c) : Graft.isAscii c := by
  rcases h with ⟨-, h⟩ | ⟨-, h⟩
  · exact isAscii_of_le (by decide) h
  · exact isAscii_of_le (by decide) h

theorem IsDigit.isAscii {c : Char} (h : IsDigit c) : Graft.isAscii c :=
  isAscii_of_le (by decide) h.2

theorem isQuoterStart_iff {c : Char} : isQuoterStart c ↔ IsLetter c ∨ c = '_' := by
  simp only [isQuoterStart, Bool.and_eq_true, Bool.or_eq_true, isAlpha_iff, decide_eq_true_eq]
  constructor
  · exact And.right
  · rintro (h | rfl)
    · exact ⟨h.isAscii, .inl h⟩
    · exact ⟨by decide, .inr rfl⟩

theorem isQuoterChar_iff {c : Char} :
    isQuoterChar c ↔ IsLetter c ∨ IsDigit c ∨ c = '_' ∨ c = '\'' := by
  simp only [isQuoterChar, Char.isAlphanum, Bool.and_eq_true, Bool.or_eq_true, isAlpha_iff,
    isDigit_iff, decide_eq_true_eq, or_assoc]
  constructor
  · exact And.right
  · rintro (h | h | rfl | rfl)
    · exact ⟨h.isAscii, .inl h⟩
    · exact ⟨h.isAscii, .inr (.inl h)⟩
    · exact ⟨by decide, by simp⟩
    · exact ⟨by decide, by simp⟩

theorem isQuoterName_cons {c : Char} {cs : List Char} :
    IsQuoterName (c :: cs) ↔ isQuoterStart c ∧ ∀ d ∈ cs, isQuoterChar d := by
  simp only [IsQuoterName, isQuoterStart_iff, isQuoterChar_iff]

/-- A name is read to its end. -/
theorem quoterName_of_name {name after : List Char} (hname : IsQuoterName name) :
    quoterName (name ++ '|' :: after) = name := by
  cases name with
  | nil => cases hname
  | cons c name =>
    obtain ⟨hstart, hchars⟩ := isQuoterName_cons.mp hname
    rw [List.cons_append, quoterName, if_pos hstart, List.takeWhile_append_of_pos hchars,
      List.takeWhile_cons_of_neg (by decide), List.append_nil]

/-- What is read as a name is one, unless nothing is. -/
theorem isQuoterName_quoterName (h : quoterName cs ≠ []) : IsQuoterName (quoterName cs) := by
  cases cs with
  | nil => cases h rfl
  | cons c cs =>
    rw [quoterName] at h ⊢
    split at h
    next hstart =>
      rw [if_pos hstart]
      exact isQuoterName_cons.mpr ⟨hstart, fun d hd => List.mem_takeWhile_imp hd⟩
    · cases h rfl

/-- The end of a quote is not within its body. -/
def NoEnd (body : List Char) : Prop := ¬ ['|', ']'] <:+: body

/-- A quote with a known quoter opens at the head of a text; `after` stands behind the bar. -/
def QuoteOpens (isQuoter : String → Bool) (quoter after cs : List Char) : Prop :=
  cs = '[' :: quoter ++ '|' :: after ∧ IsQuoterName quoter ∧ isQuoter (.ofList quoter)

theorem noEnd_cons {c : Char} : NoEnd (c :: cs) ↔ ¬ ['|', ']'] <+: c :: cs ∧ NoEnd cs := by
  rw [NoEnd, List.infix_cons_iff, not_or]
  rfl

theorem not_startsEnd {c : Char} (h : ∀ rest, c = '|' → cs = ']' :: rest → False) :
    ¬ ['|', ']'] <+: c :: cs := by
  rintro ⟨rest, hrest⟩
  obtain ⟨hc, hcs⟩ := List.cons.inj hrest
  exact h rest hc.symm hcs.symm

theorem beforeEnd?_eq_some_iff {body : List Char} :
    beforeEnd? cs = some body ↔ NoEnd body ∧ ∃ rest, cs = body ++ '|' :: ']' :: rest := by
  constructor
  · intro h
    refine ⟨?_, beforeEnd?_eq_some h⟩
    induction cs using beforeEnd?.induct generalizing body with
    | case1 rest =>
      rw [beforeEnd?] at h
      rw [← Option.some.inj h]
      exact fun hend => by simpa using hend.length_le
    | case2 c cs hne ih =>
      rw [beforeEnd?.eq_2 _ _ hne] at h
      obtain ⟨body, hbody, rfl⟩ := Option.map_eq_some_iff.mp h
      obtain ⟨rest, rfl⟩ := beforeEnd?_eq_some hbody
      refine noEnd_cons.mpr ⟨not_startsEnd ?_, ih hbody⟩
      rintro more hc rfl
      exact hne _ hc rfl
    | case3 => cases h
  · rintro ⟨hbody, rest, rfl⟩
    induction body with
    | nil => rfl
    | cons c body ih =>
      obtain ⟨hfirst, hbody⟩ := noEnd_cons.mp hbody
      rw [List.cons_append, beforeEnd?.eq_2, ih hbody, Option.map_some]
      rintro more rfl hmore
      -- The bracket is that of the body, as a bar stands behind it.
      cases body with
      | nil => cases hmore
      | cons d body =>
        obtain ⟨rfl, -⟩ := List.cons.inj hmore
        exact hfirst ⟨body, rfl⟩

theorem beforeEnd?_eq_none_iff : beforeEnd? cs = none ↔ NoEnd cs := by
  induction cs using beforeEnd?.induct with
  | case1 rest => simp [beforeEnd?, NoEnd, List.infix_cons_iff]
  | case2 c cs hne ih =>
    rw [beforeEnd?.eq_2 _ _ hne, Option.map_eq_none_iff, ih, noEnd_cons, and_iff_right]
    exact not_startsEnd fun rest hc hrest => hne rest hc hrest
  | case3 => simp [beforeEnd?, NoEnd]

/-- A known quoter and a bar behind a bracket open a quote, which ends or does not. -/
theorem quote?_of_opens {isQuoter : String → Bool} {quoter after : List Char}
    (h : QuoteOpens isQuoter quoter after ('[' :: cs)) :
    quote? isQuoter cs = some (match beforeEnd? after with
      | some body => .quote quoter body
      | none => .unterminated quoter) := by
  obtain ⟨hcs, hname, hknown⟩ := h
  obtain rfl : cs = quoter ++ '|' :: after := (List.cons.inj hcs).2
  have hne : quoter.isEmpty = false := by
    cases quoter with
    | nil => cases hname
    | cons c quoter => rfl
  simp only [quote?, quoterName_of_name hname, List.drop_left, hne, hknown, Bool.not_true,
    Bool.or_self, Bool.false_eq_true, if_false]
  cases beforeEnd? after <;> rfl

/-- Where no quote opens, none is read. -/
theorem quote?_eq_none {isQuoter : String → Bool}
    (h : ∀ quoter after, ¬ QuoteOpens isQuoter quoter after ('[' :: cs)) :
    quote? isQuoter cs = none := by
  have hname := quoterName_append_drop cs
  unfold quote?
  simp only
  split
  next after hafter =>
    rw [hafter] at hname
    split
    · rfl
    next hknown =>
      rw [Bool.or_eq_true, not_or, Bool.not_eq_true', Bool.not_eq_false] at hknown
      refine absurd ⟨by rw [List.cons_append, hname], isQuoterName_quoterName ?_, hknown.2⟩
        (h (quoterName cs) after)
      simpa using hknown.1
  · rfl

end Graft.Scan

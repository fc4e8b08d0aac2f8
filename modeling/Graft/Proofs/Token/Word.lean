import Mathlib.Data.List.TakeWhile
import Mathlib.Tactic.IntervalCases
import Graft.Proofs.Token.Span

/-!
# Names and numbers in front of other text

What a text is read as depends on what follows it: a name goes on into the letters behind it, a
number into a point. In front of the marks that part the pieces of a type nothing goes on, and a
name or a whole number is read there as it is read alone.
-/

namespace Graft

/-- What is said of the characters of a list is decided along the list, not for all characters. -/
instance (priority := 2000) decidableForallMem (cs : List Char) (P : Char → Prop)
    [DecidablePred P] : Decidable (∀ c ∈ cs, P c) :=
  List.decidableBAll P cs

instance (priority := 2000) decidableExistsMem (cs : List Char) (P : Char → Prop)
    [DecidablePred P] : Decidable (∃ c ∈ cs, P c) :=
  List.decidableBEx P cs

/-- The characters that end names and numbers. -/
def endMarks : List Char :=
  [' ', '\n', ',', ';', ':', '<', '>', '&', '*', '(', ')', '[', ']', '\x7b', '\x7d']

/-- The characters that end names. A number may go on into a point or a sign. -/
def nameEndMarks : List Char :=
  endMarks ++ ['~', '!', '@', '$', '%', '^', '-', '=', '+', '|', '.', '?', '/']

/-- Nothing goes on into the text `cs`. -/
def Ends (cs : List Char) : Prop := ∀ c ∈ cs.head?, c ∈ endMarks

/-- No name goes on into the text `cs`. -/
def EndsName (cs : List Char) : Prop := ∀ c ∈ cs.head?, c ∈ nameEndMarks

theorem Ends.nil : Ends [] := nofun

theorem Ends.cons {c : Char} (h : c ∈ endMarks) (cs : List Char) : Ends (c :: cs) := by
  intro d hd
  rw [← Option.some.inj hd]
  exact h

theorem Ends.append {cs rest : List Char} (h : Ends cs) (hrest : Ends rest) :
    Ends (cs ++ rest) := by
  cases cs with
  | nil => exact hrest
  | cons c cs => exact h

theorem Ends.name {rest : List Char} (h : Ends rest) : EndsName rest :=
  fun c hc => List.mem_append_left _ (h c hc)

theorem EndsName.nil : EndsName [] := nofun

theorem EndsName.append {cs rest : List Char} (h : EndsName cs) (hrest : EndsName rest) :
    EndsName (cs ++ rest) := by
  cases cs with
  | nil => exact hrest
  | cons c cs => exact h

theorem EndsName.any_head? {rest : List Char} (h : EndsName rest) {test : Char → Bool}
    (htest : ∀ c ∈ nameEndMarks, test c = false) : rest.head?.any test = false := by
  cases rest with
  | nil => rfl
  | cons c cs => exact htest c (h c rfl)

theorem EndsName.head_ne {c d : Char} {rest : List Char} (h : EndsName (d :: rest))
    (hc : c ∉ nameEndMarks) : d ≠ c := by
  rintro rfl
  exact hc (h d rfl)

theorem isIdentStart_ne {c d : Char} (h : isIdentStart c) (hd : isIdentStart d = false) :
    c ≠ d := by
  rintro rfl
  rw [h] at hd
  cases hd

theorem isIdentContinue_ne {c d : Char} (h : isIdentContinue c) (hd : isIdentContinue d = false) :
    c ≠ d := by
  rintro rfl
  rw [h] at hd
  cases hd

/-- What starts a text is the same with more behind it that does not go on with one of the marks
looked for. -/
theorem startsWith_append_of_head {s : String} {rest : List Char}
    (hs : ∀ c ∈ rest.head?, c ∉ s.toList) (cs : List Char) :
    startsWith s (cs ++ rest) = startsWith s cs := by
  unfold startsWith
  generalize s.toList = marks at hs
  induction cs generalizing marks with
  | nil =>
    cases marks with
    | nil => simp
    | cons m marks =>
      cases rest with
      | nil => rfl
      | cons c rest =>
        -- The text ends within the marks looked for, and goes on with none of them.
        have hne : m ≠ c := by
          rintro rfl
          exact hs m rfl List.mem_cons_self
        rw [List.nil_append, List.isPrefixOf_cons_cons, beq_false_of_ne hne]
        rfl
  | cons c cs ih =>
    cases marks with
    | nil => rfl
    | cons m marks =>
      have hmore := ih marks fun c hc hmem => hs c hc (List.mem_cons_of_mem _ hmem)
      rw [List.cons_append, List.isPrefixOf_cons_cons, List.isPrefixOf_cons_cons, hmore]

theorem startsWith_append {s : String} {cs rest : List Char} (hrest : EndsName rest)
    (hs : ∀ c ∈ s.toList, c ∉ nameEndMarks) : startsWith s (cs ++ rest) = startsWith s cs :=
  startsWith_append_of_head (fun c hc hmem => hs c hmem (hrest c hc)) cs

theorem startsWith_cons_of_ne {s : String} {c d : Char} {cs : List Char}
    (hs : s.toList.head? = some d) (hne : c ≠ d) : startsWith s (c :: cs) = false := by
  unfold startsWith
  obtain ⟨marks, hmarks⟩ := List.head?_eq_some_iff.mp hs
  rw [hmarks, List.isPrefixOf_cons_cons, beq_false_of_ne hne.symm]
  rfl

/-! ## Names -/

namespace Literal

theorem takeWhile_append {cs rest : List Char} (hrest : EndsName rest) :
    (cs ++ rest).takeWhile isIdentContinue = cs.takeWhile isIdentContinue := by
  induction cs with
  | nil =>
    cases rest with
    | nil => rfl
    | cons c rest =>
      have hc : isIdentContinue c = false :=
        (by decide : ∀ c ∈ nameEndMarks, isIdentContinue c = false) c (hrest c rfl)
      simp [hc]
  | cons c cs ih => simp only [List.cons_append, List.takeWhile_cons, ih]

theorem identLength?_append {cs rest : List Char} (hrest : EndsName rest) :
    identLength? (cs ++ rest) = identLength? cs := by
  cases cs with
  | nil =>
    cases rest with
    | nil => rfl
    | cons c rest =>
      have hc : isIdentStart c = false :=
        (by decide : ∀ c ∈ nameEndMarks, isIdentStart c = false) c (hrest c rfl)
      simp [identLength?, hc]
  | cons c cs => simp only [List.cons_append, identLength?, takeWhile_append hrest]

theorem identLength?_le {cs : List Char} {n : Nat} (h : identLength? cs = some n) :
    n ≤ cs.length := by
  cases cs with
  | nil => cases h
  | cons c cs =>
    rw [identLength?] at h
    split at h
    · rw [← Option.some.inj h, List.length_cons]
      have hle := (List.takeWhile_prefix isIdentContinue (l := cs)).length_le
      omega
    · cases h

theorem identLength?_eq_length {cs : List Char} (h : identLength? cs = some cs.length) :
    ∃ c rest, cs = c :: rest ∧ isIdentStart c = true ∧ ∀ d ∈ rest, isIdentContinue d = true := by
  cases cs with
  | nil => cases h
  | cons c cs =>
    rw [identLength?] at h
    split at h
    next hc =>
      have hlength : (cs.takeWhile isIdentContinue).length = cs.length := by
        have := Option.some.inj h
        rw [List.length_cons] at this
        omega
      have hall : cs.takeWhile isIdentContinue = cs :=
        (List.takeWhile_prefix _).eq_of_length hlength
      exact ⟨c, cs, rfl, hc, List.takeWhile_eq_self_iff.mp hall⟩
    next => cases h

/-- A text that does not start with a mark of quoted or raw literals. -/
def Unquoted (cs : List Char) : Prop := ∀ c ∈ cs.head?, c ≠ '"' ∧ c ≠ '#' ∧ c ≠ '\''

theorem Unquoted.of_ends {cs rest : List Char} (hcs : ∀ d ∈ cs, isIdentContinue d = true)
    (hrest : EndsName rest) : Unquoted (cs ++ rest) := by
  intro d hd
  cases cs with
  | nil =>
    cases rest with
    | nil => cases hd
    | cons e rest =>
      rw [← Option.some.inj hd]
      have hmarks : ∀ c ∈ nameEndMarks, c ≠ '"' ∧ c ≠ '#' ∧ c ≠ '\'' := by decide
      exact hmarks e (hrest e rfl)
  | cons e cs =>
    rw [← Option.some.inj hd]
    have he := hcs e List.mem_cons_self
    exact ⟨isIdentContinue_ne he (by decide), isIdentContinue_ne he (by decide),
      isIdentContinue_ne he (by decide)⟩

theorem rawLength?_of_unquoted (k : Content) {cs : List Char} (h : Unquoted cs) :
    rawLength? k cs = none := by
  cases cs with
  | nil => rfl
  | cons c cs =>
    obtain ⟨hquote, hhash, -⟩ := h c rfl
    simp [rawLength?, hquote, hhash]

theorem rawLength?_hash (k : Content) {cs : List Char} (h : Unquoted cs) :
    rawLength? k ('#' :: cs) = none := by
  cases cs with
  | nil => rfl
  | cons c cs =>
    obtain ⟨hquote, hhash, -⟩ := h c rfl
    simp [rawLength?, hquote, hhash]

/-- What starts as a name does, and has no quote behind its first letters, is no quoted literal. -/
theorem quoted_of_unquoted {c : Char} {cs : List Char} (hc : isIdentStart c = true)
    (hcs : Unquoted cs) (hraw : ∀ tail, cs = 'r' :: tail → Unquoted tail) :
    length?.quoted (c :: cs) = none := by
  have hafter : ∀ k tail, cs = 'r' :: tail → rawAfter? k (c :: cs) 2 = none := by
    rintro k tail rfl
    have htail : rawLength? k tail = none := rawLength?_of_unquoted k (hraw tail rfl)
    simp [rawAfter?, htail]
  -- A case for each opening of a quoted literal, in the order in which they are tried.
  unfold length?.quoted
  split
  next heq => exact absurd (List.cons.inj heq).1 (isIdentStart_ne hc (by decide))
  next => simp [rawAfter?, rawLength?_of_unquoted _ hcs]
  next heq => exact absurd rfl (hcs '"' (by rw [(List.cons.inj heq).2]; rfl)).1
  next heq => exact hafter _ _ (List.cons.inj heq).2
  next heq => exact absurd rfl (hcs '"' (by rw [(List.cons.inj heq).2]; rfl)).1
  next heq => exact hafter _ _ (List.cons.inj heq).2
  next heq => exact absurd rfl (hcs '\'' (by rw [(List.cons.inj heq).2]; rfl)).2.2
  next heq => exact absurd (List.cons.inj heq).1 (isIdentStart_ne hc (by decide))
  next => rfl

end Literal

def digits : List Char := ['0', '1', '2', '3', '4', '5', '6', '7', '8', '9']

-- What is said of all digits can be decided along this list.
theorem mem_digits {c : Char} (h : c.isDigit = true) : c ∈ digits := by
  have hbounds : 48 ≤ c.toNat ∧ c.toNat ≤ 57 := by
    simp only [Char.isDigit, Bool.and_eq_true, decide_eq_true_eq] at h
    exact h
  obtain ⟨hlow, hhigh⟩ := hbounds
  have hc : c = Char.ofNat c.toNat := (Char.ofNat_toNat c).symm
  generalize c.toNat = n at hc hlow hhigh
  subst hc
  interval_cases n <;> decide

theorem isDigit_of_isIdentStart {c : Char} (hc : isIdentStart c = true) : c.isDigit = false := by
  by_contra hdigit
  rw [Bool.not_eq_false] at hdigit
  have hdigits : ∀ d ∈ digits, isIdentStart d = false := by decide
  rw [hdigits c (mem_digits hdigit)] at hc
  cases hc

namespace Literal

theorem floatLength?_of_not_digit {c : Char} (hc : c.isDigit = false) (cs : List Char) :
    floatLength? (c :: cs) = none := by
  simp [floatLength?, hc]

theorem isDigit_of_hexDigitValue_lt {c : Char} (hhex : isHexDigit c = true)
    (hlt : hexDigitValue c < 10) : c.isDigit = true := by
  by_contra hdigit
  have hletter : ('a' ≤ c ∧ c ≤ 'f') ∨ ('A' ≤ c ∧ c ≤ 'F') := by
    simpa [isHexDigit, hdigit] using hhex
  have hvalue : 10 ≤ hexDigitValue c := by
    unfold hexDigitValue
    simp only [if_neg hdigit, Bool.and_eq_true, decide_eq_true_eq]
    by_cases hlower : 'a' ≤ c ∧ c ≤ 'f'
    · rw [if_pos hlower]
      omega
    · rw [if_neg hlower, if_pos (hletter.resolve_left hlower)]
      omega
  omega

theorem intLength?_of_not_digit {c : Char} (hc : c.isDigit = false) (cs : List Char) :
    intLength? (c :: cs) = none := by
  have hzero : c ≠ '0' := by
    rintro rfl
    cases hc
  have hbase : baseMark (c :: cs) = (10, 0) := by
    unfold baseMark
    split
    next heq => exact absurd (List.cons.inj heq).1 hzero
    next heq => exact absurd (List.cons.inj heq).1 hzero
    next heq => exact absurd (List.cons.inj heq).1 hzero
    next => rfl
  have hlarge : (isHexDigit c && hexDigitValue c < 10) = false := by
    by_contra hsmall
    rw [Bool.not_eq_false, Bool.and_eq_true, decide_eq_true_eq] at hsmall
    rw [isDigit_of_hexDigitValue_lt hsmall.1 hsmall.2] at hc
    cases hc
  have hdigits : digitsLength? 10 false (c :: cs) = none := by
    rw [digitsLength?, hc, hlarge]
    simp
  simp [intLength?, hbase, hdigits]

/-- What is no quoted literal and starts with no digit is no literal. -/
theorem length?_of_unquoted {c : Char} {cs : List Char} (hc : c.isDigit = false)
    (hquoted : length?.quoted (c :: cs) = none) : length? (c :: cs) = none := by
  simp [length?, hquoted, floatLength?_of_not_digit hc, intLength?_of_not_digit hc]

end Literal

/-! ## Numbers -/

namespace Literal

variable {cs rest : List Char} {n : Nat}

theorem any_head?_append {test : Char → Bool} (htest : rest.head?.any test = false) :
    (cs ++ rest).head?.any test = cs.head?.any test := by
  cases cs with
  | nil => exact htest
  | cons c cs => rfl

theorem withSuffix_append (hrest : EndsName rest) (hn : n ≤ cs.length) :
    withSuffix (cs ++ rest) n = withSuffix cs n := by
  rw [withSuffix, withSuffix, List.drop_append_of_le_length hn, suffixLength, suffixLength,
    identLength?_append hrest]

theorem withSuffix_le (hn : n ≤ cs.length) : withSuffix cs n ≤ cs.length := by
  rw [withSuffix, suffixLength]
  cases h : identLength? (cs.drop n) with
  | none => simpa using hn
  | some m =>
    have hm := identLength?_le h
    rw [List.length_drop] at hm
    show n + m ≤ cs.length
    omega

theorem numberLength?_append (hrest : EndsName rest) (hn : n ≤ cs.length) :
    numberLength? (cs ++ rest) n = numberLength? cs n := by
  have hcontinue : ∀ c ∈ nameEndMarks, isIdentContinue c = false := by decide
  rw [numberLength?, numberLength?, withSuffix_append hrest hn,
    List.drop_append_of_le_length (withSuffix_le hn),
    any_head?_append (hrest.any_head? hcontinue)]

theorem mantissa?_append (hrest : EndsName rest) (hpoint : ∀ c ∈ rest.head?, c ≠ '.')
    (seen : Mantissa) : mantissa? seen (cs ++ rest) = mantissa? seen cs := by
  induction cs generalizing seen with
  | nil =>
    cases rest with
    | nil => rfl
    | cons c rest =>
      have hc : ∀ c ∈ nameEndMarks, c.isDigit = false ∧ c ≠ '_' ∧ c ≠ 'e' ∧ c ≠ 'E' := by decide
      obtain ⟨hdigit, hscore, hlower, hupper⟩ := hc c (hrest c rfl)
      simp [mantissa?, hdigit, hscore, hpoint c rfl, hlower, hupper]
  | cons c cs ih =>
    -- Behind a point one more character is looked at, which may be the first of `rest`.
    have hnext : rest.head?.any (fun d => d = '.' || isIdentStart d) = false := by
      cases rest with
      | nil => rfl
      | cons d rest =>
        have hstart : isIdentStart d = false :=
          (by decide : ∀ c ∈ nameEndMarks, isIdentStart c = false) d (hrest d rfl)
        simp [hpoint d rfl, hstart]
    simp only [List.cons_append, mantissa?, ih, any_head?_append hnext]

theorem mantissa?_le {seen m : Mantissa} (h : mantissa? seen cs = some m) :
    m.length ≤ seen.length + cs.length := by
  induction cs generalizing seen with
  | nil =>
    rw [← Option.some.inj h]
    rfl
  | cons c cs ih =>
    -- A digit and a point are counted and read on from; anything else ends the number.
    have hmore : ∀ {seen' : Mantissa}, seen'.length = seen.length + 1 →
        mantissa? seen' cs = some m → m.length ≤ seen.length + (c :: cs).length := by
      intro seen' hlength h
      have hle := ih h
      rw [List.length_cons]
      omega
    rw [mantissa?] at h
    split at h
    · exact hmore rfl h
    split at h
    · split at h
      · cases h
      · exact hmore rfl h
    split at h
    · rw [← Option.some.inj h]
      simp
    · rw [← Option.some.inj h]
      simp

theorem exponentLength?_append (hrest : EndsName rest)
    (hsign : ∀ c ∈ rest.head?, c ≠ '+' ∧ c ≠ '-') (sign digit : Bool) :
    exponentLength? sign digit (cs ++ rest) = exponentLength? sign digit cs := by
  induction cs generalizing sign digit with
  | nil =>
    cases rest with
    | nil => rfl
    | cons c rest =>
      have hc : ∀ c ∈ nameEndMarks, c.isDigit = false ∧ c ≠ '_' := by decide
      obtain ⟨hdigit, hscore⟩ := hc c (hrest c rfl)
      obtain ⟨hplus, hminus⟩ := hsign c rfl
      simp [exponentLength?, hplus, hminus, hdigit, hscore]
  | cons c cs ih => simp only [List.cons_append, exponentLength?, ih]

theorem le_succ_of_map {o : Option Nat} {k : Nat} (ho : ∀ m, o = some m → m ≤ k)
    (h : o.map (· + 1) = some n) : n ≤ k + 1 := by
  obtain ⟨m, hm, rfl⟩ := Option.map_eq_some_iff.mp h
  exact Nat.succ_le_succ (ho m hm)

theorem exponentLength?_le {sign digit : Bool} (h : exponentLength? sign digit cs = some n) :
    n ≤ cs.length := by
  induction cs generalizing sign digit n with
  | nil =>
    rw [exponentLength?] at h
    split at h
    · rw [← Option.some.inj h]
      rfl
    · cases h
  | cons c cs ih =>
    rw [exponentLength?] at h
    split at h
    · split at h
      · rw [← Option.some.inj h]
        exact Nat.zero_le _
      split at h
      · cases h
      · exact le_succ_of_map (fun m hm => ih hm) h
    split at h
    · exact le_succ_of_map (fun m hm => ih hm) h
    split at h
    · exact le_succ_of_map (fun m hm => ih hm) h
    split at h
    · rw [← Option.some.inj h]
      exact Nat.zero_le _
    · cases h

theorem digitsLength?_append (hrest : EndsName rest) (base : Nat) (any : Bool) :
    digitsLength? base any (cs ++ rest) = digitsLength? base any cs := by
  induction cs generalizing any with
  | nil =>
    cases rest with
    | nil => rfl
    | cons c rest =>
      have hc : ∀ c ∈ nameEndMarks, c.isDigit = false ∧ isHexDigit c = false ∧ c ≠ '_' := by decide
      obtain ⟨hdigit, hhex, hscore⟩ := hc c (hrest c rfl)
      simp [digitsLength?, hdigit, hhex, hscore]
  | cons c cs ih => simp only [List.cons_append, digitsLength?, ih]

theorem digitsLength?_le {base : Nat} {any : Bool} (h : digitsLength? base any cs = some n) :
    n ≤ cs.length := by
  induction cs generalizing any n with
  | nil =>
    rw [digitsLength?] at h
    split at h
    · rw [← Option.some.inj h]
      rfl
    · cases h
  | cons c cs ih =>
    rw [digitsLength?] at h
    split at h
    · split at h
      · exact le_succ_of_map (fun m hm => ih hm) h
      · cases h
    split at h
    · exact le_succ_of_map (fun m hm => ih hm) h
    split at h
    · exact le_succ_of_map (fun m hm => ih hm) h
    split at h
    · rw [← Option.some.inj h]
      exact Nat.zero_le _
    · cases h

theorem baseMark_cons_cons (c d : Char) (cs cs' : List Char) :
    baseMark (c :: d :: cs) = baseMark (c :: d :: cs') := by
  by_cases hzero : c = '0'
  · subst hzero
    by_cases hx : d = 'x'
    · subst hx
      rfl
    by_cases ho : d = 'o'
    · subst ho
      rfl
    by_cases hb : d = 'b'
    · subst hb
      rfl
    simp [baseMark, hx, ho, hb]
  · simp [baseMark, hzero]

theorem baseMark_append (hrest : EndsName rest) : baseMark (cs ++ rest) = baseMark cs := by
  have hstop : ∀ c ∈ nameEndMarks, c ≠ '0' ∧ c ≠ 'x' ∧ c ≠ 'o' ∧ c ≠ 'b' := by decide
  match cs with
  | [] =>
    cases rest with
    | nil => rfl
    | cons c rest => simp [baseMark, (hstop c (hrest c rfl)).1]
  | [c] =>
    cases rest with
    | nil => rfl
    | cons d rest =>
      obtain ⟨-, hx, ho, hb⟩ := hstop d (hrest d rfl)
      simp [baseMark, hx, ho, hb]
  | c :: d :: cs => exact baseMark_cons_cons c d _ _

theorem baseMark_le (cs : List Char) : (baseMark cs).2 ≤ cs.length := by
  unfold baseMark
  split <;> simp

/-- Whether the mark of an exponent stands behind the digits of a number. -/
def hasExponent (cs : List Char) : Bool := (mantissa? ⟨1, false, false⟩ cs.tail).any (·.exponent)

/-- Whether `cs` is a number that may go on into the mark `c`. -/
def goesOn (cs : List Char) (c : Char) : Bool :=
  cs.head?.any Char.isDigit && (c = '.' || ((c = '+' || c = '-') && hasExponent cs))

theorem goesOn_of_ends (hrest : Ends rest) (cs : List Char) :
    ∀ c ∈ rest.head?, goesOn cs c = false := by
  intro c hc
  have hmarks : ∀ c ∈ endMarks, c ≠ '.' ∧ c ≠ '+' ∧ c ≠ '-' := by decide
  obtain ⟨hpoint, hplus, hminus⟩ := hmarks c (hrest c hc)
  simp [goesOn, hpoint, hplus, hminus]

theorem floatLength?_append_of_digit {c : Char} (hc : c.isDigit = true) (hrest : EndsName rest)
    (hmore : ∀ d ∈ rest.head?, goesOn (c :: cs) d = false) :
    floatLength? (c :: cs ++ rest) = floatLength? (c :: cs) := by
  have hpoint : ∀ d ∈ rest.head?, d ≠ '.' := by
    rintro d hd rfl
    simpa [goesOn, hc] using hmore '.' hd
  simp only [floatLength?, List.cons_append, List.head?_cons, List.tail_cons, Option.bind_eq_bind,
    Option.bind_some, mantissa?_append hrest hpoint]
  split
  · rfl
  refine Option.bind_congr fun m hm => ?_
  have hle : m.length ≤ (c :: cs).length := by
    have := mantissa?_le hm
    simp only [List.length_cons] at this ⊢
    omega
  have hdrop : (c :: cs ++ rest).drop m.length = (c :: cs).drop m.length ++ rest :=
    List.drop_append_of_le_length hle
  -- However the number ends, it ends within `cs`.
  have hnumber : ∀ {k}, k ≤ (c :: cs).length →
      numberLength? ((c :: cs) ++ rest) k = numberLength? (c :: cs) k := fun hk =>
    numberLength?_append hrest hk
  rw [← List.cons_append, hdrop, List.cons_append]
  split
  · rfl
  split
  · exact hnumber hle
  next hexponent =>
    have hsign : ∀ d ∈ rest.head?, d ≠ '+' ∧ d ≠ '-' := by
      intro d hd
      have hgoes := hmore d hd
      have hexp : hasExponent (c :: cs) = true := by
        rw [hasExponent, List.tail_cons, hm]
        simpa using hexponent
      constructor <;> rintro rfl <;> simp [goesOn, hc, hexp] at hgoes
    rw [exponentLength?_append hrest hsign]
    split
    next n hn =>
      refine hnumber ?_
      have := exponentLength?_le hn
      rw [List.length_drop] at this
      omega
    next => rw [← List.cons_append, hnumber (by omega)]

theorem floatLength?_append (hrest : Ends rest) (hcs : cs ≠ []) :
    floatLength? (cs ++ rest) = floatLength? cs := by
  obtain ⟨c, cs, rfl⟩ := List.exists_cons_of_ne_nil hcs
  cases hc : c.isDigit with
  | true => exact floatLength?_append_of_digit hc hrest.name (goesOn_of_ends hrest _)
  | false => rw [List.cons_append, floatLength?_of_not_digit hc, floatLength?_of_not_digit hc]

theorem intLength?_append (hrest : EndsName rest) : intLength? (cs ++ rest) = intLength? cs := by
  have hmark := baseMark_le cs
  simp only [intLength?, baseMark_append hrest, Option.bind_eq_bind,
    List.drop_append_of_le_length hmark, digitsLength?_append hrest]
  refine Option.bind_congr fun n hn => numberLength?_append hrest ?_
  have := digitsLength?_le hn
  rw [List.length_drop] at this
  omega

theorem length?_append_of_digit {c : Char} (hc : c.isDigit = true) (hrest : EndsName rest)
    (hmore : ∀ d ∈ rest.head?, goesOn (c :: cs) d = false) :
    length? (c :: cs ++ rest) = length? (c :: cs) := by
  have hquoted : ∀ cs, length?.quoted (c :: cs) = none := by
    intro cs
    have hmem := mem_digits hc
    simp only [digits, List.mem_cons, List.not_mem_nil, or_false] at hmem
    rcases hmem with rfl | rfl | rfl | rfl | rfl | rfl | rfl | rfl | rfl | rfl <;> rfl
  rw [length?, length?, floatLength?_append_of_digit hc hrest hmore,
    intLength?_append hrest, hquoted cs, List.cons_append, hquoted]

end Literal

namespace Token

/-! ## Words -/

/-- An identifier, or the raw form of one that has a raw form. -/
inductive WordText : List Char → Prop where
  | plain {c : Char} {cs : List Char} : isIdentStart c = true →
      (∀ d ∈ cs, isIdentContinue d = true) → WordText (c :: cs)
  | raw {c : Char} {cs : List Char} : isIdentStart c = true →
      (∀ d ∈ cs, isIdentContinue d = true) → isUnrawable (c :: cs) = false →
      WordText ('r' :: '#' :: c :: cs)

variable {cs rest : List Char}

theorem wordText_of_nameLength? {n : Nat} (h : nameLength? cs = some n) (hn : cs.length ≤ n) :
    WordText cs := by
  unfold nameLength? at h
  split at h
  next hraw =>
    obtain ⟨name, rfl⟩ := List.isPrefixOf_iff_prefix.mp hraw
    obtain ⟨m, hm, h⟩ := Option.bind_eq_some_iff.mp h
    split at h
    · cases h
    next hfree =>
      -- Behind `r#` the name is all of the text.
      have hlength : m = name.length := by
        have hle := Literal.identLength?_le hm
        have := Option.some.inj h
        simp at this hn hle
        omega
      subst hlength
      obtain ⟨c, more, rfl, hc, hmore⟩ := Literal.identLength?_eq_length hm
      refine .raw hc hmore ?_
      simpa using hfree
  next =>
    obtain rfl : n = cs.length := Nat.le_antisymm (Literal.identLength?_le h) hn
    obtain ⟨c, more, rfl, hc, hmore⟩ := Literal.identLength?_eq_length h
    exact .plain hc hmore

theorem WordText.head (h : WordText cs) :
    ∃ c more, cs = c :: more ∧ isIdentStart c = true := by
  cases h with
  | plain hc _ => exact ⟨_, _, rfl, hc⟩
  | raw _ _ _ => exact ⟨_, _, rfl, by decide⟩

theorem WordText.length?_append (h : WordText cs) (hrest : EndsName rest) :
    Literal.length? (cs ++ rest) = none := by
  cases h with
  | @plain c cs hc hcs =>
    refine Literal.length?_of_unquoted (isDigit_of_isIdentStart hc)
      (Literal.quoted_of_unquoted hc (.of_ends hcs hrest) fun tail htail => ?_)
    -- No text that ends a name goes on with an `r`.
    cases cs with
    | nil => exact absurd rfl ((htail ▸ hrest : EndsName ('r' :: tail)).head_ne (by decide))
    | cons d cs =>
      rw [← (List.cons.inj htail).2]
      exact .of_ends (fun e he => hcs e (List.mem_cons_of_mem _ he)) hrest
  | @raw c cs hc hcs _ =>
    -- The `r` opens a raw literal only if a quote stands behind the `#`.
    have hunquoted : Literal.Unquoted (c :: (cs ++ rest)) := by
      intro d hd
      rw [← Option.some.inj hd]
      exact ⟨isIdentStart_ne hc (by decide), isIdentStart_ne hc (by decide),
        isIdentStart_ne hc (by decide)⟩
    refine Literal.length?_of_unquoted (by decide) ?_
    show Literal.rawAfter? .text ('r' :: '#' :: c :: (cs ++ rest)) 1 = none
    simp [Literal.rawAfter?, Literal.rawLength?_hash _ hunquoted]

theorem startsWith_of_not_continue {s : String} {c : Char} {cs : List Char}
    (hcs : ∀ d ∈ cs, isIdentContinue d = true)
    (hs : ∃ d ∈ s.toList.tail, isIdentContinue d = false) : startsWith s (c :: cs) = false := by
  obtain ⟨d, hd, hfalse⟩ := hs
  by_contra hstarts
  rw [Bool.not_eq_false] at hstarts
  obtain ⟨more, hmore⟩ := List.isPrefixOf_iff_prefix.mp hstarts
  have hmem : d ∈ cs := by
    cases hmarks : s.toList with
    | nil => simp [hmarks] at hd
    | cons m marks =>
      rw [hmarks] at hd hmore
      rw [← (List.cons.inj hmore).2]
      exact List.mem_append_left _ hd
  rw [hcs d hmem] at hfalse
  cases hfalse

theorem WordText.opensLiteral_append (h : WordText cs) (hrest : EndsName rest) :
    opensLiteral (cs ++ rest) = false := by
  refine List.any_eq_false.mpr fun s hs => ?_
  have hmarks : ∀ s ∈ ["r\"", "r#\"", "r##", "b\"", "b'", "br\"", "br#", "c\"", "cr\"", "cr#"],
      (∀ c ∈ s.toList, c ∉ nameEndMarks) ∧ ∃ d ∈ s.toList.tail, isIdentContinue d = false := by decide
  rw [startsWith_append hrest (hmarks s hs).1, Bool.not_eq_true]
  cases h with
  | plain hc hcs => exact startsWith_of_not_continue hcs (hmarks s hs).2
  | @raw c cs hc hcs _ =>
    have hquote : '"' ≠ c := (isIdentStart_ne hc (by decide)).symm
    have hhash : '#' ≠ c := (isIdentStart_ne hc (by decide)).symm
    have hraw : ∀ s ∈ ["r\"", "r#\"", "r##", "b\"", "b'", "br\"", "br#", "c\"", "cr\"", "cr#"],
        startsWith s ('r' :: '#' :: c :: cs) = false := by
      simp [startsWith, List.isPrefixOf_cons_cons, hquote, hhash]
    exact hraw s hs

theorem isMark_of_isIdentStart {c : Char} (hc : isIdentStart c = true) : isMark c = false := by
  by_contra hmark
  rw [Bool.not_eq_false, isMark, List.contains_iff_mem] at hmark
  have hmarks : ∀ d ∈ "~!@#$%^&*-=+|;:,<.>/?'".toList, isIdentStart d = false := by decide
  rw [hmarks c hmark] at hc
  cases hc

theorem WordText.startsMark_append (h : WordText cs) (rest : List Char) :
    startsMark (cs ++ rest) = false := by
  obtain ⟨c, more, rfl, hc⟩ := h.head
  simp [startsMark, isMark_of_isIdentStart hc]

theorem WordText.nameLength?_append (h : WordText cs) (hrest : EndsName rest) :
    nameLength? (cs ++ rest) = some cs.length := by
  have hident : ∀ {c : Char} {cs : List Char}, isIdentStart c = true →
      (∀ d ∈ cs, isIdentContinue d = true) →
      Literal.identLength? (c :: cs ++ rest) = some (c :: cs).length := by
    intro c cs hc hcs
    rw [Literal.identLength?_append hrest, Literal.identLength?, if_pos hc,
      List.takeWhile_eq_self_iff.mpr hcs, List.length_cons, Nat.add_comm]
  cases h with
  | @plain c cs hc hcs =>
    have hraw : startsWith "r#" (c :: cs ++ rest) = false := by
      rw [startsWith_append hrest (by decide)]
      exact startsWith_of_not_continue hcs ⟨'#', by decide, by decide⟩
    rw [nameLength?, hraw]
    exact hident hc hcs
  | @raw c cs hc hcs hfree =>
    have hlength := hident hc hcs
    have htake : ((c :: cs) ++ rest).take (c :: cs).length = c :: cs := List.take_left
    show ((Literal.identLength? (c :: cs ++ rest)).bind fun n =>
      if isUnrawable ((c :: cs ++ rest).take n) then none else some (n + 2)) = _
    rw [hlength, Option.bind_some, htake, hfree]
    rfl

/-- A name in front of what ends it is read as that name. -/
theorem WordText.leaf?_append (h : WordText cs) (hrest : EndsName rest) (p : Position) :
    leaf? p (cs ++ rest) = some (.ident (.ofList cs) ⟨p, p.advance cs⟩, cs.length) := by
  simp [leaf?, h.length?_append hrest, h.startsMark_append, h.opensLiteral_append hrest,
    h.nameLength?_append hrest, leaf?.covering]

/-! ## Numbers -/

/-- A number that is written with letters and digits alone. -/
structure NumberText (cs : List Char) : Prop where
  starts : ∃ c more, cs = c :: more ∧ c.isDigit = true
  continues : ∀ d ∈ cs, isIdentContinue d = true
  whole : Literal.length? cs = some cs.length

/-- A number in front of what ends it is read as that number. -/
theorem NumberText.leaf?_append (h : NumberText cs) (hrest : Ends rest) (p : Position) :
    leaf? p (cs ++ rest) = some (.literal (.ofList cs) ⟨p, p.advance cs⟩, cs.length) := by
  obtain ⟨c, more, rfl, hc⟩ := h.starts
  have hlength : Literal.length? (c :: more ++ rest) = some (c :: more).length := by
    rw [Literal.length?_append_of_digit hc hrest.name (Literal.goesOn_of_ends hrest _)]
    exact h.whole
  have htake : ((c :: more) ++ rest).take (c :: more).length = c :: more := List.take_left
  rw [leaf?, hlength]
  simp only [leaf?.covering, htake]

/-! ## Marks -/

theorem isDigit_of_isMark {c : Char} (hc : isMark c = true) : c.isDigit = false := by
  by_contra hdigit
  rw [Bool.not_eq_false] at hdigit
  have hdigits : ∀ d ∈ digits, isMark d = false := by decide
  rw [hdigits c (mem_digits hdigit)] at hc
  cases hc

theorem isMark_of_startsMark {c : Char} {cs : List Char} (h : startsMark (c :: cs) = true) :
    isMark c = true := by
  rw [startsMark, Bool.and_eq_true] at h
  exact h.2

theorem startsMark_of_isMark {c : Char} (hc : isMark c = true) (hslash : c ≠ '/')
    (cs : List Char) : startsMark (c :: cs) = true := by
  simp [startsMark, startsWith_cons_of_ne (s := "//") rfl hslash,
    startsWith_cons_of_ne (s := "/*") rfl hslash, hc]

/-- No mark but a quote starts a literal. -/
theorem length?_of_isMark {c : Char} (hc : isMark c = true) (hquote : c ≠ '\'') (cs : List Char) :
    Literal.length? (c :: cs) = none := by
  have hne : ∀ d, isMark d = false → c ≠ d := by
    rintro _ hd rfl
    rw [hd] at hc
    cases hc
  refine Literal.length?_of_unquoted (isDigit_of_isMark hc) ?_
  have := hne '"' (by decide)
  have := hne 'r' (by decide)
  have := hne 'b' (by decide)
  have := hne 'c' (by decide)
  unfold Literal.length?.quoted
  split <;> simp_all

/-- A mark that starts neither a comment nor a lifetime is read as itself. -/
theorem leaf?_mark {c : Char} {cs : List Char} (hmark : startsMark (c :: cs) = true)
    (hquote : c ≠ '\'') (p : Position) :
    leaf? p (c :: cs) =
      some (.punct c (if startsMark cs then .joint else .alone) ⟨p, p.next c⟩, 1) := by
  have hlength := length?_of_isMark (isMark_of_startsMark hmark) hquote cs
  rw [leaf?, hlength]
  simp only [hmark, startsWith_cons_of_ne (s := "'") rfl hquote]
  rfl

theorem leaf?_of_mark {c : Char} (hc : isMark c = true) (hslash : c ≠ '/') (hquote : c ≠ '\'')
    (p : Position) (cs : List Char) :
    leaf? p (c :: cs) =
      some (.punct c (if startsMark cs then .joint else .alone) ⟨p, p.next c⟩, 1) :=
  leaf?_mark (startsMark_of_isMark hc hslash cs) hquote p

theorem WordText.singleLength?_append (h : WordText cs) (hrest : EndsName rest) (k : Literal.Content) :
    Literal.singleLength? k (cs ++ rest) = none := by
  -- No quote stands behind the first character of a name.
  have hnone : ∀ {c : Char} {cs : List Char}, c ≠ '\\' → cs.head? ≠ some '\'' →
      Literal.singleLength? k (c :: cs) = none := by
    intro c cs hc hcs
    unfold Literal.singleLength?
    split
    next heq => exact absurd (List.cons.inj heq).1 hc
    next heq => exact absurd (by rw [(List.cons.inj heq).2]; rfl) hcs
    next => rfl
  cases h with
  | plain hc hcs =>
    refine hnone (isIdentStart_ne hc (by decide)) fun hquote => ?_
    exact (Literal.Unquoted.of_ends hcs hrest _ hquote).2.2 rfl
  | raw hc hcs _ => exact hnone (by decide) (by simp)

/-- The quote of a lifetime is read as a mark that the name runs on from. -/
theorem WordText.leaf?_quote (h : WordText cs) (hrest : EndsName rest) (p : Position) :
    leaf? p ('\'' :: (cs ++ rest)) = some (.punct '\'' .joint ⟨p, p.next '\''⟩, 1) := by
  have hlength : Literal.length? ('\'' :: (cs ++ rest)) = none := by
    refine Literal.length?_of_unquoted (by decide) ?_
    show Literal.singleAfter? .text ('\'' :: (cs ++ rest)) 1 = none
    simp [Literal.singleAfter?, h.singleLength?_append hrest]
  have hname := h.nameLength?_append hrest
  -- A quote behind the name would make it a character, and `#` a raw lifetime.
  have hnone : ∀ {s : String}, s.toList ≠ [] → (∀ c ∈ s.toList, c ∉ nameEndMarks) →
      startsWith s rest = false := by
    intro s hs hmarks
    have hsame : startsWith s ([] ++ rest) = startsWith s [] := startsWith_append hrest hmarks
    rw [List.nil_append] at hsame
    rw [hsame, startsWith]
    cases hmarks : s.toList with
    | nil => exact absurd hmarks hs
    | cons m marks => rfl
  have hquote : startsWith "'" rest = false := hnone (by decide) (by decide)
  have hhash : startsWith "#" rest = false := hnone (by decide) (by decide)
  have hlifetime : startsLifetime ('\'' :: (cs ++ rest)) = true := by
    simp [startsLifetime, hname, hquote, hhash]
  have hmark : startsMark ('\'' :: (cs ++ rest)) = true := rfl
  have hstarts : startsWith "'" ('\'' :: (cs ++ rest)) = true := rfl
  rw [leaf?, hlength]
  simp only [hmark, hstarts, hlifetime]
  rfl

end Token

end Graft

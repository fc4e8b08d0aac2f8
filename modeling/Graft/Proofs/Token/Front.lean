import Graft.Proofs.Token.Step

/-!
# Tokens in front of a parenthesis

In front of blanks and closing parentheses every token is read as it is read at the end of a text.
No form of a token goes on into them, and none that has no end of its own finds one there. The end of
a line and a semicolon break off as much, but for a literal that goes on behind them.
-/

namespace Graft

/-- The characters that no name and no number goes on with, and no mark that a literal opens with. -/
def haltMarks : List Char := [' ', '\n', ';', ')', ']', '\x7d']

/-- A text that starts with a character that breaks off what stands before it, or an empty one. -/
def Halts (rest : List Char) : Prop := ∀ c ∈ rest.head?, c ∈ haltMarks

/-- A text that starts with a blank, the end of a line or a closing parenthesis, or an empty one. -/
def Breaks (rest : List Char) : Prop := ∀ c ∈ rest.head?, c = ' ' ∨ c = ')' ∨ c = '\n'

/-- A text of blanks and closing parentheses. -/
def Parting (rest : List Char) : Prop := ∀ c ∈ rest, c = ' ' ∨ c = ')'

variable {cs rest rest' : List Char} {n : Nat}

theorem Halts.nil : Halts [] := nofun

theorem Halts.cons {c : Char} (h : c ∈ haltMarks) (cs : List Char) : Halts (c :: cs) := by
  intro d hd
  rw [← Option.some.inj hd]
  exact h

theorem Halts.ends (h : Halts rest) : Ends rest := fun c hc =>
  (by decide : ∀ c ∈ haltMarks, c ∈ endMarks) c (h c hc)

theorem Halts.head_ne {c d : Char} (h : Halts (c :: rest)) (hd : d ∉ haltMarks) : c ≠ d := by
  rintro rfl
  exact hd (h c rfl)

theorem Halts.startsWith (h : Halts rest) {s : String} (hs : ∀ d ∈ s.toList, d ∉ haltMarks)
    (cs : List Char) : startsWith s (cs ++ rest) = startsWith s cs :=
  startsWith_append_of_head (fun c hc hmem => hs c hmem (h c hc)) cs

theorem Breaks.blank (rest : List Char) : Breaks (' ' :: rest) :=
  fun _ hc => .inl (Option.some.inj hc).symm

theorem Breaks.closing (rest : List Char) : Breaks (')' :: rest) :=
  fun _ hc => .inr (.inl (Option.some.inj hc).symm)

theorem Breaks.lineEnd (rest : List Char) : Breaks ('\n' :: rest) :=
  fun _ hc => .inr (.inr (Option.some.inj hc).symm)

theorem Breaks.halts (h : Breaks rest) : Halts rest := by
  intro c hc
  rcases h c hc with rfl | rfl | rfl <;> decide

theorem Breaks.ends (h : Breaks rest) : Ends rest := h.halts.ends

theorem Parting.nil : Parting [] := nofun

theorem Parting.tail {c : Char} (h : Parting (c :: rest)) : Parting rest :=
  fun d hd => h d (List.mem_cons_of_mem _ hd)

theorem Parting.drop (h : Parting rest) (n : Nat) : Parting (rest.drop n) :=
  fun c hc => h c (List.mem_of_mem_drop hc)

theorem Parting.breaks (h : Parting rest) : Breaks rest :=
  fun c hc => (h c (List.mem_of_mem_head? hc)).imp_right .inl

theorem Parting.ends (h : Parting rest) : Ends rest := h.breaks.ends

theorem Parting.head_ne {c d : Char} (h : Parting (c :: rest)) (hd : d ≠ ' ' ∧ d ≠ ')') :
    c ≠ d := by
  rintro rfl
  exact (h c List.mem_cons_self).elim hd.1 hd.2

theorem Parting.not_mem {d : Char} (h : Parting rest) (hd : d ≠ ' ' ∧ d ≠ ')') : d ∉ rest :=
  fun hmem => (h d hmem).elim hd.1 hd.2

/-- A text that does not start with certain marks starts with none that go on in `rest`. -/
theorem append_ne (marks : List Char) (hmarks : ∀ d ∈ marks, d ∉ rest)
    (hcs : ∀ more, cs = marks ++ more → False) : ∀ more, cs ++ rest = marks ++ more → False := by
  intro more heq
  -- Either the marks run over into `rest`, or they stand in `cs` as a whole.
  rcases List.append_eq_append_iff.mp heq with ⟨behind, rfl, rfl⟩ | ⟨behind, rfl, -⟩
  · cases behind with
    | nil => exact hcs [] (by simp)
    | cons d behind => exact hmarks d (by simp) List.mem_cons_self
  · exact hcs behind rfl

theorem Parting.append_ne (h : Parting rest) (marks : List Char)
    (hmarks : ∀ d ∈ marks, d ≠ ' ' ∧ d ≠ ')') (hcs : ∀ more, cs = marks ++ more → False) :
    ∀ more, cs ++ rest = marks ++ more → False :=
  Graft.append_ne marks (fun d hd => h.not_mem (hmarks d hd)) hcs

namespace Literal

variable {k : Content}

/-! ## Escapes -/

theorem scalarDigits?_append (hrest : Parting rest) (count value : Nat) :
    scalarDigits? count value (cs ++ rest) = scalarDigits? count value cs := by
  induction cs generalizing count value with
  | nil =>
    cases rest with
    | nil => rfl
    | cons c rest =>
      rcases hrest c List.mem_cons_self with rfl | rfl <;> simp [scalarDigits?, isHexDigit]
  | cons c cs ih => simp only [List.cons_append, scalarDigits?, ih]

theorem scalarDigits?_le {count value : Nat} {found : Nat × Nat}
    (h : scalarDigits? count value cs = some found) : found.1 ≤ cs.length := by
  induction cs generalizing count value found with
  | nil => cases h
  | cons c cs ih =>
    have hmap : ∀ {count value : Nat},
        (scalarDigits? count value cs).map (fun r => (r.1 + 1, r.2)) = some found →
        found.1 ≤ cs.length + 1 := by
      intro count value h
      obtain ⟨m, hm, rfl⟩ := Option.map_eq_some_iff.mp h
      exact Nat.succ_le_succ (ih hm)
    rw [scalarDigits?] at h
    split at h
    · exact hmap h
    split at h
    · rw [← Option.some.inj h]
      exact Nat.le_add_left 1 _
    split at h
    · exact hmap h
    · cases h

theorem escapeLength?_parting (hrest : Parting rest) : escapeLength? k rest = none := by
  cases rest with
  | nil => rfl
  | cons c rest => rcases hrest c List.mem_cons_self with rfl | rfl <;> simp [escapeLength?]

theorem escapeLength?_append (hrest : Parting rest) :
    escapeLength? k (cs ++ rest) = escapeLength? k cs := by
  cases cs with
  | nil => exact escapeLength?_parting hrest
  | cons c cs =>
    by_cases hx : c = 'x'
    · subst hx
      -- Two digits are looked for, neither of which is in `rest`.
      rcases cs with _ | ⟨d, _ | ⟨e, cs⟩⟩
      · rcases rest with _ | ⟨d, _ | ⟨e, rest⟩⟩
        · rfl
        · rfl
        rcases hrest d List.mem_cons_self with rfl | rfl <;> simp [escapeLength?, isHexDigit]
      · rcases rest with _ | ⟨e, rest⟩
        · rfl
        rcases hrest e List.mem_cons_self with rfl | rfl <;> simp [escapeLength?, isHexDigit]
      · rfl
    by_cases hu : c = 'u'
    · subst hu
      rcases cs with _ | ⟨d, cs⟩
      · rcases rest with _ | ⟨d, rest⟩
        · rfl
        rcases hrest d List.mem_cons_self with rfl | rfl <;> simp [escapeLength?]
      · by_cases hd : d = '\x7b'
        · subst hd
          simp only [List.cons_append, escapeLength?, scalarDigits?_append hrest]
        · simp [escapeLength?, hd]
    · simp [escapeLength?, hx, hu]

theorem escapeLength?_le (h : escapeLength? k cs = some n) : n ≤ cs.length := by
  unfold escapeLength? at h
  split at h
  · split at h
    · rw [← Option.some.inj h]
      simp
    · cases h
  · split at h
    · split at h
      next found hfound =>
        have hle := scalarDigits?_le hfound
        split at h
        · rw [← Option.some.inj h]
          simpa using hle
        · cases h
      · cases h
    · cases h
  · split at h
    · rw [← Option.some.inj h]
      simp
    · cases h
  · cases h

theorem continuationLength?_append (hrest : Parting rest) :
    continuationLength? (cs ++ rest) = continuationLength? cs ∨
      continuationLength? cs = none ∧
        ∀ n, continuationLength? (cs ++ rest) = some n → cs.length ≤ n := by
  fun_induction continuationLength? cs with
  | case1 cs ih =>
    rw [List.cons_append, List.cons_append, continuationLength?]
    rcases ih with ih | ⟨hnone, ih⟩
    · exact .inl (by rw [ih])
    · refine .inr ⟨by rw [hnone]; rfl, fun n hn => ?_⟩
      obtain ⟨m, hm, rfl⟩ := Option.map_eq_some_iff.mp hn
      exact Nat.add_le_add_right (ih m hm) 2
  | case2 cs hcs =>
    rw [List.cons_append, continuationLength?.eq_2 _ (hrest.append_ne ['\n'] (by decide) hcs)]
    exact .inl rfl
  | case3 c cs hreturn hc hblank ih =>
    rw [List.cons_append, continuationLength?.eq_3 _ _ (fun _ heq _ => hc heq) hc, if_pos hblank]
    rcases ih with ih | ⟨hnone, ih⟩
    · exact .inl (by rw [ih])
    · refine .inr ⟨by rw [hnone]; rfl, fun n hn => ?_⟩
      obtain ⟨m, hm, rfl⟩ := Option.map_eq_some_iff.mp hn
      exact Nat.succ_le_succ (ih m hm)
  | case4 c cs _ hc hblank =>
    rw [List.cons_append, continuationLength?.eq_3 _ _ (fun _ heq _ => hc heq) hc, if_neg hblank]
    exact .inl rfl
  | case5 =>
    -- The blanks of `rest` are passed over as well, but no text goes on behind `cs` alone.
    exact .inr ⟨rfl, fun n _ => Nat.zero_le n⟩

theorem continuationLength?_le (h : continuationLength? cs = some n) : n ≤ cs.length := by
  fun_induction continuationLength? cs generalizing n with
  | case1 cs ih =>
    obtain ⟨m, hm, rfl⟩ := Option.map_eq_some_iff.mp h
    exact Nat.add_le_add_right (ih hm) 2
  | case2 => cases h
  | case3 c cs _ _ hc ih =>
    obtain ⟨m, hm, rfl⟩ := Option.map_eq_some_iff.mp h
    exact Nat.succ_le_succ (ih hm)
  | case4 c cs _ _ hc =>
    rw [← Option.some.inj h]
    exact Nat.zero_le _
  | case5 => cases h

theorem escapedLength?_append (hrest : Parting rest) (cs : List Char) :
    escapedLength? k (cs ++ rest) = escapedLength? k cs ∨
      escapedLength? k cs = none ∧
        ∀ n, escapedLength? k (cs ++ rest) = some n → cs.length ≤ n := by
  have hhead : (cs ++ rest).head?.any (fun c => c = '\n' || c = '\r') =
      cs.head?.any fun c => c = '\n' || c = '\r' := by
    cases cs with
    | nil =>
      cases rest with
      | nil => rfl
      | cons c rest => rcases hrest c List.mem_cons_self with rfl | rfl <;> rfl
    | cons c cs => rfl
  unfold escapedLength?
  rw [hhead]
  split
  · exact continuationLength?_append hrest
  · exact .inl (escapeLength?_append hrest)

theorem escapedLength?_le (h : escapedLength? k cs = some n) : n ≤ cs.length := by
  unfold escapedLength? at h
  split at h
  · exact continuationLength?_le h
  · exact escapeLength?_le h

/-! ## Literals in quotes -/

theorem quotedLength?_parting (hrest : Parting rest) : quotedLength? k rest = none := by
  induction rest with
  | nil => rw [quotedLength?]
  | cons c rest ih =>
    -- A character of `rest` neither ends the literal nor starts an escape.
    rw [quotedLength?, ih hrest.tail]
    · split <;> rfl
    · exact hrest.head_ne (by decide)
    · exact fun _ heq _ => hrest.head_ne (by decide) heq
    · exact hrest.head_ne (by decide)
    · exact hrest.head_ne (by decide)

theorem quotedLength?_append (hrest : Parting rest) :
    quotedLength? k (cs ++ rest) = quotedLength? k cs := by
  fun_induction quotedLength? k cs with
  | case1 => exact quotedLength?_parting hrest
  | case2 cs => rw [List.cons_append, quotedLength?]
  | case3 cs ih => rw [List.cons_append, List.cons_append, quotedLength?, ih]
  | case4 cs hcs =>
    rw [List.cons_append, quotedLength?.eq_4 _ _ (hrest.append_ne ['\n'] (by decide) hcs)]
  | case5 cs n hn ih =>
    have heq : escapedLength? k (cs ++ rest) = some n := by
      rcases escapedLength?_append (k := k) hrest cs with heq | ⟨hnone, -⟩
      · exact heq.trans hn
      · rw [hnone] at hn
        cases hn
    rw [List.cons_append, quotedLength?, heq]
    simp only [List.drop_append_of_le_length (escapedLength?_le hn), ih]
  | case6 cs hnone =>
    rw [List.cons_append, quotedLength?]
    split
    next n hn =>
      -- The line goes on to the end of `cs`, and `rest` does not end the literal.
      rcases escapedLength?_append (k := k) hrest cs with heq | ⟨-, hle⟩
      · rw [heq, hnone] at hn
        cases hn
      · have hdrop : (cs ++ rest).drop n = rest.drop (n - cs.length) := by
          rw [List.drop_append, List.drop_eq_nil_of_le (hle n hn), List.nil_append]
        rw [hdrop, quotedLength?_parting (hrest.drop _)]
        rfl
    next => rfl
  | case7 c cs hquote hreturn hreturn' hslash hbad =>
    rw [List.cons_append, quotedLength?, if_pos hbad]
    · exact hquote
    · exact fun _ heq _ => hreturn' heq
    · exact hreturn'
    · exact hslash
  | case8 c cs hquote hreturn hreturn' hslash hgood ih =>
    rw [List.cons_append, quotedLength?, if_neg hgood, ih]
    · exact hquote
    · exact fun _ heq _ => hreturn' heq
    · exact hreturn'
    · exact hslash

theorem quotedLength?_le (h : quotedLength? k cs = some n) : n ≤ cs.length := by
  fun_induction quotedLength? k cs generalizing n with
  | case1 => cases h
  | case2 cs =>
    rw [← Option.some.inj h]
    exact Nat.le_add_left 1 _
  | case3 cs ih =>
    obtain ⟨m, hm, rfl⟩ := Option.map_eq_some_iff.mp h
    exact Nat.add_le_add_right (ih hm) 2
  | case4 => cases h
  | case5 cs n' hn ih =>
    obtain ⟨m, hm, rfl⟩ := Option.map_eq_some_iff.mp h
    have hmore := ih hm
    have hle := escapedLength?_le hn
    rw [List.length_drop] at hmore
    rw [List.length_cons]
    omega
  | case6 => cases h
  | case7 => cases h
  | case8 c cs _ _ _ _ _ ih =>
    obtain ⟨m, hm, rfl⟩ := Option.map_eq_some_iff.mp h
    exact Nat.succ_le_succ (ih hm)

theorem takeWhile_hash_append (hrest : EndsName rest) :
    (cs ++ rest).takeWhile (fun c => decide (c = '#')) =
      cs.takeWhile fun c => decide (c = '#') := by
  induction cs with
  | nil =>
    cases rest with
    | nil => rfl
    | cons c rest =>
      have hc : c ≠ '#' := hrest.head_ne (by decide)
      simp [hc]
  | cons c cs ih => simp only [List.cons_append, List.takeWhile_cons, ih]

theorem rawTailLength?_parting (hrest : Parting rest) (hashes : Nat) :
    rawTailLength? k hashes rest = none := by
  induction rest with
  | nil => rfl
  | cons c rest ih =>
    have hreturn : c ≠ '\r' := hrest.head_ne (by decide)
    have hquote : c ≠ '"' := hrest.head_ne (by decide)
    rw [rawTailLength?, ih hrest.tail]
    · simp [hquote]
    · exact fun _ heq _ => hreturn heq
    · exact hreturn

theorem rawTailLength?_append (hrest : Parting rest) (hashes : Nat) :
    rawTailLength? k hashes (cs ++ rest) = rawTailLength? k hashes cs := by
  fun_induction rawTailLength? k hashes cs with
  | case1 => exact rawTailLength?_parting hrest hashes
  | case2 cs ih => rw [List.cons_append, List.cons_append, rawTailLength?, ih]
  | case3 cs hcs =>
    rw [List.cons_append, rawTailLength?.eq_3 _ _ _ (hrest.append_ne ['\n'] (by decide) hcs)]
  | case4 c cs _ hreturn hend =>
    rw [List.cons_append, rawTailLength?.eq_4 _ _ _ _ (fun _ heq _ => hreturn heq) hreturn,
      takeWhile_hash_append hrest.ends.name, if_pos hend]
  | case5 c cs _ hreturn hend hbad =>
    rw [List.cons_append, rawTailLength?.eq_4 _ _ _ _ (fun _ heq _ => hreturn heq) hreturn,
      takeWhile_hash_append hrest.ends.name, if_neg hend, if_pos hbad]
  | case6 c cs _ hreturn hend hgood ih =>
    rw [List.cons_append, rawTailLength?.eq_4 _ _ _ _ (fun _ heq _ => hreturn heq) hreturn,
      takeWhile_hash_append hrest.ends.name, if_neg hend, if_neg hgood, ih]

theorem rawTailLength?_le {hashes : Nat} (h : rawTailLength? k hashes cs = some n) :
    n ≤ cs.length := by
  fun_induction rawTailLength? k hashes cs generalizing n with
  | case1 => cases h
  | case2 cs ih =>
    obtain ⟨m, hm, rfl⟩ := Option.map_eq_some_iff.mp h
    exact Nat.add_le_add_right (ih hm) 2
  | case3 => cases h
  | case4 c cs _ _ hend =>
    obtain ⟨-, hhashes⟩ := Bool.and_eq_true_iff.mp hend
    have hle := (List.takeWhile_prefix (fun c => decide (c = '#')) (l := cs)).length_le
    rw [← Option.some.inj h]
    exact Nat.succ_le_succ ((of_decide_eq_true hhashes).trans hle)
  | case5 => cases h
  | case6 c cs _ _ _ _ ih =>
    obtain ⟨m, hm, rfl⟩ := Option.map_eq_some_iff.mp h
    exact Nat.succ_le_succ (ih hm)

theorem rawLength?_append (hrest : Parting rest) : rawLength? k (cs ++ rest) = rawLength? k cs := by
  have hle := (List.takeWhile_prefix (fun c => decide (c = '#')) (l := cs)).length_le
  simp only [rawLength?, takeWhile_hash_append hrest.ends.name, List.drop_append_of_le_length hle]
  cases cs.drop (cs.takeWhile fun c => decide (c = '#')).length with
  | nil =>
    cases rest with
    | nil => rfl
    | cons c rest =>
      have hquote : c ≠ '"' := hrest.head_ne (by decide)
      simp [hquote]
  | cons c more =>
    by_cases hquote : c = '"'
    · subst hquote
      simp only [List.cons_append, rawTailLength?_append hrest]
    · simp [hquote]

theorem rawLength?_le (h : rawLength? k cs = some n) : n ≤ cs.length := by
  unfold rawLength? at h
  simp only at h
  split at h
  next more hmore =>
    split at h
    · obtain ⟨m, hm, rfl⟩ := Option.map_eq_some_iff.mp h
      have hlength := congrArg List.length hmore
      have hle := rawTailLength?_le hm
      rw [List.length_drop, List.length_cons] at hlength
      omega
    · cases h
  next => cases h

theorem singleLength?_cons {c : Char} (hc : c ≠ '\\') (cs : List Char) :
    singleLength? k (c :: cs) =
      if cs.head? = some '\'' then if k.ascii && !isAscii c then none else some 2 else none := by
  unfold singleLength?
  split
  next heq => exact absurd (List.cons.inj heq).1 hc
  next heq =>
    obtain ⟨rfl, rfl⟩ := List.cons.inj heq
    rfl
  next hother =>
    have hhead : cs.head? ≠ some '\'' := by
      intro h
      obtain ⟨more, rfl⟩ := List.head?_eq_some_iff.mp h
      exact hother c more rfl
    rw [if_neg hhead]

theorem singleLength?_append (hrest : Parting rest) :
    singleLength? k (cs ++ rest) = singleLength? k cs := by
  have hquote : ∀ cs : List Char, (cs ++ rest).head? = some '\'' ↔ cs.head? = some '\'' := by
    intro cs
    cases cs with
    | nil =>
      refine ⟨fun h => ?_, nofun⟩
      obtain ⟨more, rfl⟩ := List.head?_eq_some_iff.mp h
      exact absurd rfl (hrest.head_ne (d := '\'') (by decide))
    | cons c cs => rfl
  cases cs with
  | nil =>
    cases rest with
    | nil => rfl
    | cons c rest =>
      have hhead : rest.head? ≠ some '\'' := by
        intro h
        obtain ⟨more, rfl⟩ := List.head?_eq_some_iff.mp h
        exact hrest.tail.head_ne (d := '\'') (by decide) rfl
      rw [List.nil_append, singleLength?_cons (hrest.head_ne (by decide)), if_neg hhead]
      rfl
  | cons c cs =>
    by_cases hslash : c = '\\'
    · subst hslash
      rw [List.cons_append, singleLength?, singleLength?, escapeLength?_append hrest]
      split
      next n hn =>
        rw [List.drop_append_of_le_length (escapeLength?_le hn)]
        simp only [hquote]
      next => rfl
    · rw [List.cons_append, singleLength?_cons hslash, singleLength?_cons hslash]
      simp only [hquote]

theorem singleLength?_le (h : singleLength? k cs = some n) : n ≤ cs.length := by
  unfold singleLength? at h
  split at h
  · split at h
    next m hm =>
      split at h
      next hquote =>
        obtain ⟨more, hmore⟩ := List.head?_eq_some_iff.mp hquote
        have hlength := congrArg List.length hmore
        rw [List.length_drop, List.length_cons] at hlength
        rw [← Option.some.inj h, List.length_cons]
        omega
      next => cases h
    next => cases h
  · split at h
    · cases h
    · rw [← Option.some.inj h]
      simp
  · cases h

/-! ## All literals -/

section After

variable {form? : List Char → Option Nat}

/-- What is put together for the forms of literals in quotes: `n` characters open one, and a suffix
follows it. -/
theorem after_append (hrest : Parting rest) (hn : n ≤ cs.length)
    (happend : ∀ cs, form? (cs ++ rest) = form? cs)
    (hle : ∀ {cs m}, form? cs = some m → m ≤ cs.length) :
    ((form? ((cs ++ rest).drop n)).map fun m => withSuffix (cs ++ rest) (n + m)) =
      (form? (cs.drop n)).map fun m => withSuffix cs (n + m) := by
  rw [List.drop_append_of_le_length hn, happend]
  refine Option.map_congr fun m hm => withSuffix_append hrest.ends.name ?_
  have hm := hle hm
  rw [List.length_drop] at hm
  omega

theorem after_le {m : Nat} (hn : n ≤ cs.length) (hle : ∀ {cs m}, form? cs = some m → m ≤ cs.length)
    (h : ((form? (cs.drop n)).map fun m => withSuffix cs (n + m)) = some m) : m ≤ cs.length := by
  obtain ⟨i, hi, rfl⟩ := Option.map_eq_some_iff.mp h
  have hi := hle hi
  rw [List.length_drop] at hi
  exact withSuffix_le (by omega)

end After

theorem quoted_append (hrest : Parting rest) : length?.quoted (cs ++ rest) = length?.quoted cs := by
  have hquoted : ∀ {k : Content} {cs : List Char} {n : Nat}, n ≤ cs.length →
      quotedAfter? k (cs ++ rest) n = quotedAfter? k cs n := fun hn =>
    after_append hrest hn (fun _ => quotedLength?_append hrest) quotedLength?_le
  have hraw : ∀ {k : Content} {cs : List Char} {n : Nat}, n ≤ cs.length →
      rawAfter? k (cs ++ rest) n = rawAfter? k cs n := fun hn =>
    after_append hrest hn (fun _ => rawLength?_append hrest) rawLength?_le
  have hsingle : ∀ {k : Content} {cs : List Char} {n : Nat}, n ≤ cs.length →
      singleAfter? k (cs ++ rest) n = singleAfter? k cs n := fun hn =>
    after_append hrest hn (fun _ => singleLength?_append hrest) singleLength?_le
  fun_cases length?.quoted cs with
  | case1 => exact hquoted (by simp)
  | case2 => exact hraw (by simp)
  | case3 => exact hquoted (by simp)
  | case4 => exact hraw (by simp)
  | case5 => exact hquoted (by simp)
  | case6 => exact hraw (by simp)
  | case7 => exact hsingle (by simp)
  | case8 => exact hsingle (by simp)
  | case9 cs h₁ h₂ h₃ h₄ h₅ h₆ h₇ h₈ =>
    exact length?.quoted.eq_9 _ (hrest.append_ne ['"'] (by decide) h₁)
      (hrest.append_ne ['r'] (by decide) h₂) (hrest.append_ne ['b', '"'] (by decide) h₃)
      (hrest.append_ne ['b', 'r'] (by decide) h₄) (hrest.append_ne ['c', '"'] (by decide) h₅)
      (hrest.append_ne ['c', 'r'] (by decide) h₆) (hrest.append_ne ['b', '\''] (by decide) h₇)
      (hrest.append_ne ['\''] (by decide) h₈)

theorem quoted_le (h : length?.quoted cs = some n) : n ≤ cs.length := by
  unfold length?.quoted at h
  split at h
  case h_9 => cases h
  all_goals first
    | exact after_le (by simp) quotedLength?_le h
    | exact after_le (by simp) rawLength?_le h
    | exact after_le (by simp) singleLength?_le h

theorem numberLength?_le {m : Nat} (hn : n ≤ cs.length) (h : numberLength? cs n = some m) :
    m ≤ cs.length := by
  unfold numberLength? at h
  simp only at h
  split at h
  · cases h
  · rw [← Option.some.inj h]
    exact withSuffix_le hn

theorem floatLength?_le (h : floatLength? cs = some n) : n ≤ cs.length := by
  cases cs with
  | nil => cases h
  | cons c cs =>
    unfold floatLength? at h
    obtain ⟨d, -, h⟩ := Option.bind_eq_some_iff.mp h
    simp only at h
    split at h
    · cases h
    obtain ⟨m, hm, h⟩ := Option.bind_eq_some_iff.mp h
    have hle : m.length ≤ (c :: cs).length := by
      have := mantissa?_le hm
      simp only [List.tail_cons, List.length_cons] at this ⊢
      omega
    split at h
    · cases h
    split at h
    · exact numberLength?_le hle h
    split at h
    next i hi =>
      have hi := exponentLength?_le hi
      rw [List.length_drop] at hi
      exact numberLength?_le (by omega) h
    next =>
      split at h
      · exact numberLength?_le (by omega) h
      · cases h

theorem intLength?_le (h : intLength? cs = some n) : n ≤ cs.length := by
  have hmark := baseMark_le cs
  unfold intLength? at h
  simp only at h
  obtain ⟨m, hm, h⟩ := Option.bind_eq_some_iff.mp h
  have hm := digitsLength?_le hm
  rw [List.length_drop] at hm
  exact numberLength?_le (by omega) h

theorem length?_append (hrest : Parting rest) (hcs : cs ≠ []) :
    length? (cs ++ rest) = length? cs := by
  rw [length?, length?, quoted_append hrest, floatLength?_append hrest.ends hcs,
    intLength?_append hrest.ends.name]

theorem length?_le (h : length? cs = some n) : n ≤ cs.length := by
  simp only [length?, Option.orElse_eq_orElse, Option.orElse_eq_or, Option.or_eq_some_iff] at h
  rcases h with h | ⟨-, h | ⟨-, h⟩⟩
  · exact quoted_le h
  · exact floatLength?_le h
  · exact intLength?_le h

end Literal

namespace Token

/-! ## Names and marks -/

theorem nameLength?_append (hrest : Halts rest) : nameLength? (cs ++ rest) = nameLength? cs := by
  unfold nameLength?
  rw [hrest.startsWith (by decide)]
  split
  next hraw =>
    obtain ⟨name, rfl⟩ := List.isPrefixOf_iff_prefix.mp hraw
    show (Literal.identLength? (name ++ rest)).bind _ = (Literal.identLength? name).bind _
    rw [Literal.identLength?_append hrest.ends.name]
    refine Option.bind_congr fun n hn => ?_
    show (if isUnrawable ((name ++ rest).take n) then _ else _) = _
    rw [List.take_append_of_le_length (Literal.identLength?_le hn)]
    rfl
  next => exact Literal.identLength?_append hrest.ends.name

theorem nameLength?_le (h : nameLength? cs = some n) : n ≤ cs.length := by
  unfold nameLength? at h
  split at h
  next hraw =>
    obtain ⟨name, rfl⟩ := List.isPrefixOf_iff_prefix.mp hraw
    obtain ⟨m, hm, h⟩ := Option.bind_eq_some_iff.mp h
    split at h
    · cases h
    · rw [← Option.some.inj h]
      exact Nat.add_le_add_right (Literal.identLength?_le hm) 2
  next => exact Literal.identLength?_le h

theorem startsLifetime_append (hrest : Halts rest) (hcs : cs ≠ []) :
    startsLifetime (cs ++ rest) = startsLifetime cs := by
  unfold startsLifetime
  rw [List.tail_append_of_ne_nil hcs, nameLength?_append hrest]
  cases hn : nameLength? cs.tail with
  | none => rfl
  | some n =>
    simp only [List.drop_append_of_le_length (nameLength?_le hn)]
    rw [hrest.startsWith (by decide), hrest.startsWith (by decide), hrest.startsWith (by decide)]

theorem opensLiteral_append (hrest : Halts rest) (cs : List Char) :
    opensLiteral (cs ++ rest) = opensLiteral cs := by
  have hmarks : ∀ s ∈ ["r\"", "r#\"", "r##", "b\"", "b'", "br\"", "br#", "c\"", "cr\"", "cr#"],
      ∀ d ∈ s.toList, d ∉ haltMarks := by decide
  rw [Bool.eq_iff_iff, opensLiteral, opensLiteral, List.any_eq_true, List.any_eq_true]
  exact exists_congr fun s => and_congr_right fun hs => by rw [hrest.startsWith (hmarks s hs)]

/-- Only behind nothing does it matter whether a mark follows. -/
theorem startsMark_append (hrest : Halts rest) (hrest' : Halts rest')
    (hmark : startsMark rest' = startsMark rest) (cs : List Char) :
    startsMark (cs ++ rest') = startsMark (cs ++ rest) := by
  cases cs with
  | nil => exact hmark
  | cons c cs =>
    rw [startsMark, startsMark, hrest.startsWith (by decide), hrest.startsWith (by decide),
      hrest'.startsWith (by decide), hrest'.startsWith (by decide)]
    rfl

theorem startsMark_of_breaks (h : Breaks rest) : startsMark rest = false := by
  cases rest with
  | nil => rfl
  | cons c rest => rcases h c rfl with rfl | rfl | rfl <;> rfl

variable {p : Position} {t : Token}

theorem errorLiteral?_le (h : leaf?.errorLiteral? p cs = some (t, n)) : n ≤ cs.length := by
  unfold leaf?.errorLiteral? at h
  split at h
  next hmark =>
    obtain ⟨-, rfl⟩ := Prod.mk.inj (Option.some.inj h)
    rw [← String.length_toList]
    exact (List.isPrefixOf_iff_prefix.mp hmark).length_le
  next => cases h

/-- A token ends within its text. -/
theorem leaf?_le (h : leaf? p cs = some (t, n)) : n ≤ cs.length := by
  unfold leaf? at h
  split at h
  next m hm =>
    obtain ⟨-, rfl⟩ := Prod.mk.inj (Option.some.inj h)
    exact Literal.length?_le hm
  split at h
  next hmark =>
    have hpos : 1 ≤ cs.length := by
      cases cs with
      | nil => cases hmark
      | cons c cs => exact Nat.le_add_left 1 _
    split at h
    · split at h
      · obtain ⟨-, rfl⟩ := Prod.mk.inj (Option.some.inj h)
        exact hpos
      · cases h
    · obtain ⟨c, -, h⟩ := Option.map_eq_some_iff.mp h
      obtain ⟨-, rfl⟩ := Prod.mk.inj h
      exact hpos
  split at h
  · split at h
    next m hm =>
      obtain ⟨-, rfl⟩ := Prod.mk.inj (Option.some.inj h)
      exact nameLength?_le hm
    next => exact errorLiteral?_le h
  · exact errorLiteral?_le h

/-- A token is the same wherever its text stands. -/
theorem leaf?_move (q : Position) (h : leaf? p cs = some (t, n)) :
    ∃ t', leaf? q cs = some (t', n) ∧ t'.unplaced = t.unplaced := by
  have herror : (leaf?.errorLiteral? q cs).map (fun r => (r.1.unplaced, r.2)) =
      (leaf?.errorLiteral? p cs).map fun r => (r.1.unplaced, r.2) := by
    unfold leaf?.errorLiteral?
    split <;> rfl
  -- The place goes into the token and decides about nothing.
  have hmap : (leaf? q cs).map (fun r => (r.1.unplaced, r.2)) =
      (leaf? p cs).map fun r => (r.1.unplaced, r.2) := by
    unfold leaf?
    split
    · rfl
    split
    · split
      · split <;> rfl
      · cases cs.head? <;> rfl
    split
    · split
      · rfl
      · exact herror
    · exact herror
  rw [h, Option.map_some, Option.map_eq_some_iff] at hmap
  obtain ⟨⟨t', m⟩, hleaf, heq⟩ := hmap
  obtain ⟨ht, rfl⟩ := Prod.mk.inj heq
  exact ⟨t', hleaf, ht⟩

/-- A token does not depend on what stands behind its text, unless a literal goes on into it or the
mark of an unreadable one ends there. -/
theorem leaf?_congr (hrest : Halts rest) (hrest' : Halts rest')
    (hmark : startsMark rest' = startsMark rest) (hcs : cs ≠ [])
    (hliteral : Literal.length? (cs ++ rest') = Literal.length? (cs ++ rest))
    (hwithin : ∀ n, Literal.length? (cs ++ rest) = some n → n ≤ cs.length)
    (herror : startsWith errorMark (cs ++ rest) = startsWith errorMark cs)
    (herror' : startsWith errorMark (cs ++ rest') = startsWith errorMark cs) :
    leaf? p (cs ++ rest') = leaf? p (cs ++ rest) := by
  have hcovering : ∀ {n}, n ≤ cs.length →
      leaf?.covering p (cs ++ rest') n = leaf?.covering p (cs ++ rest) n := by
    intro n hn
    rw [leaf?.covering, leaf?.covering, List.take_append_of_le_length hn,
      List.take_append_of_le_length hn]
  have hunreadable : leaf?.errorLiteral? p (cs ++ rest') = leaf?.errorLiteral? p (cs ++ rest) := by
    unfold leaf?.errorLiteral?
    rw [herror, herror']
    split
    next hstarts =>
      have hle := (List.isPrefixOf_iff_prefix.mp hstarts).length_le
      rw [String.length_toList] at hle
      rw [hcovering hle]
    next => rfl
  have hhead : (cs ++ rest').head? = (cs ++ rest).head? := by
    obtain ⟨c, more, rfl⟩ := List.exists_cons_of_ne_nil hcs
    rfl
  -- Every test that decides which form a token has gives the same with either text behind `cs`.
  unfold leaf?
  rw [hliteral, startsMark_append hrest hrest' hmark, hrest.startsWith (s := "'") (by decide),
    hrest'.startsWith (s := "'") (by decide), opensLiteral_append hrest, opensLiteral_append hrest',
    nameLength?_append hrest, nameLength?_append hrest', startsLifetime_append hrest hcs,
    startsLifetime_append hrest' hcs, List.tail_append_of_ne_nil hcs,
    List.tail_append_of_ne_nil hcs, startsMark_append hrest hrest' hmark, hunreadable, hhead,
    hcovering (List.length_pos_iff.mpr hcs)]
  cases hlength : Literal.length? (cs ++ rest) with
  | some n =>
    have hle := hwithin n hlength
    simp only [hcovering hle, List.take_append_of_le_length hle]
  | none =>
    cases hname : nameLength? cs with
    | some n =>
      have hle := nameLength?_le hname
      simp only [hcovering hle, List.take_append_of_le_length hle]
    | none => rfl

/-- In front of `rest` a token is read as it is read at the end of a text, unless the mark of an
unreadable literal ends in `rest`. -/
theorem leaf?_append (hrest : Parting rest) (hcs : cs ≠ [])
    (hmark : startsWith errorMark (cs ++ rest) = startsWith errorMark cs) :
    leaf? p (cs ++ rest) = leaf? p cs := by
  have hnil : cs ++ [] = cs := List.append_nil cs
  have hsame : leaf? p (cs ++ rest) = leaf? p (cs ++ []) := by
    refine leaf?_congr .nil hrest.breaks.halts (startsMark_of_breaks hrest.breaks) hcs ?_ ?_ ?_ hmark
    · exact hnil.symm ▸ Literal.length?_append hrest hcs
    · exact hnil.symm ▸ fun _ => Literal.length?_le
    · rw [hnil]
  exact hsame.trans (congrArg _ hnil)

end Token

end Graft

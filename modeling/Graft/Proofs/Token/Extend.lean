import Graft.Proofs.Token.Inside

/-!
# Texts that go on

What is read of a text as a literal or a leaf does not depend on what stands behind it, as long as
that starts with a character that breaks it off.
-/

namespace Graft

variable {cs rest rest' : List Char} {n : Nat}

/-- A text that is long enough has its head before what is put behind it. -/
theorem exists_cons_of_append {c : Char} {more : List Char} (h : cs ++ rest = c :: more)
    (hlength : 0 < cs.length) : ∃ cs', cs = c :: cs' ∧ more = cs' ++ rest := by
  cases cs with
  | nil => cases hlength
  | cons d cs =>
    obtain ⟨rfl, rfl⟩ := List.cons.inj h
    exact ⟨cs, rfl, rfl⟩

namespace Literal

variable {k : Content}

theorem scalarDigits?_pos {count value : Nat} {found : Nat × Nat}
    (h : scalarDigits? count value cs = some found) : 0 < found.1 := by
  have hmap : ∀ {o : Option (Nat × Nat)}, o.map (fun r => (r.1 + 1, r.2)) = some found →
      0 < found.1 := by
    intro o ho
    obtain ⟨m, -, rfl⟩ := Option.map_eq_some_iff.mp ho
    exact Nat.succ_pos _
  unfold scalarDigits? at h
  split at h
  · cases h
  split at h
  · exact hmap h
  split at h
  · rw [← Option.some.inj h]
    exact Nat.one_pos
  split at h
  · exact hmap h
  · cases h

theorem scalarDigits?_local {count value : Nat} {found : Nat × Nat}
    (h : scalarDigits? count value (cs ++ rest) = some found) (hle : found.1 ≤ cs.length)
    (rest' : List Char) : scalarDigits? count value (cs ++ rest') = some found := by
  induction cs generalizing count value found with
  | nil =>
    have hpos := scalarDigits?_pos h
    exact absurd hle (Nat.not_le_of_lt hpos)
  | cons c cs ih =>
    have hmap : ∀ {count value : Nat},
        (scalarDigits? count value (cs ++ rest)).map (fun r => (r.1 + 1, r.2)) = some found →
        (scalarDigits? count value (cs ++ rest')).map (fun r => (r.1 + 1, r.2)) = some found := by
      intro count value h
      obtain ⟨m, hm, rfl⟩ := Option.map_eq_some_iff.mp h
      rw [ih hm (Nat.le_of_succ_le_succ hle), Option.map_some]
    rw [List.cons_append, scalarDigits?] at h ⊢
    split at h
    next hc => rw [if_pos hc, hmap h]
    next hc =>
      rw [if_neg hc]
      split at h
      next hc' => rw [if_pos hc', h]
      next hc' =>
        rw [if_neg hc']
        split at h
        next hc'' => rw [if_pos hc'', hmap h]
        next => cases h

theorem escapeLength?_pos (h : escapeLength? k cs = some n) : 0 < n := by
  unfold escapeLength? at h
  split at h
  · split at h <;> cases h
    exact Nat.succ_pos _
  · split at h
    · split at h
      · split at h <;> cases h
        exact Nat.succ_pos _
      · cases h
    · cases h
  · split at h <;> cases h
    exact Nat.one_pos
  · cases h

/-- An escape with digits is longer than its mark. -/
theorem escapeLength?_long {c : Char} (hc : c = 'x' ∨ c = 'u')
    (h : escapeLength? k (c :: cs) = some n) : 2 ≤ n ∧ (c = 'x' → 3 ≤ n) := by
  rcases hc with rfl | rfl
  · rcases cs with _ | ⟨a, _ | ⟨b, cs⟩⟩
    · simp [escapeLength?] at h
    · simp [escapeLength?] at h
    · rw [escapeLength?] at h
      split at h <;> cases h
      exact ⟨Nat.le_succ 2, fun _ => Nat.le_refl 3⟩
  · refine ⟨?_, fun hc => absurd hc (by decide)⟩
    rcases cs with _ | ⟨d, cs⟩
    · simp [escapeLength?] at h
    · by_cases hd : d = '\x7b'
      · subst hd
        rw [escapeLength?] at h
        split at h
        · split at h
          · split at h <;> cases h
            exact Nat.le_add_left 2 _
          · cases h
        · cases h
      · simp [escapeLength?, hd] at h

theorem escapeLength?_local (h : escapeLength? k (cs ++ rest) = some n) (hle : n ≤ cs.length)
    (rest' : List Char) : escapeLength? k (cs ++ rest') = some n := by
  cases cs with
  | nil => exact absurd hle (Nat.not_le_of_lt (escapeLength?_pos h))
  | cons c cs =>
    rw [List.length_cons] at hle
    by_cases hx : c = 'x'
    · -- Both digits stand in front of `rest`.
      have hthree := (escapeLength?_long (.inl hx) h).2 hx
      obtain ⟨a, b, cs, rfl⟩ : ∃ a b cs', cs = a :: b :: cs' := by
        rcases cs with _ | ⟨a, _ | ⟨b, cs⟩⟩
        · simp at hle
          omega
        · simp at hle
          omega
        · exact ⟨a, b, cs, rfl⟩
      subst hx
      exact h
    by_cases hu : c = 'u'
    -- The brace that opens a scalar value and its digits stand in front of `rest`, too.
    · have htwo := (escapeLength?_long (.inr hu) h).1
      obtain ⟨d, cs, rfl⟩ : ∃ d cs', cs = d :: cs' := by
        cases cs with
        | nil =>
          simp at hle
          omega
        | cons d cs => exact ⟨d, cs, rfl⟩
      subst hu
      by_cases hd : d = '\x7b'
      · subst hd
        simp only [List.cons_append, escapeLength?] at h ⊢
        split at h
        next hallowed =>
          rw [if_pos hallowed]
          split at h
          next m v hm =>
            split at h
            next hscalar =>
              cases h
              rw [List.length_cons] at hle
              rw [scalarDigits?_local hm (by simpa using Nat.le_of_succ_le_succ hle) rest']
              exact if_pos hscalar
            next => cases h
          next => cases h
        next => cases h
      · simp [escapeLength?, hd] at h
    · simp [escapeLength?, hx, hu] at h ⊢
      exact h

/-- What continues a line does not depend on what stands behind the first character that is no
blank. -/
theorem continuationLength?_local (h : continuationLength? (cs ++ rest) = some n)
    (hlt : n < cs.length) (rest' : List Char) : continuationLength? (cs ++ rest') = some n := by
  generalize htext : cs ++ rest = text at h
  fun_induction continuationLength? text generalizing cs n with
  | case1 more ih =>
    obtain ⟨m, hm, rfl⟩ := Option.map_eq_some_iff.mp h
    obtain ⟨cs, rfl, h₁⟩ := exists_cons_of_append htext (Nat.zero_lt_of_lt hlt)
    rw [List.length_cons] at hlt
    obtain ⟨cs, rfl, h₂⟩ := exists_cons_of_append h₁.symm (by omega)
    rw [List.length_cons] at hlt
    rw [List.cons_append, List.cons_append, continuationLength?, ih (by omega) h₂.symm hm]
    rfl
  | case2 => cases h
  | case3 c more _ hc hblank ih =>
    obtain ⟨m, hm, rfl⟩ := Option.map_eq_some_iff.mp h
    obtain ⟨cs, rfl, h₁⟩ := exists_cons_of_append htext (Nat.zero_lt_of_lt hlt)
    rw [List.length_cons] at hlt
    rw [List.cons_append, continuationLength?.eq_3 _ _ (fun _ heq _ => hc heq) hc, if_pos hblank,
      ih (by omega) h₁.symm hm]
    rfl
  | case4 c more _ hc hblank =>
    obtain ⟨cs, rfl, h₁⟩ := exists_cons_of_append htext (Nat.zero_lt_of_lt hlt)
    rw [List.cons_append, continuationLength?.eq_3 _ _ (fun _ heq _ => hc heq) hc, if_neg hblank, h]
  | case5 => cases h

theorem escapedLength?_local (h : escapedLength? k (cs ++ rest) = some n) (hlt : n < cs.length)
    (rest' : List Char) : escapedLength? k (cs ++ rest') = some n := by
  cases cs with
  | nil => cases hlt
  | cons c cs =>
    unfold escapedLength? at h ⊢
    rw [List.cons_append, List.head?_cons] at *
    split at h
    next hc =>
      rw [if_pos hc]
      exact continuationLength?_local h hlt rest'
    next hc =>
      rw [if_neg hc]
      exact escapeLength?_local h (Nat.le_of_lt hlt) rest'

theorem quotedLength?_pos (h : quotedLength? k cs = some n) : 0 < n := by
  have hmap : ∀ {o : Option Nat} {i : Nat}, o.map (· + (i + 1)) = some n → 0 < n := by
    intro o i ho
    obtain ⟨m, -, rfl⟩ := Option.map_eq_some_iff.mp ho
    exact Nat.succ_pos _
  unfold quotedLength? at h
  split at h
  · cases h
  · cases h
    exact Nat.one_pos
  · exact hmap h
  · cases h
  · split at h
    · obtain ⟨m, -, rfl⟩ := Option.map_eq_some_iff.mp h
      exact Nat.succ_pos _
    · cases h
  · split at h
    · cases h
    · exact hmap h

theorem quotedLength?_local (h : quotedLength? k (cs ++ rest) = some n) (hle : n ≤ cs.length)
    (rest' : List Char) : quotedLength? k (cs ++ rest') = some n := by
  have hne : 0 < cs.length := (quotedLength?_pos h).trans_le hle
  generalize htext : cs ++ rest = text at h
  fun_induction quotedLength? k text generalizing cs n with
  | case1 => cases h
  | case2 more =>
    obtain ⟨cs, rfl, -⟩ := exists_cons_of_append htext hne
    rw [List.cons_append, quotedLength?, h]
  | case3 more ih =>
    obtain ⟨m, hm, rfl⟩ := Option.map_eq_some_iff.mp h
    have hpos := quotedLength?_pos hm
    obtain ⟨cs, rfl, h₁⟩ := exists_cons_of_append htext hne
    rw [List.length_cons] at hle
    obtain ⟨cs, rfl, h₂⟩ := exists_cons_of_append h₁.symm (by omega)
    rw [List.length_cons] at hle
    rw [List.cons_append, List.cons_append, quotedLength?,
      ih (by omega) (by omega) h₂.symm hm]
    rfl
  | case4 => cases h
  | case5 more m hm ih =>
    obtain ⟨i, hi, rfl⟩ := Option.map_eq_some_iff.mp h
    have hpos := quotedLength?_pos hi
    obtain ⟨cs, rfl, rfl⟩ := exists_cons_of_append htext hne
    rw [List.length_cons] at hle
    have hescaped := escapedLength?_local hm (by omega) rest'
    have hdrop : ∀ rest : List Char, (cs ++ rest).drop m = cs.drop m ++ rest := fun rest =>
      List.drop_append_of_le_length (by omega)
    have hlength := List.length_drop (i := m) (l := cs)
    have hmore : quotedLength? k (cs.drop m ++ rest') = some i :=
      ih (by omega) (by omega) (hdrop rest).symm hi
    rw [List.cons_append, quotedLength?, hescaped]
    simp only [hdrop, hmore, Option.map_some]
  | case6 => cases h
  | case7 => cases h
  | case8 c more hquote hreturn hreturn' hslash hgood ih =>
    obtain ⟨i, hi, rfl⟩ := Option.map_eq_some_iff.mp h
    have hpos := quotedLength?_pos hi
    obtain ⟨cs, rfl, h₁⟩ := exists_cons_of_append htext hne
    rw [List.length_cons] at hle
    have hmore := ih (by omega) (by omega) h₁.symm hi
    rw [List.cons_append, quotedLength?, if_neg hgood, hmore, Option.map_some]
    · exact hquote
    · exact fun _ heq _ => hreturn' heq
    · exact hreturn'
    · exact hslash

theorem rawTailLength?_pos {hashes : Nat} (h : rawTailLength? k hashes cs = some n) : 0 < n := by
  have hmap : ∀ {o : Option Nat} {i : Nat}, o.map (· + (i + 1)) = some n → 0 < n := by
    intro o i ho
    obtain ⟨m, -, rfl⟩ := Option.map_eq_some_iff.mp ho
    exact Nat.succ_pos _
  unfold rawTailLength? at h
  split at h
  · cases h
  · exact hmap h
  · cases h
  · split at h
    · cases h
      exact Nat.succ_pos _
    split at h
    · cases h
    · exact hmap h

theorem rawTailLength?_local (hrest : EndsName rest) (hrest' : EndsName rest') {hashes : Nat}
    (h : rawTailLength? k hashes (cs ++ rest) = some n) (hle : n ≤ cs.length) :
    rawTailLength? k hashes (cs ++ rest') = some n := by
  have hne : 0 < cs.length := (rawTailLength?_pos h).trans_le hle
  generalize htext : cs ++ rest = text at h
  fun_induction rawTailLength? k hashes text generalizing cs n with
  | case1 => cases h
  | case2 more ih =>
    obtain ⟨m, hm, rfl⟩ := Option.map_eq_some_iff.mp h
    have hpos := rawTailLength?_pos hm
    obtain ⟨cs, rfl, h₁⟩ := exists_cons_of_append htext hne
    rw [List.length_cons] at hle
    obtain ⟨cs, rfl, h₂⟩ := exists_cons_of_append h₁.symm (by omega)
    rw [List.length_cons] at hle
    rw [List.cons_append, List.cons_append, rawTailLength?, ih (by omega) (by omega) h₂.symm hm]
    rfl
  | case3 => cases h
  | case4 c more _ hreturn hend =>
    obtain ⟨cs, rfl, rfl⟩ := exists_cons_of_append htext hne
    rw [takeWhile_hash_append hrest] at hend
    rw [List.cons_append, rawTailLength?.eq_4 _ _ _ _ (fun _ heq _ => hreturn heq) hreturn,
      takeWhile_hash_append hrest', if_pos hend, h]
  | case5 => cases h
  | case6 c more _ hreturn hend hgood ih =>
    obtain ⟨m, hm, rfl⟩ := Option.map_eq_some_iff.mp h
    have hpos := rawTailLength?_pos hm
    obtain ⟨cs, rfl, rfl⟩ := exists_cons_of_append htext hne
    rw [List.length_cons] at hle
    rw [takeWhile_hash_append hrest] at hend
    rw [List.cons_append, rawTailLength?.eq_4 _ _ _ _ (fun _ heq _ => hreturn heq) hreturn,
      takeWhile_hash_append hrest', if_neg hend, if_neg hgood, ih (by omega) (by omega) rfl hm,
      Option.map_some]

theorem rawLength?_pos (h : rawLength? k cs = some n) : 0 < n := by
  unfold rawLength? at h
  simp only at h
  split at h
  · split at h
    · obtain ⟨m, -, rfl⟩ := Option.map_eq_some_iff.mp h
      exact Nat.succ_pos _
    · cases h
  · cases h

theorem rawLength?_local (hrest : EndsName rest) (hrest' : EndsName rest')
    (h : rawLength? k (cs ++ rest) = some n) (hle : n ≤ cs.length) :
    rawLength? k (cs ++ rest') = some n := by
  have hhashes := (List.takeWhile_prefix (fun c => decide (c = '#')) (l := cs)).length_le
  simp only [rawLength?, takeWhile_hash_append hrest, takeWhile_hash_append hrest',
    List.drop_append_of_le_length hhashes] at h ⊢
  split at h
  next more hmore =>
    split at h
    next hfew =>
      obtain ⟨m, hm, rfl⟩ := Option.map_eq_some_iff.mp h
      obtain ⟨tail, htail, rfl⟩ := exists_cons_of_append hmore (by rw [List.length_drop]; omega)
      have hlength := congrArg List.length htail
      rw [List.length_drop, List.length_cons] at hlength
      simp only [htail, List.cons_append, if_pos hfew]
      rw [rawTailLength?_local hrest hrest' hm (by omega), Option.map_some]
    next => cases h
  next => cases h

theorem singleLength?_pos (h : singleLength? k cs = some n) : 0 < n := by
  unfold singleLength? at h
  split at h
  · split at h
    · split at h <;> cases h
      exact Nat.succ_pos _
    · cases h
  · split at h <;> cases h
    exact Nat.two_pos
  · cases h

theorem singleLength?_local (h : singleLength? k (cs ++ rest) = some n) (hle : n ≤ cs.length)
    (rest' : List Char) : singleLength? k (cs ++ rest') = some n := by
  have hhead : ∀ {cs : List Char}, 0 < cs.length → (cs ++ rest').head? = (cs ++ rest).head? := by
    intro cs hcs
    cases cs with
    | nil => cases hcs
    | cons c cs => rfl
  cases cs with
  | nil => exact absurd hle (Nat.not_le_of_lt (singleLength?_pos h))
  | cons c cs =>
    rw [List.length_cons] at hle
    by_cases hslash : c = '\\'
    · subst hslash
      rw [List.cons_append, singleLength?] at h ⊢
      split at h
      next m hm =>
        split at h
        next hquote =>
          cases h
          have hdrop : ∀ rest : List Char, (cs ++ rest).drop m = cs.drop m ++ rest := fun rest =>
            List.drop_append_of_le_length (by omega)
          have hlength := List.length_drop (i := m) (l := cs)
          rw [hdrop] at hquote
          rw [escapeLength?_local hm (by omega) rest']
          simp only [hdrop, hhead (show 0 < (cs.drop m).length by omega), hquote, if_true]
        next => cases h
      next => cases h
    · rw [List.cons_append, singleLength?_cons hslash] at h ⊢
      split at h
      next hquote =>
        have htwo : n = 2 := by
          split at h <;> cases h
          rfl
        rw [hhead (by omega), if_pos hquote, h]
      next => cases h

/-! ## All literals -/

section After

variable {form? : List Char → Option Nat}

theorem after_lt {m : Nat} (hpos : ∀ {cs m}, form? cs = some m → 0 < m)
    (h : ((form? (cs.drop n)).map fun i => withSuffix cs (n + i)) = some m) : n < m := by
  obtain ⟨i, hi, rfl⟩ := Option.map_eq_some_iff.mp h
  have hlt := hpos hi
  have hle := le_withSuffix cs (n + i)
  omega

theorem after_local (hrest : EndsName rest) (hrest' : EndsName rest') {m : Nat} (hn : n ≤ cs.length)
    (hlocal : ∀ {cs m}, form? (cs ++ rest) = some m → m ≤ cs.length → form? (cs ++ rest') = some m)
    (h : ((form? ((cs ++ rest).drop n)).map fun i => withSuffix (cs ++ rest) (n + i)) = some m)
    (hle : m ≤ cs.length) :
    ((form? ((cs ++ rest').drop n)).map fun i => withSuffix (cs ++ rest') (n + i)) = some m := by
  obtain ⟨i, hi, rfl⟩ := Option.map_eq_some_iff.mp h
  have hwithin := (le_withSuffix (cs ++ rest) (n + i)).trans hle
  rw [List.drop_append_of_le_length hn] at hi ⊢
  have hi' := hlocal hi (by rw [List.length_drop]; omega)
  rw [hi', Option.map_some, withSuffix_append hrest hwithin,
    withSuffix_append hrest' hwithin]

end After

theorem quoted_local (hrest : EndsName rest) (hrest' : EndsName rest')
    (h : length?.quoted (cs ++ rest) = some n) (hle : n ≤ cs.length) :
    length?.quoted (cs ++ rest') = some n := by
  have hquoted : ∀ {k : Content} {cs : List Char} {i : Nat}, quotedAfter? k (cs ++ rest) i = some n →
      n ≤ cs.length → i < n ∧ quotedAfter? k (cs ++ rest') i = some n := by
    intro k cs i h hle
    have hlt := after_lt quotedLength?_pos h
    exact ⟨hlt, after_local hrest hrest' (by omega) (fun h hle => quotedLength?_local h hle rest') h
      hle⟩
  have hraw : ∀ {k : Content} {cs : List Char} {i : Nat}, rawAfter? k (cs ++ rest) i = some n →
      n ≤ cs.length → i < n ∧ rawAfter? k (cs ++ rest') i = some n := by
    intro k cs i h hle
    have hlt := after_lt rawLength?_pos h
    exact ⟨hlt, after_local hrest hrest' (by omega) (rawLength?_local hrest hrest') h hle⟩
  have hsingle : ∀ {k : Content} {cs : List Char} {i : Nat}, singleAfter? k (cs ++ rest) i = some n →
      n ≤ cs.length → i < n ∧ singleAfter? k (cs ++ rest') i = some n := by
    intro k cs i h hle
    have hlt := after_lt singleLength?_pos h
    exact ⟨hlt, after_local hrest hrest' (by omega) (fun h hle => singleLength?_local h hle rest') h
      hle⟩
  -- The marks that open the literal stand in front of `rest`.
  have hopens : ∀ (marks : List Char) {more : List Char}, cs ++ rest = marks ++ more →
      marks.length < n → ∃ cs', cs = marks ++ cs' := by
    intro marks more hcs hlt
    have hmarks : marks <+: cs ++ rest := ⟨more, hcs.symm⟩
    obtain ⟨cs', hcs'⟩ := List.prefix_of_prefix_length_le hmarks (List.prefix_append cs rest)
      (hlt.le.trans hle)
    exact ⟨cs', hcs'.symm⟩
  generalize htext : cs ++ rest = text at h
  unfold length?.quoted at h
  split at h
  next more =>
    obtain ⟨hlt, h⟩ := hquoted (htext ▸ h) hle
    obtain ⟨cs, rfl⟩ := hopens ['"'] htext hlt
    exact h
  next more =>
    obtain ⟨hlt, h⟩ := hraw (htext ▸ h) hle
    obtain ⟨cs, rfl⟩ := hopens ['r'] htext hlt
    exact h
  next more =>
    obtain ⟨hlt, h⟩ := hquoted (htext ▸ h) hle
    obtain ⟨cs, rfl⟩ := hopens ['b', '"'] htext hlt
    exact h
  next more =>
    obtain ⟨hlt, h⟩ := hraw (htext ▸ h) hle
    obtain ⟨cs, rfl⟩ := hopens ['b', 'r'] htext hlt
    exact h
  next more =>
    obtain ⟨hlt, h⟩ := hquoted (htext ▸ h) hle
    obtain ⟨cs, rfl⟩ := hopens ['c', '"'] htext hlt
    exact h
  next more =>
    obtain ⟨hlt, h⟩ := hraw (htext ▸ h) hle
    obtain ⟨cs, rfl⟩ := hopens ['c', 'r'] htext hlt
    exact h
  next more =>
    obtain ⟨hlt, h⟩ := hsingle (htext ▸ h) hle
    obtain ⟨cs, rfl⟩ := hopens ['b', '\''] htext hlt
    exact h
  next more =>
    obtain ⟨hlt, h⟩ := hsingle (htext ▸ h) hle
    obtain ⟨cs, rfl⟩ := hopens ['\''] htext hlt
    exact h
  next => cases h

theorem length?_eq_quoted {c : Char} (hc : c.isDigit = false) (cs : List Char) :
    length? (c :: cs) = length?.quoted (c :: cs) := by
  rw [length?, floatLength?_of_not_digit hc, intLength?_of_not_digit hc]
  cases length?.quoted (c :: cs) <;> rfl

/-- What is read alone as a literal is that literal in front of what it does not go on into. -/
theorem length?_ahead (h : length? cs = some cs.length) (hrest : EndsName rest)
    (hmore : ∀ c ∈ rest.head?, goesOn cs c = false) : length? (cs ++ rest) = some cs.length := by
  cases cs with
  | nil => cases h
  | cons c cs =>
    cases hdigit : c.isDigit with
    | true => rw [length?_append_of_digit hdigit hrest hmore, h]
    | false =>
      have hquoted : length?.quoted (c :: cs ++ []) = some (c :: cs).length := by
        rw [List.append_nil, ← length?_eq_quoted hdigit, h]
      rw [List.cons_append, length?_eq_quoted hdigit]
      exact quoted_local EndsName.nil hrest hquoted (Nat.le_refl _)

/-- The characters that literals start with. -/
def heads : List Char := digits ++ ['"', '\'', 'r', 'b', 'c']

theorem head_mem_of_length? {c : Char} (h : length? (c :: cs) = some n) : c ∈ heads := by
  cases hdigit : c.isDigit with
  | true => exact List.mem_append_left _ (mem_digits hdigit)
  | false =>
    refine List.mem_append_right _ ?_
    rw [length?_eq_quoted hdigit] at h
    unfold length?.quoted at h
    split at h <;> simp_all

/-- No literal ends in a blank. -/
theorem getLast?_ne_blank (h : length? cs = some cs.length) : cs.getLast? ≠ some ' ' := by
  intro hlast
  obtain ⟨front, rfl⟩ := List.getLast?_eq_some_iff.mp hlast
  cases front with
  | nil => cases h
  | cons c front =>
    have hparting : Parting [' '] := by simp [Parting]
    rw [length?_append hparting (List.cons_ne_nil c front)] at h
    have hle := length?_le h
    simp at hle

theorem rawLength?_eq_none (hquote : ¬ ['"'] <+: cs) (hhash : ¬ ['#', '"'] <+: cs)
    (hhashes : ¬ ['#', '#'] <+: cs) : rawLength? k cs = none := by
  rcases cs with _ | ⟨c, cs⟩
  · rfl
  by_cases hc : c = '#'
  · subst hc
    rcases cs with _ | ⟨d, cs⟩
    · rfl
    · simp at hhash hhashes
      simp [rawLength?, Ne.symm hhash, Ne.symm hhashes]
  · simp at hquote
    simp [rawLength?, Ne.symm hquote, hc]

/-- What opens no literal is none. -/
theorem quoted_eq_none (hopens : Token.opensLiteral cs = false) (hquote : cs.head? ≠ some '"')
    (hsingle : ∀ more, cs = '\'' :: more → singleLength? .text more = none) :
    length?.quoted cs = none := by
  have hraw : ∀ {k : Content} {more : List Char}, ¬ ['"'] <+: more → ¬ ['#'] <+: more →
      rawLength? k more = none := fun hmark hhash =>
    rawLength?_eq_none hmark (fun h => hhash ((List.prefix_append ['#'] ['"']).trans h))
      fun h => hhash ((List.prefix_append ['#'] ['#']).trans h)
  -- Each opening of a literal apart from the quotes is one of the marks that `opensLiteral` tries.
  rw [Token.opensLiteral, List.any_eq_false] at hopens
  simp [startsWith] at hopens
  unfold length?.quoted
  split
  next => exact absurd rfl hquote
  next more =>
    simp at hopens
    rw [rawAfter?, List.drop_one, List.tail_cons, rawLength?_eq_none hopens.1 hopens.2.1 hopens.2.2,
      Option.map_none]
  next more => simp at hopens
  next more =>
    simp at hopens
    rw [rawAfter?, List.drop_succ_cons, List.drop_one, List.tail_cons, hraw hopens.1 hopens.2,
      Option.map_none]
  next more => simp at hopens
  next more =>
    simp at hopens
    rw [rawAfter?, List.drop_succ_cons, List.drop_one, List.tail_cons, hraw hopens.1 hopens.2,
      Option.map_none]
  next more => simp at hopens
  next more => rw [singleAfter?, List.drop_one, List.tail_cons, hsingle more rfl, Option.map_none]
  next => rfl

end Literal

namespace Token

variable {p : Position} {t : Token}

theorem head_of_nameLength? (h : nameLength? cs = some n) :
    ∃ c more, cs = c :: more ∧ isIdentStart c = true := by
  cases cs with
  | nil => cases h
  | cons c cs =>
    refine ⟨c, cs, rfl, ?_⟩
    unfold nameLength? at h
    split at h
    next hraw =>
      obtain ⟨name, hname⟩ := List.isPrefixOf_iff_prefix.mp hraw
      rw [← (List.cons.inj hname).1]
      decide
    next =>
      rw [Literal.identLength?] at h
      split at h
      next hc => exact hc
      next => cases h

/-- What is read as a token but not as a literal opens none. -/
theorem opensLiteral_of_leaf? (hnone : Literal.length? cs = none) (h : leaf? p cs = some (t, n)) :
    opensLiteral cs = false := by
  by_contra hopens
  rw [Bool.not_eq_false] at hopens
  obtain ⟨s, hs, hstarts⟩ := List.any_eq_true.mp hopens
  have hletter : ∀ s ∈ ["r\"", "r#\"", "r##", "b\"", "b'", "br\"", "br#", "c\"", "cr\"", "cr#"],
      s.toList.head? = some 'r' ∨ s.toList.head? = some 'b' ∨ s.toList.head? = some 'c' := by decide
  -- No mark and no unreadable literal starts with the letter of one.
  obtain ⟨c, hc, hslash, hopening, hmark⟩ :
      ∃ c, s.toList.head? = some c ∧ c ≠ '/' ∧ c ≠ '(' ∧ isMark c = false := by
    rcases hletter s hs with hc | hc | hc <;>
      exact ⟨_, hc, by decide, by decide, by decide⟩
  obtain ⟨marks, hmarks⟩ := List.head?_eq_some_iff.mp hc
  obtain ⟨more, rfl⟩ := List.isPrefixOf_iff_prefix.mp hstarts
  rw [hmarks, List.cons_append] at h hnone hopens
  have hstart : startsMark (c :: (marks ++ more)) = false := by simp [startsMark, hmark]
  have herror : startsWith errorMark (c :: (marks ++ more)) = false :=
    startsWith_cons_of_ne rfl hopening
  simp [leaf?, hnone, hstart, hopens, leaf?.errorLiteral?, herror] at h

theorem head_of_leaf? (hnone : Literal.length? cs = none) (h : leaf? p cs = some (t, n)) :
    cs.head? ≠ some '"' := by
  intro hquote
  obtain ⟨more, rfl⟩ := List.head?_eq_some_iff.mp hquote
  have hstart : startsMark ('"' :: more) = false := rfl
  have hopens : opensLiteral ('"' :: more) = false := rfl
  have hname : nameLength? ('"' :: more) = none := rfl
  have herror : startsWith errorMark ('"' :: more) = false := rfl
  simp [leaf?, hnone, hstart, hopens, hname, leaf?.errorLiteral?, herror] at h

/-- A mark that stands for a lifetime has its name before whatever breaks the text off. -/
theorem name_of_leaf?_quote (hrest : Halts rest) (hnone : Literal.length? ('\'' :: (cs ++ rest)) = none)
    (h : leaf? p ('\'' :: (cs ++ rest)) = some (t, n)) : ∃ d ds, cs = d :: ds ∧ d ≠ '\\' := by
  have hstart : startsMark ('\'' :: (cs ++ rest)) = true := rfl
  have hquote : startsWith "'" ('\'' :: (cs ++ rest)) = true := rfl
  simp only [leaf?, hnone, hstart, hquote, if_true] at h
  split at h
  next hlife =>
    unfold startsLifetime at hlife
    rw [List.tail_cons, nameLength?_append hrest] at hlife
    split at hlife
    next m hm =>
      obtain ⟨c, cs', rfl, hc⟩ := head_of_nameLength? hm
      exact ⟨c, cs', rfl, isIdentStart_ne hc (by decide)⟩
    next => cases hlife
  next => cases h

/-- What is read as a token is the same literal, or none, whatever stands behind it. -/
theorem length?_local_of_leaf? (hrest : Halts rest) (hrest' : Halts rest')
    (h : leaf? p (cs ++ rest) = some (t, n)) (hle : n ≤ cs.length) :
    Literal.length? (cs ++ rest') = Literal.length? (cs ++ rest) := by
  cases cs with
  | nil => exact absurd hle (Nat.not_le_of_lt (leaf?_eq_some h).pos)
  | cons c cs =>
    by_cases hdigit : c.isDigit = true
    · have hsame : ∀ {rest}, Halts rest →
          Literal.length? (c :: cs ++ rest) = Literal.length? (c :: cs) := fun hrest =>
        Literal.length?_append_of_digit hdigit hrest.ends.name (Literal.goesOn_of_ends hrest.ends _)
      exact (hsame hrest').trans (hsame hrest).symm
    rw [Bool.not_eq_true] at hdigit
    have hlength := Literal.length?_eq_quoted hdigit
    rw [List.cons_append, List.cons_append, hlength, hlength]
    rw [List.cons_append] at h
    cases hquoted : Literal.length?.quoted (c :: (cs ++ rest)) with
    | some m =>
      have hn : m = n := by
        simp only [leaf?, (hlength _).trans hquoted] at h
        exact (Prod.mk.inj (Option.some.inj h)).2
      rw [hn] at hquoted ⊢
      exact Literal.quoted_local hrest.ends.name hrest'.ends.name hquoted hle
    | none =>
      have hnone := (hlength (cs ++ rest)).trans hquoted
      have hopens : opensLiteral (c :: cs ++ rest') = false := by
        have hfront := opensLiteral_of_leaf? hnone h
        rw [← List.cons_append, opensLiteral_append hrest] at hfront
        rw [opensLiteral_append hrest', hfront]
      have hhead := head_of_leaf? hnone h
      refine Literal.quoted_eq_none hopens hhead fun more hmore => ?_
      -- A single character in quotes would have been found before `rest`.
      obtain ⟨rfl, rfl⟩ := List.cons.inj hmore
      obtain ⟨d, ds, rfl, hd⟩ := name_of_leaf?_quote hrest hnone h
      have hsingle : Literal.singleLength? .text (d :: (ds ++ rest)) = none := by
        simpa [Literal.length?.quoted, Literal.singleAfter?] using hquoted
      rw [Literal.singleLength?_cons hd] at hsingle
      rw [List.cons_append, Literal.singleLength?_cons hd]
      cases ds with
      | nil =>
        cases rest' with
        | nil => rfl
        | cons e rest' => simp [hrest'.head_ne (d := '\'') (by decide)]
      | cons e ds => exact hsingle

/-- **What is read as a token does not depend on what stands behind it**, if that starts with what
breaks the text off and is or is not a mark in both cases. -/
theorem leaf?_local (hrest : Halts rest) (hrest' : Halts rest')
    (hmark : startsMark rest' = startsMark rest) (h : leaf? p (cs ++ rest) = some (t, n))
    (hle : n ≤ cs.length) (herror : startsWith errorMark (cs ++ rest) = startsWith errorMark cs)
    (herror' : startsWith errorMark (cs ++ rest') = startsWith errorMark cs) :
    leaf? p (cs ++ rest') = some (t, n) := by
  have hcs : cs ≠ [] := by
    rintro rfl
    exact absurd hle (Nat.not_le_of_lt (leaf?_eq_some h).pos)
  have hwithin : ∀ m, Literal.length? (cs ++ rest) = some m → m ≤ cs.length := by
    intro m hm
    simp only [leaf?, hm] at h
    rw [(Prod.mk.inj (Option.some.inj h)).2]
    exact hle
  have hliteral := length?_local_of_leaf? hrest hrest' h hle
  exact (leaf?_congr hrest hrest' hmark hcs hliteral hwithin herror herror').trans h

end Token

end Graft

import Mathlib.Data.List.TakeWhile
import Graft.Proofs.Token.Word
import Graft.Toml.Reader

/-!
# TOML texts that go on

A part of a TOML text is read as before when the text goes on behind a line end: no key, no word and
no text reaches over the line end unless it has not ended before. So a text that is read on its own
is read in front of further lines, too, and these are read behind what it has defined.
-/

namespace Graft.Toml

/-- The first text is a line end with the second one behind it. -/
inductive LineBreak : List Char → List Char → Prop where
  | newline (rest : List Char) : LineBreak ('\n' :: rest) rest
  | carriage (rest : List Char) : LineBreak ('\r' :: '\n' :: rest) rest

/-- A text that begins with a line end. -/
def Breaks (more : List Char) : Prop := ∃ rest, LineBreak more rest

variable {cs more rest : List Char}

theorem Breaks.head (h : Breaks more) : ∃ c rest, more = c :: rest ∧ (c = '\n' ∨ c = '\r') := by
  obtain ⟨rest, h⟩ := h
  cases h with
  | newline => exact ⟨_, _, rfl, .inl rfl⟩
  | carriage => exact ⟨_, _, rfl, .inr rfl⟩

/-! ## Stretches of characters -/

theorem takeWhile_append {p : Char → Bool} (h : Breaks more) (hnewline : p '\n' = false)
    (hreturn : p '\r' = false) (cs : List Char) : (cs ++ more).takeWhile p = cs.takeWhile p := by
  obtain ⟨c, rest, rfl, rfl | rfl⟩ := h.head
  all_goals
    induction cs with
    | nil => simp [hnewline, hreturn]
    | cons d cs ih => simp only [List.cons_append, List.takeWhile_cons, ih]

theorem dropWhile_append {p : Char → Bool} (h : Breaks more) (hnewline : p '\n' = false)
    (hreturn : p '\r' = false) (cs : List Char) :
    (cs ++ more).dropWhile p = cs.dropWhile p ++ more := by
  obtain ⟨c, rest, rfl, rfl | rfl⟩ := h.head
  all_goals
    induction cs with
    | nil => simp [hnewline, hreturn]
    | cons d cs ih =>
      simp only [List.cons_append, List.dropWhile_cons, ih]
      split <;> rfl

theorem skipSpaces_append (h : Breaks more) (cs : List Char) :
    skipSpaces (cs ++ more) = skipSpaces cs ++ more := dropWhile_append h rfl rfl cs

/-- What stands behind blanks is none. -/
theorem isSpace_head {c : Char} {tail : List Char} (h : skipSpaces cs = c :: tail) :
    isSpace c = false := by
  have hhead := List.head?_dropWhile_not isSpace cs
  rw [← skipSpaces, h] at hhead
  exact hhead

theorem drop_append {n : Nat} (h : n ≤ cs.length) (more : List Char) :
    (cs ++ more).drop n = cs.drop n ++ more := List.drop_append_of_le_length h

theorem drop_takeWhile_append (p : Char → Bool) (cs more : List Char) :
    (cs ++ more).drop (cs.takeWhile p).length = cs.drop (cs.takeWhile p).length ++ more :=
  drop_append (List.takeWhile_prefix p).length_le more

/-! ## Texts in quotes -/

theorem codedChar?_append {n : Nat} {found : Char × Nat} (h : codedChar? n cs = some found)
    (more : List Char) : codedChar? n (cs ++ more) = some found ∧ found.2 ≤ cs.length + 1 := by
  simp only [codedChar?] at h ⊢
  split at h
  next hdigits =>
    have hlength : n ≤ cs.length := by
      simp only [Bool.and_eq_true, decide_eq_true_eq] at hdigits
      rw [← hdigits.1.1]
      exact List.length_take_le' n cs
    rw [List.take_append_of_le_length hlength, if_pos hdigits, h]
    refine ⟨rfl, ?_⟩
    rw [← Option.some.inj h]
    omega
  · cases h

theorem escape?_append {found : Char × Nat} (h : escape? cs = some found) (more : List Char) :
    escape? (cs ++ more) = some found ∧ found.2 ≤ cs.length := by
  cases cs with
  | nil => cases h
  | cons c cs =>
    rw [List.cons_append, escape?]
    rw [escape?] at h
    split at h
    next hshort =>
      rw [if_pos hshort]
      exact codedChar?_append h more
    next hshort =>
      rw [if_neg hshort]
      split at h
      next hlong =>
        rw [if_pos hlong]
        exact codedChar?_append h more
      next hlong =>
        rw [if_neg hlong, h]
        obtain ⟨d, -, rfl⟩ := Option.map_eq_some_iff.mp h
        exact ⟨rfl, Nat.succ_le_succ (Nat.zero_le _)⟩

theorem basic_append {s : List Char} (h : basic cs = some (s, rest)) (more : List Char) :
    basic (cs ++ more) = some (s, rest ++ more) := by
  fun_induction basic cs generalizing s rest with
  | case1 => cases h
  | case2 cs =>
    obtain ⟨rfl, rfl⟩ := Prod.mk.inj (Option.some.inj h)
    rw [List.cons_append, basic, if_pos rfl]
  | case3 => cases h
  | case4 cs d n hescape hquote ih =>
    obtain ⟨⟨s', rest'⟩, hread, heq⟩ := Option.map_eq_some_iff.mp h
    obtain ⟨rfl, rfl⟩ := Prod.mk.inj heq
    obtain ⟨hescape', hlength⟩ := escape?_append hescape more
    rw [List.cons_append, basic, if_neg hquote, if_pos rfl]
    simp only [hescape']
    rw [drop_append hlength, ih hread]
    rfl
  | case5 c cs hquote hslash htext ih =>
    obtain ⟨⟨s', rest'⟩, hread, heq⟩ := Option.map_eq_some_iff.mp h
    obtain ⟨rfl, rfl⟩ := Prod.mk.inj heq
    rw [List.cons_append, basic, if_neg hquote, if_neg hslash, if_pos htext, ih hread]
    rfl
  | case6 => cases h

theorem literal_append {s : List Char} (h : literal cs = some (s, rest)) (more : List Char) :
    literal (cs ++ more) = some (s, rest ++ more) := by
  fun_induction literal cs generalizing s rest with
  | case1 => cases h
  | case2 cs =>
    obtain ⟨rfl, rfl⟩ := Prod.mk.inj (Option.some.inj h)
    rw [List.cons_append, literal, if_pos rfl]
  | case3 c cs hquote htext ih =>
    obtain ⟨⟨s', rest'⟩, hread, heq⟩ := Option.map_eq_some_iff.mp h
    obtain ⟨rfl, rfl⟩ := Prod.mk.inj heq
    rw [List.cons_append, literal, if_neg hquote, if_pos htext, ih hread]
    rfl
  | case4 => cases h

theorem closing?_append {quote : Char} (h : Breaks more) (hnewline : '\n' ≠ quote)
    (hreturn : '\r' ≠ quote) (cs : List Char) : closing? quote (cs ++ more) =
      (closing? quote cs).map fun (quotes, rest) => (quotes, rest ++ more) := by
  have hlength : min 5 (cs.takeWhile (· = quote)).length ≤ cs.length :=
    (Nat.min_le_right _ _).trans (List.takeWhile_prefix _).length_le
  simp only [closing?]
  rw [takeWhile_append h (decide_eq_false hnewline) (decide_eq_false hreturn),
    drop_append hlength]
  split <;> rfl

/-- Behind a margin no line end follows. -/
theorem marginLength_stops (cs tail : List Char) :
    cs.drop (marginLength cs) ≠ '\r' :: '\n' :: tail := by
  fun_induction marginLength cs with
  | case1 cs ih => exact ih
  | case2 c cs hpair hblank ih => exact ih
  | case3 c cs hpair hblank =>
    rw [List.drop_zero]
    intro h
    obtain ⟨rfl, htail⟩ := List.cons.inj h
    exact hpair tail rfl htail
  | case4 => simp

theorem marginLength_append {c : Char} (hrest : cs.drop (marginLength cs) = c :: rest)
    (hc : c ≠ '\r') (more : List Char) : marginLength (cs ++ more) = marginLength cs := by
  fun_induction marginLength cs with
  | case1 cs ih => rw [List.cons_append, List.cons_append, marginLength, ih hrest]
  | case2 d cs hpair hblank ih =>
    rw [List.cons_append, marginLength, if_pos hblank, ih hrest]
    rintro tail rfl
    exact absurd hblank (by decide)
  | case3 d cs hpair hblank =>
    obtain ⟨rfl, -⟩ := List.cons.inj hrest
    rw [List.cons_append, marginLength, if_neg hblank]
    exact fun tail hd => absurd hd hc
  | case4 => cases hrest

/-- An escape is neither a blank nor a line end. -/
theorem escape?_head {c : Char} {found : Char × Nat} (h : escape? (c :: cs) = some found) :
    isSpace c = false ∧ c ≠ '\n' ∧ c ≠ '\r' := by
  have hnone : ∀ d ∈ [' ', '\t', '\n', '\r'], escape? (d :: cs) = none := by
    intro d hd
    simp only [List.mem_cons, List.not_mem_nil, or_false] at hd
    rcases hd with rfl | rfl | rfl | rfl <;> rfl
  have hne : ∀ d ∈ [' ', '\t', '\n', '\r'], c ≠ d := by
    rintro d hd rfl
    rw [hnone c hd] at h
    cases h
  simp only [List.mem_cons, List.not_mem_nil, or_false, forall_eq_or_imp, forall_eq] at hne
  simp [isSpace, hne]

theorem continuation?_of_escape {found : Char × Nat} (h : escape? cs = some found)
    (more : List Char) : continuation? (cs ++ more) = none := by
  cases cs with
  | nil => cases h
  | cons c cs =>
    obtain ⟨hspace, hnewline, hreturn⟩ := escape?_head h
    have hskip : skipSpaces (c :: (cs ++ more)) = c :: (cs ++ more) :=
      List.dropWhile_cons_of_neg (by simp [hspace])
    rw [List.cons_append, continuation?, hskip]
    split
    next heq => exact absurd (List.cons.inj heq).1 hnewline
    next heq => exact absurd (List.cons.inj heq).1 hreturn
    next => rfl

theorem eq_marginLength {n : Nat} (h : continuation? cs = some n) : n = marginLength cs := by
  simp only [continuation?] at h
  split at h
  case h_3 => cases h
  all_goals exact (Option.some.inj h).symm

theorem continuation?_append {n : Nat} {c : Char} (hmore : Breaks more)
    (h : continuation? cs = some n) (hrest : cs.drop n = c :: rest) (hc : c ≠ '\r') :
    continuation? (cs ++ more) = some n := by
  simp only [continuation?] at h ⊢
  rw [skipSpaces_append hmore]
  split at h
  case h_3 => cases h
  all_goals
    next hskip =>
      obtain rfl := Option.some.inj h
      rw [hskip]
      exact congrArg some (marginLength_append hrest hc more)

theorem longBasic_return {s : List Char} (h : longBasic ('\r' :: cs) = some (s, rest)) :
    ∃ tail, cs = '\n' :: tail := by
  have hclosing : closing? '"' ('\r' :: cs) = none := rfl
  rw [longBasic, hclosing] at h
  simp only [reduceIte, Char.reduceEq] at h
  split at h
  next hhead => exact List.head?_eq_some_iff.mp hhead
  · cases h

theorem closing?_append_eq_none {quote c : Char} (hmore : Breaks more) (hnewline : '\n' ≠ quote)
    (hreturn : '\r' ≠ quote) (h : closing? quote (c :: cs) = none) :
    closing? quote (c :: (cs ++ more)) = none := by
  rw [← List.cons_append, closing?_append hmore hnewline hreturn, h]
  rfl

theorem longBasic_append {s : List Char} (hmore : Breaks more)
    (h : longBasic cs = some (s, rest)) : longBasic (cs ++ more) = some (s, rest ++ more) := by
  have hclosing {c : Char} {cs : List Char} (hnone : closing? '"' (c :: cs) = none) :
      closing? '"' (c :: (cs ++ more)) = none :=
    closing?_append_eq_none hmore (by decide) (by decide) hnone
  fun_induction longBasic cs generalizing s rest with
  | case1 => cases h
  | case2 c cs found hfound =>
    obtain rfl := Option.some.inj h
    have hfound' : closing? '"' (c :: cs ++ more) = _ :=
      closing?_append hmore (by decide) (by decide) (c :: cs)
    rw [List.cons_append] at hfound' ⊢
    rw [longBasic, hfound', hfound]
    rfl
  | case3 cs n hcontinues hnone ih =>
    obtain ⟨c, tail, hdrop, hc⟩ : ∃ c tail, cs.drop n = c :: tail ∧ c ≠ '\r' := by
      cases hdrop : cs.drop n with
      | nil =>
        rw [hdrop, longBasic] at h
        cases h
      | cons c tail =>
        refine ⟨c, tail, rfl, ?_⟩
        rintro rfl
        rw [hdrop] at h
        obtain ⟨tail', rfl⟩ := longBasic_return h
        -- A line end behind the margin would belong to it.
        rw [eq_marginLength hcontinues] at hdrop
        exact absurd hdrop (marginLength_stops cs tail')
    have hlength : n ≤ cs.length := by
      by_contra hlong
      rw [List.drop_eq_nil_of_le (by omega)] at hdrop
      cases hdrop
    rw [List.cons_append, longBasic, hclosing hnone]
    simp only [reduceIte, continuation?_append hmore hcontinues hdrop hc]
    rw [drop_append hlength, ih h]
  | case4 => cases h
  | case5 cs hcontinues d n hescape hnone ih =>
    obtain ⟨⟨s', rest'⟩, hread, heq⟩ := Option.map_eq_some_iff.mp h
    obtain ⟨rfl, rfl⟩ := Prod.mk.inj heq
    obtain ⟨hescape', hlength⟩ := escape?_append hescape more
    rw [List.cons_append, longBasic, hclosing hnone]
    simp only [reduceIte, continuation?_of_escape hescape more, hescape']
    rw [drop_append hlength, ih hread]
    rfl
  | case6 cs hhead hnone hslash ih =>
    obtain ⟨⟨s', rest'⟩, hread, heq⟩ := Option.map_eq_some_iff.mp h
    obtain ⟨rfl, rfl⟩ := Prod.mk.inj heq
    obtain ⟨tail, rfl⟩ := List.head?_eq_some_iff.mp hhead
    rw [List.cons_append, longBasic, hclosing hnone]
    simp only [reduceIte, if_neg hslash]
    exact congrArg (Option.map _) (ih hread)
  | case7 => cases h
  | case8 c cs hnone hslash hreturn htext ih =>
    obtain ⟨⟨s', rest'⟩, hread, heq⟩ := Option.map_eq_some_iff.mp h
    obtain ⟨rfl, rfl⟩ := Prod.mk.inj heq
    rw [List.cons_append, longBasic, hclosing hnone]
    simp only [if_neg hslash, if_neg hreturn, if_pos htext, ih hread]
    rfl
  | case9 => cases h

theorem longLiteral_append {s : List Char} (hmore : Breaks more)
    (h : longLiteral cs = some (s, rest)) : longLiteral (cs ++ more) = some (s, rest ++ more) := by
  have hclosing {c : Char} {cs : List Char} (hnone : closing? '\'' (c :: cs) = none) :
      closing? '\'' (c :: (cs ++ more)) = none :=
    closing?_append_eq_none hmore (by decide) (by decide) hnone
  fun_induction longLiteral cs generalizing s rest with
  | case1 => cases h
  | case2 c cs found hfound =>
    obtain rfl := Option.some.inj h
    have hfound' : closing? '\'' (c :: cs ++ more) = _ :=
      closing?_append hmore (by decide) (by decide) (c :: cs)
    rw [List.cons_append] at hfound' ⊢
    rw [longLiteral, hfound', hfound]
    rfl
  | case3 cs hhead hnone ih =>
    obtain ⟨⟨s', rest'⟩, hread, heq⟩ := Option.map_eq_some_iff.mp h
    obtain ⟨rfl, rfl⟩ := Prod.mk.inj heq
    obtain ⟨tail, rfl⟩ := List.head?_eq_some_iff.mp hhead
    rw [List.cons_append, longLiteral, hclosing hnone]
    exact congrArg (Option.map _) (ih hread)
  | case4 => cases h
  | case5 c cs hnone hreturn htext ih =>
    obtain ⟨⟨s', rest'⟩, hread, heq⟩ := Option.map_eq_some_iff.mp h
    obtain ⟨rfl, rfl⟩ := Prod.mk.inj heq
    rw [List.cons_append, longLiteral, hclosing hnone]
    simp only [if_neg hreturn, if_pos htext, ih hread]
    rfl
  | case6 => cases h

/-- The line end at the head of a text is the same, if that text goes on behind it. -/
theorem dropLineEnd_append (hnil : cs ≠ []) (hreturn : cs ≠ ['\r']) (more : List Char) :
    dropLineEnd (cs ++ more) = dropLineEnd cs ++ more := by
  fun_cases dropLineEnd cs with
  | case1 cs => rfl
  | case2 cs => rfl
  | case3 _ hnewline hpair =>
    match cs with
    | [] => exact absurd rfl hnil
    | [c] =>
      have hc : c ≠ '\n' := fun hc => hnewline [] (hc ▸ rfl)
      have hc' : c ≠ '\r' := fun hc => hreturn (hc ▸ rfl)
      rw [List.singleton_append, dropLineEnd]
      · exact fun tail heq => hc (List.cons.inj heq).1
      · exact fun tail heq => hc' (List.cons.inj heq).1
    | c :: d :: cs =>
      rw [List.cons_append, List.cons_append, dropLineEnd]
      · exact fun tail heq => hnewline (d :: cs) (by rw [(List.cons.inj heq).1])
      · intro tail heq
        obtain ⟨rfl, htail⟩ := List.cons.inj heq
        exact hpair cs (by rw [(List.cons.inj htail).1])

theorem read_dropLineEnd_append {read : Reader (List Char)} {s : List Char}
    (hnil : read [] = none) (hreturn : read ['\r'] = none)
    (happend : ∀ {cs rest}, read cs = some (s, rest) → read (cs ++ more) = some (s, rest ++ more))
    (h : read (dropLineEnd cs) = some (s, rest)) :
    read (dropLineEnd (cs ++ more)) = some (s, rest ++ more) := by
  have hcs : cs ≠ [] := by
    rintro rfl
    exact absurd (hnil.symm.trans h) (by simp)
  have hcs' : cs ≠ ['\r'] := by
    rintro rfl
    exact absurd (hreturn.symm.trans h) (by simp)
  rw [dropLineEnd_append hcs hcs']
  exact happend h

theorem startsWith_append {marks : String} (hmore : Breaks more) (hnewline : '\n' ∉ marks.toList)
    (hreturn : '\r' ∉ marks.toList) (cs : List Char) :
    startsWith marks (cs ++ more) = startsWith marks cs := by
  obtain ⟨d, tail, rfl, hd⟩ := hmore.head
  refine startsWith_append_of_head (fun c hc => ?_) cs
  obtain rfl : d = c := Option.some.inj hc
  rcases hd with rfl | rfl
  · exact hnewline
  · exact hreturn

theorem drop_three_append {marks : String} (h : startsWith marks cs)
    (hthree : marks.toList.length = 3) (more : List Char) :
    (cs ++ more).drop 3 = cs.drop 3 ++ more := by
  refine drop_append ?_ more
  rw [← hthree]
  exact (List.isPrefixOf_iff_prefix.mp h).length_le

theorem anyText_append {s : List Char} (hmore : Breaks more) (h : anyText cs = some (s, rest)) :
    anyText (cs ++ more) = some (s, rest ++ more) := by
  unfold anyText at h ⊢
  rw [startsWith_append hmore (by decide) (by decide),
    startsWith_append hmore (by decide) (by decide)]
  split at h
  next hlong =>
    rw [if_pos hlong, drop_three_append hlong (by decide)]
    exact read_dropLineEnd_append (by rw [longBasic]) (by rw [longBasic]; rfl)
      (longBasic_append hmore) h
  next hlong =>
  rw [if_neg hlong]
  split at h
  next hlong =>
    rw [if_pos hlong, drop_three_append hlong (by decide)]
    exact read_dropLineEnd_append (by rw [longLiteral]) (by rw [longLiteral]; rfl)
      (longLiteral_append hmore) h
  next hlong =>
  rw [if_neg hlong]
  split at h
  · exact basic_append h more
  · exact literal_append h more
  · cases h

/-! ## Keys -/

theorem key_append {k : String} (hmore : Breaks more) (h : key cs = some (k, rest)) :
    key (cs ++ more) = some (k, rest ++ more) := by
  unfold key at h
  split at h
  · obtain ⟨⟨s, rest'⟩, hread, heq⟩ := Option.map_eq_some_iff.mp h
    obtain ⟨rfl, rfl⟩ := Prod.mk.inj heq
    rw [List.cons_append, key, basic_append hread]
    rfl
  · obtain ⟨⟨s, rest'⟩, hread, heq⟩ := Option.map_eq_some_iff.mp h
    obtain ⟨rfl, rfl⟩ := Prod.mk.inj heq
    rw [List.cons_append, key, literal_append hread]
    rfl
  next hquote hsingle =>
    have hname := takeWhile_append (p := isKeyChar) hmore (by decide) (by decide) cs
    have hdrop := drop_takeWhile_append isKeyChar cs more
    cases cs with
    | nil => cases h
    | cons c cs =>
      rw [List.cons_append] at hname hdrop ⊢
      unfold key
      split
      next heq => exact absurd (by rw [(List.cons.inj heq).1]) (hquote cs)
      next heq => exact absurd (by rw [(List.cons.inj heq).1]) (hsingle cs)
      next =>
        simp only [hname, hdrop] at h ⊢
        split at h
        · cases h
        next hnonempty =>
          obtain ⟨rfl, rfl⟩ := Prod.mk.inj (Option.some.inj h)
          rw [if_neg hnonempty]

/-- A line end begins with no other character. -/
theorem Breaks.head_ne {c : Char} (h : Breaks more) (hnewline : c ≠ '\n') (hreturn : c ≠ '\r')
    (hcs : ∀ tail, cs ≠ c :: tail) (tail : List Char) : cs ++ more ≠ c :: tail := by
  cases cs with
  | nil =>
    obtain ⟨d, tail', rfl, rfl | rfl⟩ := h.head
    · exact fun heq => hnewline (List.cons.inj heq).1.symm
    · exact fun heq => hreturn (List.cons.inj heq).1.symm
  | cons d cs => exact fun heq => hcs cs (by rw [(List.cons.inj heq).1])

theorem keysFrom_append {ks : List String} (hmore : Breaks more)
    (h : keysFrom cs = some (ks, rest)) : keysFrom (cs ++ more) = some (ks, rest ++ more) := by
  fun_induction keysFrom cs generalizing ks rest with
  | case1 => cases h
  | case2 cs k rest' hkey tail hdot hlength ih =>
    obtain ⟨⟨ks', rest''⟩, hread, heq⟩ := Option.map_eq_some_iff.mp h
    obtain ⟨rfl, rfl⟩ := Prod.mk.inj heq
    have hlonger : (tail ++ more).length < (cs ++ more).length := by
      simp only [List.length_append]
      omega
    rw [keysFrom, skipSpaces_append hmore, key_append hmore hkey]
    simp only [skipSpaces_append hmore, hdot, List.cons_append]
    rw [if_pos hlonger, ih hread]
    rfl
  | case3 => cases h
  | case4 cs k rest' hkey hdot =>
    obtain ⟨rfl, rfl⟩ := Prod.mk.inj (Option.some.inj h)
    rw [keysFrom, skipSpaces_append hmore, key_append hmore hkey]
    simp only [skipSpaces_append hmore]
    split
    next tail heq => exact absurd heq (hmore.head_ne (by decide) (by decide) hdot tail)
    next => rfl

theorem keys_append {ks : List String} (hmore : Breaks more) (h : keys cs = some (ks, rest)) :
    keys (cs ++ more) = some (ks, rest ++ more) := by
  obtain ⟨⟨ks', rest'⟩, hread, hdepth⟩ := Option.bind_eq_some_iff.mp h
  change (if ks'.length < depthBound then some (ks', rest') else none) = some (ks, rest) at hdepth
  have hshallow : ks'.length < depthBound := by
    by_contra hdeep
    rw [if_neg hdeep] at hdepth
    cases hdepth
  rw [if_pos hshallow] at hdepth
  obtain ⟨rfl, rfl⟩ := Prod.mk.inj (Option.some.inj hdepth)
  rw [keys, keysFrom_append hmore hread]
  exact if_pos hshallow

theorem expectChar_append {c : Char} (h : expectChar c cs = some rest) (more : List Char) :
    expectChar c (cs ++ more) = some (rest ++ more) := by
  cases cs with
  | nil => cases h
  | cons d cs =>
    rw [List.cons_append, expectChar]
    rw [expectChar] at h
    split at h
    next hsame => rw [if_pos hsame, Option.some.inj h]
    · cases h

/-! ## Words -/

theorem momentWords_append {v : Toml} (hmore : Breaks more) (h : momentWords cs = some (v, rest)) :
    momentWords (cs ++ more) = some (v, rest ++ more) := by
  simp only [momentWords] at h ⊢
  rw [takeWhile_append hmore (by decide) (by decide), drop_takeWhile_append]
  generalize cs.takeWhile isWordChar = word at h ⊢
  split at h
  next hdate =>
    split at h
    next tail hspace =>
      -- A time may follow behind a blank, and ends before the line does.
      simp only [hspace, List.cons_append]
      rw [takeWhile_append hmore (by decide) (by decide), drop_takeWhile_append]
      split at h
      next htime =>
        obtain ⟨rfl, rfl⟩ := Prod.mk.inj (Option.some.inj h)
        rw [if_pos htime]
      next htime =>
        obtain ⟨rfl, rfl⟩ := Prod.mk.inj (Option.some.inj h)
        rw [if_neg htime, hspace]
        rfl
    next hspace =>
      obtain ⟨rfl, rfl⟩ := Prod.mk.inj (Option.some.inj h)
      split
      next tail heq =>
        exact absurd heq (hmore.head_ne (by decide) (by decide) (fun tail => hspace tail) tail)
      next => rfl
  next c tail hdate =>
    split at h
    next htime =>
      obtain ⟨rfl, rfl⟩ := Prod.mk.inj (Option.some.inj h)
      rw [if_pos htime]
    · cases h
  next hdate =>
    split at h
    next htime =>
      obtain ⟨rfl, rfl⟩ := Prod.mk.inj (Option.some.inj h)
      rw [if_pos htime]
    · cases h

theorem scalar_append {v : Toml} (hmore : Breaks more) (h : scalar cs = some (v, rest)) :
    scalar (cs ++ more) = some (v, rest ++ more) := by
  have hmoment : momentWords cs = some (v, rest) →
      momentWords (cs ++ more) = some (v, rest ++ more) := momentWords_append hmore
  simp only [scalar] at h ⊢
  rw [takeWhile_append hmore (by decide) (by decide), drop_takeWhile_append]
  split at h
  next htrue =>
    obtain ⟨rfl, rfl⟩ := Prod.mk.inj (Option.some.inj h)
    rw [if_pos htrue]
  next htrue =>
  rw [if_neg htrue]
  split at h
  next hfalse =>
    obtain ⟨rfl, rfl⟩ := Prod.mk.inj (Option.some.inj h)
    rw [if_pos hfalse]
  next hfalse =>
  rw [if_neg hfalse]
  split at h
  next value hnumber =>
    obtain ⟨rfl, rfl⟩ := Prod.mk.inj (Option.some.inj h)
    rfl
  next hnumber =>
    exact hmoment h

/-! ## Values -/

theorem skipLines_append {inComment : Bool} {c : Char}
    (h : skipLines inComment cs = some (c :: rest)) (hc : c ≠ '\r') (more : List Char) :
    skipLines inComment (cs ++ more) = some (c :: (rest ++ more)) := by
  fun_induction skipLines inComment cs with
  | case1 => cases h
  | case2 => cases h
  | case3 inComment cs ih =>
    rw [List.cons_append, List.cons_append, skipLines]
    exact ih h
  | case4 inComment cs hpair ih =>
    rw [List.cons_append, skipLines, if_pos rfl]
    · exact ih h
    · simp
  | case5 d cs hpair hnewline htext ih =>
    rw [List.cons_append, skipLines, if_neg hnewline, if_pos rfl, if_pos htext]
    · exact ih h
    · rintro tail rfl
      exact absurd htext (by decide)
  | case6 => cases h
  | case7 inComment d cs hpair hnewline hcomment hspace ih =>
    rw [List.cons_append, skipLines, if_neg hnewline, if_neg hcomment, if_pos hspace]
    · exact ih h
    · rintro tail rfl
      exact absurd hspace (by decide)
  | case8 inComment cs hcomment hpair hnewline hspace ih =>
    rw [List.cons_append, skipLines, if_neg hnewline, if_neg hcomment, if_neg hspace, if_pos rfl]
    · exact ih h
    · simp
  | case9 inComment d cs hpair hnewline hcomment hspace hhash =>
    obtain ⟨rfl, rfl⟩ := List.cons.inj (Option.some.inj h)
    rw [List.cons_append, skipLines, if_neg hnewline, if_neg hcomment, if_neg hspace, if_neg hhash]
    exact fun tail hreturn => absurd hreturn hc

/-- A reader that finds the same when the text goes on behind a line end, and nothing at a line
end. -/
structure Extends {α : Type} (read : Reader α) (more : List Char) : Prop where
  append : ∀ {cs v rest}, read cs = some (v, rest) → read (cs ++ more) = some (v, rest ++ more)
  nil : read [] = none
  carriage : ∀ cs, read ('\r' :: cs) = none

/-- What is read begins with a character that no line end begins with. -/
theorem Extends.head {α : Type} {read : Reader α} (h : Extends read more) {v : α}
    (hread : read cs = some (v, rest)) : ∃ c tail, cs = c :: tail ∧ c ≠ '\r' := by
  match cs with
  | [] => exact absurd (h.nil.symm.trans hread) (by simp)
  | c :: tail =>
    refine ⟨c, tail, rfl, ?_⟩
    rintro rfl
    exact absurd ((h.carriage tail).symm.trans hread) (by simp)

theorem items_append {item : Reader Toml} (hitem : Extends item more) {vs : List Toml}
    (h : items item cs = some (vs, rest)) : items item (cs ++ more) = some (vs, rest ++ more) := by
  fun_induction items item cs generalizing vs rest with
  | case1 cs rest₁ hclose =>
    obtain ⟨rfl, rfl⟩ := Prod.mk.inj (Option.some.inj h)
    rw [items, skipLines_append hclose (by decide)]
    rfl
  | case2 => cases h
  | case3 cs here hopen hskip value rest₁ hread rest₂ hclose =>
    obtain ⟨rfl, rfl⟩ := Prod.mk.inj (Option.some.inj h)
    obtain ⟨c, tail, rfl, hc⟩ := hitem.head hread
    have hread' := hitem.append hread
    rw [List.cons_append] at hread'
    rw [items, skipLines_append hskip hc]
    split
    next tail' heq => exact (hopen tail (by rw [(List.cons.inj (Option.some.inj heq)).1])).elim
    next here _ heq =>
      obtain rfl := Option.some.inj heq
      simp only [hread', skipLines_append hclose (by decide : ']' ≠ '\r')]
    next heq => cases heq
  | case4 cs here hopen hskip value rest₁ hread rest₂ hcomma hlength ih =>
    obtain ⟨⟨vs', rest₃⟩, hrest, heq⟩ := Option.map_eq_some_iff.mp h
    obtain ⟨rfl, rfl⟩ := Prod.mk.inj heq
    obtain ⟨c, tail, rfl, hc⟩ := hitem.head hread
    have hread' := hitem.append hread
    rw [List.cons_append] at hread'
    -- The reader checks that it goes on, which more text does not change.
    have hlonger : (rest₂ ++ more).length < (cs ++ more).length := by
      simp only [List.length_append]
      omega
    rw [items, skipLines_append hskip hc]
    split
    next tail' heq => exact (hopen tail (by rw [(List.cons.inj (Option.some.inj heq)).1])).elim
    next here _ heq =>
      obtain rfl := Option.some.inj heq
      simp only [hread', skipLines_append hcomma (by decide : ',' ≠ '\r'), if_pos hlonger, ih hrest]
      rfl
    next heq => cases heq
  | case5 => cases h
  | case6 => cases h
  | case7 => cases h

theorem pair_append {value : Reader Toml} (hmore : Breaks more) (hvalue : Extends value more)
    {ks : List String} {v : Toml} (h : pair value cs = some ((ks, v), rest)) :
    pair value (cs ++ more) = some ((ks, v), rest ++ more) := by
  obtain ⟨⟨ks', rest₁⟩, hkeys, h⟩ := Option.bind_eq_some_iff.mp h
  obtain ⟨rest₂, hequals, h⟩ := Option.bind_eq_some_iff.mp h
  obtain ⟨⟨v', rest₃⟩, hread, h⟩ := Option.bind_eq_some_iff.mp h
  obtain ⟨heq, rfl⟩ := Prod.mk.inj (Option.some.inj h)
  obtain ⟨rfl, rfl⟩ := Prod.mk.inj heq
  simp only [pair, keys_append hmore hkeys, expectChar_append hequals, skipSpaces_append hmore,
    hvalue.append hread, Option.bind_eq_bind, Option.bind_some]
  rfl

theorem pairs_append {value : Reader Toml} (hmore : Breaks more) (hvalue : Extends value more)
    {es es' : Entries} (h : pairs value es cs = some (es', rest)) :
    pairs value es (cs ++ more) = some (es', rest ++ more) := by
  fun_induction pairs value es cs generalizing es' rest with
  | case1 => cases h
  | case2 es cs ks v rest₁ hpair es₁ rest₂ hclose hadd =>
    obtain ⟨rfl, rfl⟩ := Prod.mk.inj (Option.some.inj h)
    rw [pairs, pair_append hmore hvalue hpair]
    simp only [hadd, skipSpaces_append hmore, hclose, List.cons_append]
  | case3 es cs ks v rest₁ hpair es₁ rest₂ hcomma hadd hlength ih =>
    have hlonger : (rest₂ ++ more).length < (cs ++ more).length := by
      simp only [List.length_append]
      omega
    rw [pairs, pair_append hmore hvalue hpair]
    simp only [hadd, skipSpaces_append hmore, hcomma, List.cons_append, if_pos hlonger, ih h]
  | case4 => cases h
  | case5 => cases h

theorem plain_append {v : Toml} (hmore : Breaks more) (h : valueWithin.plain cs = some (v, rest)) :
    valueWithin.plain (cs ++ more) = some (v, rest ++ more) := by
  cases cs with
  | nil => cases h
  | cons c cs =>
    rw [List.cons_append, valueWithin.plain, List.head?_cons]
    rw [valueWithin.plain, List.head?_cons] at h
    by_cases hquote : (decide (some c = some '"') || decide (some c = some '\'')) = true
    · rw [if_pos hquote] at h ⊢
      obtain ⟨⟨s, rest'⟩, hread, heq⟩ := Option.map_eq_some_iff.mp h
      obtain ⟨rfl, rfl⟩ := Prod.mk.inj heq
      have hread' := anyText_append hmore hread
      rw [List.cons_append] at hread'
      rw [hread']
      rfl
    · rw [if_neg hquote] at h ⊢
      exact scalar_append hmore h

theorem valueWithin_nil (depth : Nat) : valueWithin depth [] = none := by cases depth <;> rfl

theorem valueWithin_carriage (depth : Nat) (cs : List Char) :
    valueWithin depth ('\r' :: cs) = none := by
  have hplain : valueWithin.plain ('\r' :: cs) = none := rfl
  cases depth <;> exact hplain

theorem extends_valueWithin (hmore : Breaks more) (depth : Nat) :
    Extends (valueWithin depth) more where
  nil := valueWithin_nil depth
  carriage := valueWithin_carriage depth
  append := by
    -- The values inside an array or a table are read one level further down.
    induction depth with
    | zero =>
      intro cs v rest h
      cases cs with
      | nil => cases h
      | cons c cs =>
        rw [List.cons_append, valueWithin]
        rw [valueWithin] at h
        split at h
        · cases h
        next hopens =>
          rw [if_neg hopens]
          exact plain_append hmore h
    | succ depth ih =>
      intro cs v rest h
      have hextends : Extends (valueWithin depth) more :=
        ⟨ih, valueWithin_nil depth, valueWithin_carriage depth⟩
      cases cs with
      | nil => cases h
      | cons c cs =>
        rw [List.cons_append, valueWithin]
        rw [valueWithin] at h
        split at h
        next harray =>
          obtain ⟨⟨vs, rest'⟩, hread, heq⟩ := Option.map_eq_some_iff.mp h
          obtain ⟨rfl, rfl⟩ := Prod.mk.inj heq
          rw [if_pos harray, items_append hextends hread]
          rfl
        next harray =>
        rw [if_neg harray]
        split at h
        next htable =>
          rw [if_pos htable, skipSpaces_append hmore]
          split at h
          next rest' hempty =>
            obtain ⟨rfl, rfl⟩ := Prod.mk.inj (Option.some.inj h)
            rw [hempty]
            rfl
          next here hpairs =>
            obtain ⟨⟨es, rest'⟩, hread, heq⟩ := Option.map_eq_some_iff.mp h
            obtain ⟨rfl, rfl⟩ := Prod.mk.inj heq
            split
            next tail heq =>
              exact absurd heq (hmore.head_ne (by decide) (by decide) hpairs tail)
            next => rw [pairs_append hmore hextends hread]; rfl
        next htable =>
          rw [if_neg htable]
          exact plain_append hmore h

theorem extends_value (hmore : Breaks more) : Extends value more := extends_valueWithin hmore _

/-! ## Lines -/

/-- What is left behind a line when the text goes on: the rest of the line's own text and all that
comes then, or, when the line had no end of its own, the text behind the line end that comes. -/
def Resumes (more next rest rest' : List Char) : Prop :=
  rest' = rest ++ more ∨ rest = [] ∧ rest' = next

variable {next : List Char}

/-- The end of a line, from behind its blanks and its comment. -/
def bareEnd : List Char → Option (List Char)
  | [] => some []
  | '\n' :: rest => some rest
  | '\r' :: '\n' :: rest => some rest
  | _ => none

theorem lineEnd_of_comment {tail : List Char} (h : skipSpaces cs = '#' :: tail) :
    lineEnd cs = bareEnd (tail.dropWhile isTextChar) := by
  rw [lineEnd, h]
  rfl

theorem lineEnd_of_bare (h : ∀ tail, skipSpaces cs ≠ '#' :: tail) :
    lineEnd cs = bareEnd (skipSpaces cs) := by
  unfold lineEnd
  generalize skipSpaces cs = here at h ⊢
  split
  next tail => exact absurd rfl (h tail)
  next => rfl

theorem bareEnd_append (hmore : LineBreak more next) (h : bareEnd cs = some rest) :
    ∃ rest', bareEnd (cs ++ more) = some rest' ∧ Resumes more next rest rest' := by
  unfold bareEnd at h
  split at h
  · refine ⟨next, ?_, .inr ⟨(Option.some.inj h).symm, rfl⟩⟩
    cases hmore <;> rfl
  · exact ⟨_, rfl, .inl (congrArg (· ++ more) (Option.some.inj h))⟩
  · exact ⟨_, rfl, .inl (congrArg (· ++ more) (Option.some.inj h))⟩
  · cases h

theorem lineEnd_append (hmore : LineBreak more next) (h : lineEnd cs = some rest) :
    ∃ rest', lineEnd (cs ++ more) = some rest' ∧ Resumes more next rest rest' := by
  have hbreaks : Breaks more := ⟨next, hmore⟩
  have hskip := skipSpaces_append hbreaks cs
  by_cases hcomment : ∃ tail, skipSpaces cs = '#' :: tail
  · obtain ⟨tail, hcomment⟩ := hcomment
    rw [lineEnd_of_comment hcomment] at h
    rw [hcomment, List.cons_append] at hskip
    rw [lineEnd_of_comment hskip, dropWhile_append hbreaks (by decide) (by decide)]
    exact bareEnd_append hmore h
  · rw [not_exists] at hcomment
    rw [lineEnd_of_bare hcomment] at h
    have hcomment' : ∀ tail, skipSpaces (cs ++ more) ≠ '#' :: tail := by
      rw [hskip]
      exact hbreaks.head_ne (by decide) (by decide) hcomment
    rw [lineEnd_of_bare hcomment', hskip]
    exact bareEnd_append hmore h

theorem key_of_keys {found : List String × List Char} (h : keys cs = some found) :
    ∃ first, key (skipSpaces cs) = some first := by
  obtain ⟨_, hread, -⟩ := Option.bind_eq_some_iff.mp h
  rw [keysFrom] at hread
  split at hread
  · cases hread
  next k rest hkey => exact ⟨(k, rest), hkey⟩

/-- What begins with a key is no line without one. -/
theorem lineEnd_of_key {found : List String × List Char} {c : Char} (hspace : isSpace c = false)
    (h : keys (c :: cs) = some found) (more : List Char) : lineEnd (c :: (cs ++ more)) = none := by
  have hskip : ∀ tail, skipSpaces (c :: tail) = c :: tail := fun tail =>
    List.dropWhile_cons_of_neg (by simp [hspace])
  have hne : ∀ d ∈ ['#', '\n', '\r'], c ≠ d := by
    rintro d hd rfl
    have hkey : key (c :: cs) = none := by
      simp only [List.mem_cons, List.not_mem_nil, or_false] at hd
      rcases hd with rfl | rfl | rfl <;> rfl
    obtain ⟨first, hfirst⟩ := key_of_keys h
    rw [hskip, hkey] at hfirst
    cases hfirst
  simp only [List.mem_cons, List.not_mem_nil, or_false, forall_eq_or_imp, forall_eq] at hne
  obtain ⟨hcomment, hnewline, hreturn⟩ := hne
  rw [lineEnd_of_bare (by simp [hskip, hcomment]), hskip, bareEnd]
  · simp
  · exact fun tail heq => hnewline (List.cons.inj heq).1
  · exact fun tail heq => hreturn (List.cons.inj heq).1

namespace Draft

variable {d d' : Draft}

theorem line_append (hmore : LineBreak more next) (h : d.line cs = some (d', rest)) :
    ∃ rest', d.line (cs ++ more) = some (d', rest') ∧ Resumes more next rest rest' := by
  have hbreaks : Breaks more := ⟨next, hmore⟩
  unfold line at h ⊢
  rw [skipSpaces_append hbreaks]
  split at h
  next tail hhere =>
    obtain ⟨⟨ks, rest₁⟩, hkeys, h⟩ := Option.bind_eq_some_iff.mp h
    obtain ⟨rest₂, hclose, h⟩ := Option.bind_eq_some_iff.mp h
    obtain ⟨rest₃, hclose', h⟩ := Option.bind_eq_some_iff.mp h
    obtain ⟨rest₄, hend, h⟩ := Option.bind_eq_some_iff.mp h
    obtain ⟨es, hdefine, h⟩ := Option.bind_eq_some_iff.mp h
    obtain ⟨rfl, rfl⟩ := Prod.mk.inj (Option.some.inj h)
    obtain ⟨rest', hend', hresumes⟩ := lineEnd_append hmore hend
    refine ⟨rest', ?_, hresumes⟩
    simp only [hhere, List.cons_append, keys_append hbreaks hkeys, expectChar_append hclose,
      expectChar_append hclose', hend', hdefine, Option.bind_eq_bind, Option.bind_some]
    rfl
  next tail hsingle hhere =>
    obtain ⟨⟨ks, rest₁⟩, hkeys, h⟩ := Option.bind_eq_some_iff.mp h
    obtain ⟨rest₂, hclose, h⟩ := Option.bind_eq_some_iff.mp h
    obtain ⟨rest₃, hend, h⟩ := Option.bind_eq_some_iff.mp h
    obtain ⟨es, hdefine, h⟩ := Option.bind_eq_some_iff.mp h
    obtain ⟨rfl, rfl⟩ := Prod.mk.inj (Option.some.inj h)
    obtain ⟨rest', hend', hresumes⟩ := lineEnd_append hmore hend
    refine ⟨rest', ?_, hresumes⟩
    -- What is behind cannot make the bracket of a table one of an array of tables.
    have hsingle' : ∀ tail', tail ++ more ≠ '[' :: tail' :=
      hbreaks.head_ne (by decide) (by decide) hsingle
    rw [hhere, List.cons_append]
    split
    next tail' heq => exact absurd (List.cons.inj heq).2 (hsingle' tail')
    next tail' _ heq =>
      obtain rfl := (List.cons.inj heq).2
      simp only [keys_append hbreaks hkeys, expectChar_append hclose, hend', hdefine,
        Option.bind_eq_bind, Option.bind_some]
      rfl
    next hheader => exact absurd rfl (hheader _)
  next hdouble hsingle =>
    have hheader' : ∀ tail, skipSpaces cs ++ more ≠ '[' :: tail :=
      hbreaks.head_ne (by decide) (by decide) hsingle
    split
    next tail' heq => exact absurd heq (hheader' _)
    next tail' _ heq => exact absurd heq (hheader' _)
    next =>
    split at h
    next hend =>
      obtain ⟨rfl, rfl⟩ := Prod.mk.inj (Option.some.inj h)
      obtain ⟨rest', hend', hresumes⟩ := lineEnd_append hmore hend
      exact ⟨rest', by rw [hend'], hresumes⟩
    next hend =>
      obtain ⟨⟨⟨ks, v⟩, rest₁⟩, hpair, h⟩ := Option.bind_eq_some_iff.mp h
      obtain ⟨d₁, hadd, h⟩ := Option.bind_eq_some_iff.mp h
      obtain ⟨rest₂, hend', h⟩ := Option.bind_eq_some_iff.mp h
      obtain ⟨rfl, rfl⟩ := Prod.mk.inj (Option.some.inj h)
      obtain ⟨rest', hend', hresumes⟩ := lineEnd_append hmore hend'
      refine ⟨rest', ?_, hresumes⟩
      obtain ⟨⟨ks', rest₃⟩, hkeys, -⟩ := Option.bind_eq_some_iff.mp hpair
      -- A line that starts with a key stays one that is not blank.
      have hstays : lineEnd (skipSpaces cs ++ more) = none := by
        cases hskip : skipSpaces cs with
        | nil =>
          rw [hskip] at hend
          cases hend
        | cons c tail =>
          rw [hskip] at hkeys
          exact lineEnd_of_key (isSpace_head hskip) hkeys more
      simp only [hstays, pair_append hbreaks (extends_value hbreaks) hpair, hadd, hend',
        Option.bind_eq_bind, Option.bind_some]
      rfl

theorem line_lineBreak (h : LineBreak more next) (d : Draft) : d.line more = some (d, next) := by
  cases h <;> rfl

/-- A line that is read is followed by the lines behind it. -/
theorem lines_of_line (hline : d.line cs = some (d', rest)) (hshorter : rest.length < cs.length) :
    d.lines cs = d'.lines rest := by
  have hnonempty : cs.isEmpty = false :=
    Bool.eq_false_iff.mpr fun hempty => by simp [List.isEmpty_iff.mp hempty] at hshorter
  rw [lines, hnonempty]
  simp only [hline, if_pos hshorter]
  rfl

/-- A text that is read on its own is read in front of more lines, which are read behind it. -/
theorem lines_append (hmore : LineBreak more next) (h : d.lines cs = some d') :
    d.lines (cs ++ more) = d'.lines next := by
  have hlength : next.length < more.length := by
    cases hmore <;> simp only [List.length_cons] <;> omega
  fun_induction lines d cs with
  | case1 d cs hempty =>
    obtain rfl := Option.some.inj h
    obtain rfl := List.isEmpty_iff.mp hempty
    exact lines_of_line (line_lineBreak hmore d) hlength
  | case2 => cases h
  | case3 d cs hempty d₁ rest hline hshorter ih =>
    obtain ⟨rest', hline', rfl | ⟨rfl, rfl⟩⟩ := line_append hmore hline
    · rw [lines_of_line hline' (by simp only [List.length_append]; omega)]
      exact ih h
    · rw [lines_of_line hline' (by simp only [List.length_append]; omega)]
      rw [lines] at h
      rw [← Option.some.inj h]
  | case4 => cases h

end Draft

end Graft.Toml

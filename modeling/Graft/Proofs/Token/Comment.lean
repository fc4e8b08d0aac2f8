import Graft.Proofs.Token.Extend

/-!
# Comments before more text

A comment that ends within a text is the same whatever stands behind the text, if that does not go
on with the mark of a comment. A comment that runs to the end of its line needs the line to end.
-/

namespace Graft

variable {cs rest rest' : List Char} {n : Nat}

namespace Comment

/-- What stands behind the end of a block is no part of it. -/
theorem blockLength?_local {depth : Nat} (h : blockLength? depth (cs ++ rest) = some n)
    (hle : n ≤ cs.length) (rest' : List Char) : blockLength? depth (cs ++ rest') = some n := by
  have hne : 0 < cs.length := Nat.lt_of_lt_of_le (blockLength?_pos h) hle
  generalize htext : cs ++ rest = text at h
  fun_induction blockLength? depth text generalizing cs n with
  | case1 depth more ih =>
    obtain ⟨m, hm, rfl⟩ := Option.map_eq_some_iff.mp h
    have hpos := blockLength?_pos hm
    obtain ⟨cs, rfl, h₁⟩ := exists_cons_of_append htext hne
    rw [List.length_cons] at hle
    obtain ⟨cs, rfl, h₂⟩ := exists_cons_of_append h₁.symm (by omega)
    rw [List.length_cons] at hle
    rw [List.cons_append, List.cons_append, blockLength?, ih (by omega) (by omega) h₂.symm hm,
      Option.map_some]
  | case2 depth more hdepth =>
    have htwo := Option.some.inj h
    obtain ⟨cs, rfl, h₁⟩ := exists_cons_of_append htext hne
    rw [List.length_cons] at hle
    obtain ⟨cs, rfl, -⟩ := exists_cons_of_append h₁.symm (by omega)
    rw [List.cons_append, List.cons_append, blockLength?, if_pos hdepth, h]
  | case3 depth more hdepth ih =>
    obtain ⟨m, hm, rfl⟩ := Option.map_eq_some_iff.mp h
    have hpos := blockLength?_pos hm
    obtain ⟨cs, rfl, h₁⟩ := exists_cons_of_append htext hne
    rw [List.length_cons] at hle
    obtain ⟨cs, rfl, h₂⟩ := exists_cons_of_append h₁.symm (by omega)
    rw [List.length_cons] at hle
    rw [List.cons_append, List.cons_append, blockLength?, if_neg hdepth,
      ih (by omega) (by omega) h₂.symm hm, Option.map_some]
  | case4 depth c more hopen hclose ih =>
    obtain ⟨m, hm, rfl⟩ := Option.map_eq_some_iff.mp h
    have hpos := blockLength?_pos hm
    obtain ⟨cs, rfl, rfl⟩ := exists_cons_of_append htext hne
    rw [List.length_cons] at hle
    -- The block goes on, so the next character stands in front of `rest` as well.
    obtain ⟨d, cs, rfl⟩ : ∃ d cs', cs = d :: cs' := by
      cases cs with
      | nil =>
        rw [List.length_nil] at hle
        omega
      | cons d cs => exact ⟨d, cs, rfl⟩
    rw [List.cons_append, List.cons_append, blockLength?, ← List.cons_append,
      ih (by omega) (by simp) rfl hm, Option.map_some]
    · intro more hc hmore
      exact hopen (cs ++ rest) hc (by rw [(List.cons.inj hmore).1]; rfl)
    · intro more hc hmore
      exact hclose (cs ++ rest) hc (by rw [(List.cons.inj hmore).1]; rfl)
  | case5 => cases h

theorem blockLength?_le {depth : Nat} (h : blockLength? depth cs = some n) : n ≤ cs.length := by
  fun_induction blockLength? depth cs generalizing n with
  | case1 depth cs ih =>
    obtain ⟨m, hm, rfl⟩ := Option.map_eq_some_iff.mp h
    exact Nat.add_le_add_right (ih hm) 2
  | case2 depth cs =>
    rw [← Option.some.inj h]
    simp
  | case3 depth cs _ ih =>
    obtain ⟨m, hm, rfl⟩ := Option.map_eq_some_iff.mp h
    exact Nat.add_le_add_right (ih hm) 2
  | case4 depth c cs _ _ ih =>
    obtain ⟨m, hm, rfl⟩ := Option.map_eq_some_iff.mp h
    exact Nat.succ_le_succ (ih hm)
  | case5 => cases h

theorem blockLength?_extends {depth : Nat} (h : blockLength? depth cs = some n) (rest : List Char) :
    blockLength? depth (cs ++ rest) = some n := by
  have hnil : blockLength? depth (cs ++ []) = some n := by rwa [List.append_nil]
  exact blockLength?_local hnil (blockLength?_le h) rest

/-- The comment at the head of a text, if there is one, ends before the text does. -/
structure Closed (cs : List Char) : Prop where
  line : startsWith "//" cs = true → '\n' ∈ cs
  block : startsWith "/*" cs = true → ∃ n, blockLength? 0 cs = some n

theorem takeWhile_line (h : '\n' ∈ cs) (rest : List Char) :
    (cs ++ rest).takeWhile (· ≠ '\n') = cs.takeWhile (· ≠ '\n') := by
  rw [List.takeWhile_append, if_neg]
  intro hlength
  have hall := (List.takeWhile_prefix (· ≠ '\n') (l := cs)).eq_of_length hlength
  simpa using List.takeWhile_eq_self_iff.mp hall '\n' h

/-- The characters that the marks of comments go on with. -/
def marks : List Char := ['/', '*', '!']

/-- A text that starts with none of the marks of comments, or an empty one. -/
def Free (rest : List Char) : Prop := ∀ c ∈ rest.head?, c ∉ marks

theorem Free.of_halts (h : Halts rest) : Free rest := fun c hc =>
  (by decide : ∀ c ∈ haltMarks, c ∉ marks) c (h c hc)

theorem Free.startsWith (h : Free rest) {s : String} (hs : ∀ d ∈ s.toList, d ∈ marks)
    (cs : List Char) : startsWith s (cs ++ rest) = startsWith s cs :=
  startsWith_append_of_head (fun c hc hmem => h c hc (hs c hmem)) cs

theorem pieceLength_append (hrest : Free rest) (hcs : cs ≠ []) (h : Closed cs) :
    pieceLength (cs ++ rest) = pieceLength cs := by
  have hhead : (cs ++ rest).head? = cs.head? := by
    obtain ⟨c, more, rfl⟩ := List.exists_cons_of_ne_nil hcs
    rfl
  unfold pieceLength
  simp only [hhead, hrest.startsWith (s := "//") (by decide),
    hrest.startsWith (s := "///") (by decide), hrest.startsWith (s := "////") (by decide),
    hrest.startsWith (s := "//!") (by decide), hrest.startsWith (s := "/**/") (by decide),
    hrest.startsWith (s := "/*") (by decide), hrest.startsWith (s := "/**") (by decide),
    hrest.startsWith (s := "/***") (by decide), hrest.startsWith (s := "/*!") (by decide)]
  split
  next hline =>
    simp only [Bool.and_eq_true] at hline
    rw [lineLength, lineLength, takeWhile_line (h.line hline.1.1)]
  split
  · rfl
  split
  next hblock =>
    simp only [Bool.and_eq_true] at hblock
    obtain ⟨n, hn⟩ := h.block hblock.1.1
    rw [hn, blockLength?_extends hn]
  next => rfl

theorem pieceLength_le (cs : List Char) : pieceLength cs ≤ cs.length := by
  unfold pieceLength
  split
  · exact (List.takeWhile_prefix _).length_le
  split
  next hempty => exact (List.isPrefixOf_iff_prefix.mp hempty).length_le
  split
  · cases hblock : blockLength? 0 cs with
    | none => exact Nat.zero_le _
    | some n => exact blockLength?_le hblock
  split
  next hhead =>
    cases cs with
    | nil => cases hhead
    | cons c cs => simp
  next => exact Nat.zero_le _

theorem lineDoc_length_le {s : String} (hs : s.length = 3) (hstarts : startsWith s cs = true)
    (inner : Bool) : (lineDoc cs inner).length ≤ cs.length := by
  have hthree := (List.isPrefixOf_iff_prefix.mp hstarts).length_le
  have hline := (List.takeWhile_prefix (· ≠ '\n') (l := cs.drop 3)).length_le
  rw [String.length_toList, hs] at hthree
  rw [List.length_drop] at hline
  show 3 + lineLength (cs.drop 3) ≤ cs.length
  unfold lineLength
  omega

theorem doc?_le {d : Doc} (h : doc? cs = some d) : d.length ≤ cs.length := by
  have hblock : ∀ {inner : Bool}, doc?.block cs inner = some d → d.length ≤ cs.length := by
    intro inner h
    obtain ⟨n, hn, rfl⟩ := Option.map_eq_some_iff.mp h
    exact blockLength?_le hn
  unfold doc? at h
  split at h
  next hstarts =>
    rw [← Option.some.inj h]
    exact lineDoc_length_le rfl hstarts true
  split at h
  · exact hblock h
  split at h
  next hstarts =>
    split at h
    · cases h
    · rw [← Option.some.inj h]
      exact lineDoc_length_le rfl hstarts false
  split at h
  · exact hblock h
  · cases h

theorem lineDoc_append {s : String} (hs : s.length = 3) (hmark : '\n' ∉ s.toList)
    (hstarts : startsWith s cs = true) (hline : '\n' ∈ cs) (rest : List Char) (inner : Bool) :
    lineDoc (cs ++ rest) inner = lineDoc cs inner := by
  obtain ⟨more, rfl⟩ := List.isPrefixOf_iff_prefix.mp hstarts
  rw [← String.length_toList] at hs
  have hmem : '\n' ∈ more := (List.mem_append.mp hline).resolve_left hmark
  have hdrop : ∀ more, (s.toList ++ more).drop 3 = more := fun more => by
    rw [← hs, List.drop_left]
  -- The line end stands behind the text, with `rest` or without.
  have hlt : (more.takeWhile (· ≠ '\n')).length < more.length := by
    refine (List.takeWhile_prefix _).length_le.lt_of_ne fun hlength => ?_
    have hall := (List.takeWhile_prefix (· ≠ '\n') (l := more)).eq_of_length hlength
    simpa using List.takeWhile_eq_self_iff.mp hall '\n' hmem
  have hbehind : ∀ rest : List Char, decide (((s.toList ++ (more ++ rest)).drop
      (3 + (more.takeWhile (· ≠ '\n')).length)).length > 0) = true := by
    intro rest
    rw [← List.drop_drop, hdrop, List.length_drop, List.length_append]
    simp only [decide_eq_true_iff]
    omega
  have hbehind' := hbehind []
  rw [List.append_nil] at hbehind'
  simp only [lineDoc, lineLength, List.append_assoc, hdrop, takeWhile_line hmem, hbehind, hbehind']

theorem startsWith_of_append {s s' : String} (h : s.toList <+: s'.toList)
    (hstarts : startsWith s' cs = true) : startsWith s cs = true :=
  List.isPrefixOf_iff_prefix.mpr (h.trans (List.isPrefixOf_iff_prefix.mp hstarts))

theorem doc?_append (hrest : Free rest) (h : Closed cs) : doc? (cs ++ rest) = doc? cs := by
  have hblock : ∀ {s : String} {inner : Bool}, "/*".toList <+: s.toList → s.length = 3 →
      startsWith s cs = true → doc?.block (cs ++ rest) inner = doc?.block cs inner := by
    intro s inner hs hlength hstarts
    obtain ⟨n, hn⟩ := h.block (startsWith_of_append hs hstarts)
    have hle := blockLength?_le hn
    have hthree : 3 ≤ cs.length := by
      rw [← hlength, ← String.length_toList]
      exact (List.isPrefixOf_iff_prefix.mp hstarts).length_le
    rw [doc?.block, doc?.block, hn, blockLength?_extends hn, List.drop_append_of_le_length hthree,
      Option.map_some, Option.map_some, List.take_append_of_le_length]
    rw [List.length_drop]
    omega
  unfold doc?
  simp only [hrest.startsWith (s := "//!") (by decide), hrest.startsWith (s := "/*!") (by decide),
    hrest.startsWith (s := "///") (by decide), hrest.startsWith (s := "////") (by decide),
    hrest.startsWith (s := "/**") (by decide), hrest.startsWith (s := "/***") (by decide)]
  split
  next hstarts =>
    rw [lineDoc_append rfl (by decide) hstarts (h.line (startsWith_of_append ⟨['!'], rfl⟩ hstarts))]
  split
  next hstarts => exact hblock ⟨['!'], rfl⟩ rfl hstarts
  split
  next hstarts =>
    rw [lineDoc_append rfl (by decide) hstarts (h.line (startsWith_of_append ⟨['/'], rfl⟩ hstarts))]
  split
  next hstarts => exact hblock ⟨['*'], rfl⟩ rfl (Bool.and_eq_true_iff.mp hstarts).1
  next => rfl

/-! ## The length of a comment -/

theorem pieceLength_of_line (h : startsWith "//" cs = true) (hpiece : pieceLength cs ≠ 0) :
    pieceLength cs = lineLength cs := by
  obtain ⟨more, rfl⟩ := List.isPrefixOf_iff_prefix.mp h
  have hempty : startsWith "/**/" ("//".toList ++ more) = false := rfl
  have hblock : startsWith "/*" ("//".toList ++ more) = false := rfl
  have hhead : ("//".toList ++ more).head?.any isBlankMark = false := rfl
  unfold pieceLength at hpiece ⊢
  split
  next => rfl
  next hdoc =>
    rw [if_neg hdoc, hempty, hblock, hhead] at hpiece
    exact absurd rfl hpiece

theorem pieceLength_of_block (h : startsWith "/*" cs = true) (hpiece : pieceLength cs ≠ 0) :
    blockLength? 0 cs = some (pieceLength cs) := by
  obtain ⟨more, rfl⟩ := List.isPrefixOf_iff_prefix.mp h
  have hline : startsWith "//" ("/*".toList ++ more) = false := rfl
  have hhead : ("/*".toList ++ more).head?.any isBlankMark = false := rfl
  unfold pieceLength at hpiece ⊢
  rw [hline, Bool.false_and, Bool.false_and, if_neg Bool.false_ne_true] at hpiece ⊢
  split
  next hempty =>
    obtain ⟨behind, hbehind⟩ := List.isPrefixOf_iff_prefix.mp hempty
    rw [← hbehind]
    rfl
  next hempty =>
    rw [if_neg hempty] at hpiece
    split
    next hplain =>
      rw [if_pos hplain] at hpiece
      cases hblock : blockLength? 0 ("/*".toList ++ more) with
      | some n => rfl
      | none =>
        rw [hblock] at hpiece
        exact absurd rfl hpiece
    next hdoc =>
      rw [if_neg hdoc, hhead] at hpiece
      exact absurd rfl hpiece

theorem lineDoc_length {s : String} (hs : s.length = 3) (hmark : '\n' ∉ s.toList)
    (hstarts : startsWith s cs = true) (inner : Bool) : (lineDoc cs inner).length = lineLength cs := by
  obtain ⟨more, rfl⟩ := List.isPrefixOf_iff_prefix.mp hstarts
  have hall : ∀ c ∈ s.toList, decide (c ≠ '\n') = true := fun c hc =>
    decide_eq_true fun heq => hmark (heq ▸ hc)
  have hdrop : (s.toList ++ more).drop 3 = more := by
    rw [← hs, ← String.length_toList, List.drop_left]
  show 3 + lineLength ((s.toList ++ more).drop 3) = lineLength (s.toList ++ more)
  rw [hdrop, lineLength, lineLength, List.takeWhile_append_of_pos hall, List.length_append,
    String.length_toList, hs]

theorem doc?_of_line {d : Doc} (h : startsWith "//" cs = true) (hdoc : doc? cs = some d) :
    d.length = lineLength cs := by
  have hblock : startsWith "/*!" cs = false ∧ startsWith "/**" cs = false := by
    obtain ⟨more, rfl⟩ := List.isPrefixOf_iff_prefix.mp h
    exact ⟨rfl, rfl⟩
  unfold doc? at hdoc
  rw [hblock.1, hblock.2, if_neg Bool.false_ne_true, Bool.false_and,
    if_neg Bool.false_ne_true] at hdoc
  split at hdoc
  next hstarts =>
    rw [← Option.some.inj hdoc]
    exact lineDoc_length rfl (by decide) hstarts true
  split at hdoc
  next hstarts =>
    split at hdoc
    · cases hdoc
    · rw [← Option.some.inj hdoc]
      exact lineDoc_length rfl (by decide) hstarts false
  next => cases hdoc

theorem doc?_of_block {d : Doc} (h : startsWith "/*" cs = true) (hdoc : doc? cs = some d) :
    blockLength? 0 cs = some d.length := by
  have hline : startsWith "//!" cs = false ∧ startsWith "///" cs = false := by
    obtain ⟨more, rfl⟩ := List.isPrefixOf_iff_prefix.mp h
    exact ⟨rfl, rfl⟩
  have hblock : ∀ {inner : Bool}, doc?.block cs inner = some d → blockLength? 0 cs = some d.length := by
    intro inner hblock
    obtain ⟨n, hn, rfl⟩ := Option.map_eq_some_iff.mp hblock
    exact hn
  unfold doc? at hdoc
  rw [hline.1, hline.2, if_neg Bool.false_ne_true, if_neg Bool.false_ne_true] at hdoc
  split at hdoc
  · exact hblock hdoc
  split at hdoc
  · exact hblock hdoc
  · cases hdoc

/-- A line that ends before `rest` has its end there, if `rest` goes on with another character. -/
theorem mem_of_lineLength {c : Char} (hc : c ≠ '\n')
    (hle : lineLength (cs ++ c :: rest) ≤ cs.length) : '\n' ∈ cs := by
  by_contra hmem
  have hall : ∀ d ∈ cs, decide (d ≠ '\n') = true := fun d hd =>
    decide_eq_true fun heq => hmem (heq ▸ hd)
  rw [lineLength, List.takeWhile_append_of_pos hall, List.takeWhile_cons,
    if_pos (decide_eq_true hc), List.length_append, List.length_cons] at hle
  omega

/-- A block ends in a slash. -/
theorem slash_of_blockLength? {depth : Nat} (h : blockLength? depth cs = some n) :
    ∃ inside behind, cs = inside ++ '/' :: behind ∧ inside.length + 1 = n := by
  fun_induction blockLength? depth cs generalizing n with
  | case1 depth cs ih =>
    obtain ⟨m, hm, rfl⟩ := Option.map_eq_some_iff.mp h
    obtain ⟨inside, behind, rfl, rfl⟩ := ih hm
    exact ⟨'/' :: '*' :: inside, behind, rfl, rfl⟩
  | case2 depth cs _ => exact ⟨['*'], cs, rfl, Option.some.inj h⟩
  | case3 depth cs _ ih =>
    obtain ⟨m, hm, rfl⟩ := Option.map_eq_some_iff.mp h
    obtain ⟨inside, behind, rfl, rfl⟩ := ih hm
    exact ⟨'*' :: '/' :: inside, behind, rfl, rfl⟩
  | case4 depth c cs _ _ ih =>
    obtain ⟨m, hm, rfl⟩ := Option.map_eq_some_iff.mp h
    obtain ⟨inside, behind, rfl, rfl⟩ := ih hm
    exact ⟨c :: inside, behind, rfl, rfl⟩
  | case5 => cases h

/-- A block does not end in a text without slashes. -/
theorem blockLength?_within {depth : Nat} (h : blockLength? depth (cs ++ rest) = some n)
    (hrest : '/' ∉ rest) : n ≤ cs.length := by
  obtain ⟨inside, behind, heq, rfl⟩ := slash_of_blockLength? h
  rcases List.append_eq_append_iff.mp heq with ⟨more, rfl, hmore⟩ | ⟨more, rfl, hmore⟩
  · exact absurd (by rw [hmore]; simp) hrest
  · cases more with
    | nil =>
      rw [List.nil_append] at hmore
      exact absurd (by rw [← hmore]; exact List.mem_cons_self) hrest
    | cons d more =>
      rw [List.length_append, List.length_cons]
      omega

theorem pieceLength_ne_zero_of_line (hline : startsWith "//" cs = true) :
    pieceLength cs ≠ 0 ↔
      ((!startsWith "///" cs || startsWith "////" cs) && !startsWith "//!" cs) = true := by
  obtain ⟨more, rfl⟩ := List.isPrefixOf_iff_prefix.mp hline
  have hempty : startsWith "/**/" ("//".toList ++ more) = false := rfl
  have hblock : startsWith "/*" ("//".toList ++ more) = false := rfl
  have hhead : ("//".toList ++ more).head?.any isBlankMark = false := rfl
  have hlength : lineLength ("//".toList ++ more) = lineLength more + 2 := rfl
  unfold pieceLength
  rw [hline, hempty, hblock, hhead, hlength, Bool.true_and]
  split <;> simp_all

/-- Whether a comment runs to the end of its line does not depend on what stands behind. -/
theorem pieceLength_line (hrest : Free rest) (hrest' : Free rest')
    (hline : startsWith "//" cs = true) (h : pieceLength (cs ++ rest) ≠ 0) :
    pieceLength (cs ++ rest') = lineLength (cs ++ rest') := by
  have hstarts : startsWith "//" (cs ++ rest) = true := (hrest.startsWith (by decide) cs).trans hline
  have hstarts' : startsWith "//" (cs ++ rest') = true :=
    (hrest'.startsWith (by decide) cs).trans hline
  rw [pieceLength_ne_zero_of_line hstarts, hrest.startsWith (s := "///") (by decide),
    hrest.startsWith (s := "////") (by decide), hrest.startsWith (s := "//!") (by decide)] at h
  refine pieceLength_of_line hstarts' ?_
  rw [pieceLength_ne_zero_of_line hstarts', hrest'.startsWith (s := "///") (by decide),
    hrest'.startsWith (s := "////") (by decide), hrest'.startsWith (s := "//!") (by decide)]
  exact h

/-- A comment that ends before `rest` is closed, if `rest` goes on with neither the end of a line nor
the mark of a comment. -/
theorem closed_of_length {c : Char} {n : Nat} (hc : c ≠ '\n') (hfree : Free (c :: rest))
    (hle : n ≤ cs.length)
    (hline : startsWith "//" (cs ++ c :: rest) = true → n = lineLength (cs ++ c :: rest))
    (hblock : startsWith "/*" (cs ++ c :: rest) = true →
      blockLength? 0 (cs ++ c :: rest) = some n) : Closed cs where
  line hstarts := by
    rw [← hfree.startsWith (by decide)] at hstarts
    exact mem_of_lineLength hc ((hline hstarts) ▸ hle)
  block hstarts := by
    rw [← hfree.startsWith (by decide)] at hstarts
    have hwithin := blockLength?_local (hblock hstarts) hle []
    rw [List.append_nil] at hwithin
    exact ⟨n, hwithin⟩

end Comment

end Graft

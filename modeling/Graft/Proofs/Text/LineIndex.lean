import Mathlib.Data.List.Induction
import Mathlib.Data.List.TakeWhile
import Mathlib.Data.Prod.Lex
import Mathlib.Order.Monotone.Basic
import Graft.Proofs.Text.Position
import Graft.Text.LineIndex

/-!
# Line indices give the places behind texts

The starts of lines that a byte offset has behind it are as many as there are line ends before it,
and the last of them is where its line starts. So the place that an index gives for an offset is the
place behind the text before it, and places are in the order of their offsets.
-/

namespace Graft

/-! ## Searching -/

section Search

variable {xs : Array Nat} {x : Nat}

/-- Halving finds where the numbers that are not above `x` end. -/
theorem narrow_eq {count base size : Nat} (hbase : base < count) (hcount : count ≤ base + size)
    (hsize : base + size ≤ xs.size) (hlow : ∀ i < count, xs.getD i 0 ≤ x)
    (hhigh : ∀ i, count ≤ i → i < xs.size → x < xs.getD i 0) :
    narrow xs x base size = count - 1 := by
  fun_induction narrow xs x base size with
  | case1 base size hmore middle habove ih =>
    have hmiddle : count ≤ middle := by
      by_contra hlt
      have hnot := hlow middle (by omega)
      omega
    exact ih hbase (by omega) (by omega)
  | case2 base size hmore middle hnot ih =>
    have hmiddle : middle < count := by
      by_contra hle
      have habove := hhigh middle (by omega) (by omega)
      omega
    exact ih hmiddle (by omega) (by omega)
  | case3 base size hone => omega

end Search

namespace LineIndex

theorem getD_front {front back : List Nat} {i : Nat} (h : i < front.length) :
    (front ++ back).toArray.getD i 0 = front[i] := by
  simp [List.getElem?_append_left h, h]

theorem getD_back {front back : List Nat} {i : Nat} (h : front.length ≤ i)
    (hi : i < (front ++ back).length) : (front ++ back).toArray.getD i 0 ∈ back := by
  have hback : i - front.length < back.length := by
    rw [List.length_append] at hi
    omega
  simp [List.getElem?_append_right h, hback]

/-- The line of an offset is the last that starts no later. -/
theorem lineOf_eq (cs : List Char) {front back : List Nat} {offset : Nat} (hfront : front ≠ [])
    (hlow : ∀ start ∈ front, start ≤ offset) (hhigh : ∀ start ∈ back, offset < start) :
    (⟨cs, (front ++ back).toArray⟩ : LineIndex).lineOf offset = front.length - 1 := by
  have hpos : 0 < front.length := List.length_pos_iff.mpr hfront
  have hsize : (front ++ back).toArray.size = front.length + back.length := by simp
  have hfirst : ∀ i < front.length, (front ++ back).toArray.getD i 0 ≤ offset := by
    intro i hi
    rw [getD_front hi]
    exact hlow _ (List.getElem_mem hi)
  have hindex : narrow (front ++ back).toArray offset 0 (front ++ back).toArray.size =
      front.length - 1 := by
    apply narrow_eq hpos (by omega) (by omega) hfirst
    intro i hi hlt
    exact hhigh _ (getD_back hi hlt)
  have hsome : (front ++ back).toArray.isEmpty = false := by
    rw [Array.isEmpty_eq_false_iff, ← Array.size_pos_iff]
    omega
  have hlast := hfirst (front.length - 1) (by omega)
  unfold lineOf binarySearch
  rw [hsome, if_neg Bool.false_ne_true, hindex]
  -- A start at the offset itself is found; otherwise the offset would be put behind the last start.
  by_cases hhit : (front ++ back).toArray.getD (front.length - 1) 0 = offset
  · simp only [if_pos hhit]
  · have hless : (front ++ back).toArray.getD (front.length - 1) 0 < offset := by omega
    simp only [if_neg hhit, if_pos hless]
    omega

/-! ## Where lines start -/

theorem startsFrom_append (offset : Nat) (as bs : List Char) :
    startsFrom offset (as ++ bs) =
      startsFrom offset as ++ startsFrom (offset + byteLength as) bs := by
  induction as generalizing offset with
  | nil => rfl
  | cons c as ih =>
    rw [List.cons_append, startsFrom, startsFrom, ih, byteLength_cons, Nat.add_assoc]
    by_cases hc : c = '\n'
    · simp only [if_pos hc, List.cons_append]
    · simp only [if_neg hc]

theorem length_startsFrom (offset : Nat) (cs : List Char) :
    (startsFrom offset cs).length = cs.count '\n' := by
  induction cs generalizing offset with
  | nil => rfl
  | cons c cs ih =>
    rw [startsFrom, List.count_cons]
    by_cases hc : c = '\n'
    · simp [hc, ih]
    · simp [hc, ih]

/-- Lines start behind the start of the text and no later than its end. -/
theorem bounds_of_mem_startsFrom {offset start : Nat} {cs : List Char}
    (h : start ∈ startsFrom offset cs) :
    offset < start ∧ start ≤ offset + byteLength cs := by
  induction cs generalizing offset with
  | nil => cases h
  | cons c cs ih =>
    have hsize := c.utf8Size_pos
    have hlater : start ∈ startsFrom (offset + c.utf8Size) cs →
        offset < start ∧ start ≤ offset + byteLength (c :: cs) := by
      intro hmem
      have hbounds := ih hmem
      rw [byteLength_cons]
      omega
    rw [startsFrom] at h
    by_cases hc : c = '\n'
    · rw [if_pos hc] at h
      rcases List.mem_cons.mp h with rfl | hmem
      · rw [byteLength_cons]
        omega
      · exact hlater hmem
    · rw [if_neg hc] at h
      exact hlater h

theorem startsFrom_of_notMem {cs : List Char} (h : '\n' ∉ cs) (offset : Nat) :
    startsFrom offset cs = [] := by
  rw [← List.length_eq_zero_iff, length_startsFrom]
  exact List.count_eq_zero.mpr h

end LineIndex

/-! ## Lines of a text -/

/-- Lines of a text, each with its end. -/
def AreLines (cs : List Char) : Prop := cs = [] ∨ ∃ before, cs = before ++ ['\n']

/-- A text is its lines and what stands behind the last line end. -/
theorem exists_lines (cs : List Char) :
    ∃ lines last, cs = lines ++ last ∧ AreLines lines ∧ '\n' ∉ last := by
  induction cs using List.reverseRecOn with
  | nil => exact ⟨[], [], rfl, .inl rfl, List.not_mem_nil⟩
  | append_singleton cs c ih =>
    by_cases hc : c = '\n'
    · exact ⟨cs ++ [c], [], by simp, .inr ⟨cs, by rw [hc]⟩, List.not_mem_nil⟩
    · obtain ⟨lines, last, rfl, hlines, hlast⟩ := ih
      refine ⟨lines, last ++ [c], by simp, hlines, ?_⟩
      rw [List.mem_append, List.mem_singleton]
      rintro (hmem | heq)
      · exact hlast hmem
      · exact hc heq.symm

/-- What stands behind the last line end of a text. -/
def lastLine (cs : List Char) : List Char := (cs.reverse.takeWhile (· ≠ '\n')).reverse

theorem lastLine_append {lines last : List Char} (hlines : AreLines lines) (hlast : '\n' ∉ last) :
    lastLine (lines ++ last) = last := by
  have hall : ∀ c ∈ last.reverse, decide (c ≠ '\n') = true := by
    intro c hc
    apply decide_eq_true
    rintro rfl
    exact hlast (List.mem_reverse.mp hc)
  have hstop : lines.reverse.takeWhile (· ≠ '\n') = [] := by
    rcases hlines with rfl | ⟨before, rfl⟩
    · rfl
    · rw [List.reverse_concat]
      exact List.takeWhile_cons_of_neg (by simp)
  rw [lastLine, List.reverse_append, List.takeWhile_append_of_pos hall, hstop, List.append_nil,
    List.reverse_reverse]

theorem Position.behind_append {lines last : List Char} (hlines : AreLines lines)
    (hlast : '\n' ∉ last) : behind (lines ++ last) = ⟨lines.count '\n' + 1, last.length⟩ := by
  have hcolumn : ((lines ++ last).reverse.takeWhile (· ≠ '\n')).length = last.length := by
    rw [← List.length_reverse, ← lastLine, lastLine_append hlines hlast]
  rw [behind, hcolumn, List.count_append, List.count_eq_zero.mpr hlast, Nat.add_zero]

namespace LineIndex

variable {lines last after : List Char} {offset : Nat}

/-- The index finds the line that a text ends in, for each offset up to the next line. -/
theorem lineOf_ofText (hlines : AreLines lines) (hlast : '\n' ∉ last)
    (hle : byteLength (lines ++ last) ≤ offset)
    (hafter : ∀ start ∈ startsFrom (byteLength (lines ++ last)) after, offset < start) :
    (ofText (lines ++ last ++ after)).lineOf offset = lines.count '\n' ∧
      (ofText (lines ++ last ++ after)).starts.getD (lines.count '\n') 0 = byteLength lines := by
  have hindex : ofText (lines ++ last ++ after) = ⟨lines ++ last ++ after,
      (0 :: startsFrom 0 lines ++ startsFrom (byteLength (lines ++ last)) after).toArray⟩ := by
    rw [ofText, startsFrom_append, startsFrom_append, startsFrom_of_notMem hlast,
      List.append_nil, Nat.zero_add]
    rfl
  have hlength : (0 :: startsFrom 0 lines).length = lines.count '\n' + 1 := by
    rw [List.length_cons, length_startsFrom]
  rw [byteLength_append] at hle
  have hlow : ∀ start ∈ 0 :: startsFrom 0 lines, start ≤ offset := by
    intro start hstart
    rcases List.mem_cons.mp hstart with rfl | hmem
    · exact Nat.zero_le offset
    · have hbounds := bounds_of_mem_startsFrom hmem
      omega
  rw [hindex]
  constructor
  · rw [lineOf_eq _ (List.cons_ne_nil _ _) hlow hafter, hlength]
    rfl
  · show Array.getD _ _ _ = _
    rw [getD_front (by omega)]
    -- The last start of the lines is where they end.
    rcases hlines with rfl | ⟨before, rfl⟩
    · rfl
    · have hstarts : startsFrom 0 (before ++ ['\n']) =
          startsFrom 0 before ++ [byteLength before + 1] := by
        rw [startsFrom_append, Nat.zero_add]
        rfl
      have hcount : (before ++ ['\n']).count '\n' = (startsFrom 0 before).length + 1 := by
        rw [length_startsFrom, List.count_append]
        rfl
      simp only [hstarts, hcount, List.getElem_cons_succ, List.getElem_concat_length]
      rw [byteLength_append]
      rfl

/-! ## Places -/

theorem position_of_some {x : LineIndex} {line start : Nat} {text : List Char}
    (hle : offset ≤ byteLength x.source) (hline : x.lineOf offset = line)
    (hstart : x.starts.getD line 0 = start) (hslice : slice? x.source start offset = some text) :
    x.position offset = ⟨line + 1, text.length⟩ := by
  subst hline hstart
  rw [position, Nat.min_eq_left hle]
  simp only [hslice]

theorem position_of_none {x : LineIndex} {line start : Nat} (hle : offset ≤ byteLength x.source)
    (hline : x.lineOf offset = line) (hstart : x.starts.getD line 0 = start)
    (hslice : slice? x.source start offset = none) :
    x.position offset = ⟨line + 1, offset - start⟩ := by
  subst hline hstart
  rw [position, Nat.min_eq_left hle]
  simp only [hslice]

/-- The place of an offset between two characters is that behind the text before it. -/
theorem position_boundary (before after : List Char) :
    (ofText (before ++ after)).position (byteLength before) = .behind before := by
  obtain ⟨lines, last, rfl, hlines, hlast⟩ := exists_lines before
  have hle : byteLength (lines ++ last) ≤ byteLength (lines ++ last ++ after) := by
    rw [byteLength_append (lines ++ last)]
    omega
  have hafter : ∀ start ∈ startsFrom (byteLength (lines ++ last)) after,
      byteLength (lines ++ last) < start := by
    intro start hstart
    exact (bounds_of_mem_startsFrom hstart).1
  have hline := lineOf_ofText hlines hlast (Nat.le_refl _) hafter
  have hslice : slice? (lines ++ last ++ after) (byteLength lines) (byteLength (lines ++ last)) =
      some last := by
    rw [byteLength_append]
    exact slice?_append lines last after
  rw [position_of_some hle hline.1 hline.2 hslice, Position.behind_append hlines hlast]

theorem splitAtByte?_inside (before : List Char) {c : Char} (after : List Char) {k : Nat}
    (hpos : 0 < k) (hk : k < c.utf8Size) :
    splitAtByte? (byteLength before + k) (before ++ c :: after) = none := by
  induction before with
  | nil =>
    obtain ⟨k, rfl⟩ : ∃ n, k = n + 1 := ⟨k - 1, by omega⟩
    rw [byteLength_nil, Nat.zero_add, List.nil_append, splitAtByte?, if_neg (by omega)]
  | cons d before ih =>
    have hsize := d.utf8Size_pos
    obtain ⟨n, hn⟩ : ∃ n, byteLength (d :: before) + k = n + 1 :=
      ⟨byteLength (d :: before) + k - 1, by omega⟩
    rw [byteLength_cons] at hn
    have hrest : n + 1 - d.utf8Size = byteLength before + k := by omega
    rw [byteLength_cons, hn, List.cons_append, splitAtByte?, if_pos (by omega), hrest, ih]
    rfl

/-- Inside a character the bytes of the line are counted. -/
theorem position_inside (before : List Char) {c : Char} (after : List Char) {k : Nat}
    (hpos : 0 < k) (hk : k < c.utf8Size) :
    (ofText (before ++ c :: after)).position (byteLength before + k) =
      ⟨before.count '\n' + 1, byteLength (lastLine before) + k⟩ := by
  obtain ⟨lines, last, rfl, hlines, hlast⟩ := exists_lines before
  have hle : byteLength (lines ++ last) + k ≤ byteLength (lines ++ last ++ c :: after) := by
    rw [byteLength_append (lines ++ last), byteLength_cons]
    omega
  -- No line starts inside the character, which is no line end, as that has one byte only.
  have hafter : ∀ start ∈ startsFrom (byteLength (lines ++ last)) (c :: after),
      byteLength (lines ++ last) + k < start := by
    intro start hstart
    have hc : c ≠ '\n' := by
      rintro rfl
      have hone : '\n'.utf8Size = 1 := rfl
      omega
    rw [startsFrom, if_neg hc] at hstart
    have hbounds := bounds_of_mem_startsFrom hstart
    omega
  have hline := lineOf_ofText hlines hlast (Nat.le_add_right _ k) hafter
  have hslice : slice? (lines ++ last ++ c :: after) (byteLength lines)
      (byteLength (lines ++ last) + k) = none := by
    rw [slice?, splitAtByte?_inside _ _ hpos hk]
    rfl
  have hcount : (lines ++ last).count '\n' = lines.count '\n' := by
    rw [List.count_append, List.count_eq_zero.mpr hlast, Nat.add_zero]
  have hwidth : byteLength (lines ++ last) + k - byteLength lines = byteLength last + k := by
    rw [byteLength_append]
    omega
  rw [position_of_none hle hline.1 hline.2 hslice, hwidth, hcount, lastLine_append hlines hlast]

theorem position_min (x : LineIndex) (offset : Nat) :
    x.position (min offset (byteLength x.source)) = x.position offset := by
  rw [position, position, Nat.min_eq_left (Nat.min_le_right offset _)]

theorem position_past {cs : List Char} (h : byteLength cs ≤ offset) :
    (ofText cs).position offset = .behind cs := by
  have hend : (ofText cs).position (byteLength cs) = .behind cs := by
    simpa using position_boundary cs []
  rw [← position_min, ← hend]
  exact congrArg _ (Nat.min_eq_right h)

/-- An offset stands between two characters, inside one, or past the end. -/
theorem offset_cases (cs : List Char) (offset : Nat) :
    (∃ before after, cs = before ++ after ∧ offset = byteLength before) ∨
    (∃ before c after k, cs = before ++ c :: after ∧ offset = byteLength before + k ∧ 0 < k ∧
      k < c.utf8Size) ∨ byteLength cs < offset := by
  induction cs generalizing offset with
  | nil =>
    by_cases hzero : offset = 0
    · exact .inl ⟨[], [], rfl, hzero⟩
    · exact .inr (.inr (by rw [byteLength_nil]; omega))
  | cons c cs ih =>
    by_cases hzero : offset = 0
    · exact .inl ⟨[], c :: cs, rfl, hzero⟩
    by_cases hinside : offset < c.utf8Size
    · exact .inr (.inl ⟨[], c, cs, offset, rfl, (Nat.zero_add _).symm, by omega, hinside⟩)
    rcases ih (offset - c.utf8Size) with ⟨before, after, rfl, heq⟩ |
      ⟨before, d, after, k, rfl, heq, hpos, hk⟩ | hpast
    · exact .inl ⟨c :: before, after, rfl, by rw [byteLength_cons]; omega⟩
    · exact .inr (.inl ⟨c :: before, d, after, k, rfl, by rw [byteLength_cons]; omega, hpos, hk⟩)
    · exact .inr (.inr (by rw [byteLength_cons]; omega))

end LineIndex

/-! ## Places in files -/

/-- The byte that `cs` ends at has the place behind `cs`. -/
theorem positionAt_append (cs after : List Char) :
    positionAt (cs ++ after) (byteLength cs) = .behind cs :=
  LineIndex.position_boundary cs after

/-- Inside a file, the places of a text that stands there are those of the bytes it covers. -/
theorem offset_eq_positionAt (before cs after : List Char) :
    (Location.point (positionAt (before ++ cs ++ after) (byteLength before))).offset (.behind cs) =
      positionAt (before ++ cs ++ after) (byteLength before + byteLength cs) := by
  rw [← byteLength_append, positionAt_append, List.append_assoc, positionAt_append,
    Location.offset_behind]

/-- What follows the byte asked for has no part in its place. -/
theorem positionAt_append_of_le {cs : List Char} {offset : Nat} (h : offset ≤ byteLength cs)
    (after : List Char) : positionAt (cs ++ after) offset = positionAt cs offset := by
  rcases LineIndex.offset_cases cs offset with ⟨before, rest, rfl, rfl⟩ |
    ⟨before, c, rest, k, rfl, rfl, hpos, hk⟩ | hpast
  · rw [List.append_assoc, positionAt_append, positionAt_append]
  · rw [List.append_assoc, List.cons_append]
    exact (LineIndex.position_inside before _ hpos hk).trans
      (LineIndex.position_inside before _ hpos hk).symm
  · omega

/-- What stands behind the last line end is the same behind whole lines. -/
theorem lastLine_lines {lines : List Char} (hlines : lines.getLast? = some '\n')
    (cs : List Char) : lastLine (lines ++ cs) = lastLine cs := by
  obtain ⟨start, hstart⟩ := List.getLast?_eq_some_iff.mp hlines
  obtain ⟨first, last, rfl, hfirst, hlast⟩ := exists_lines cs
  have hwhole : AreLines (lines ++ first) := by
    rcases hfirst with rfl | ⟨before, rfl⟩
    · exact .inr ⟨start, by rw [List.append_nil, hstart]⟩
    · exact .inr ⟨lines ++ before, by rw [List.append_assoc]⟩
  rw [← List.append_assoc, lastLine_append hwhole hlast, lastLine_append hfirst hlast]

theorem Position.behind_lines {lines : List Char} (hlines : lines.getLast? = some '\n')
    (cs : List Char) : behind (lines ++ cs) = (behind cs).down (lines.count '\n') := by
  have hcolumn := congrArg List.length (lastLine_lines hlines cs)
  rw [lastLine, lastLine, List.length_reverse, List.length_reverse] at hcolumn
  rw [behind, hcolumn, List.count_append, Nat.add_comm (lines.count _), Nat.add_right_comm]
  rfl

/-- Behind whole lines a text has the places it has alone, as many lines further down. -/
theorem positionAt_lines {lines : List Char} (hlines : lines.getLast? = some '\n') (cs : List Char)
    (offset : Nat) :
    positionAt (lines ++ cs) (byteLength lines + offset) =
      (positionAt cs offset).down (lines.count '\n') := by
  rcases LineIndex.offset_cases cs offset with ⟨before, rest, rfl, rfl⟩ |
    ⟨before, c, rest, k, rfl, rfl, hpos, hk⟩ | hpast
  · rw [← List.append_assoc, ← byteLength_append, positionAt_append, positionAt_append,
      Position.behind_lines hlines]
  · have hplace := LineIndex.position_inside (lines ++ before) rest hpos hk
    have halone := LineIndex.position_inside before rest hpos hk
    rw [List.append_assoc, byteLength_append, Nat.add_assoc, lastLine_lines hlines] at hplace
    have hlater : (lines ++ before).count '\n' + 1 = before.count '\n' + 1 + lines.count '\n' := by
      rw [List.count_append]
      omega
    rw [positionAt, hplace, positionAt, halone, hlater]
    rfl
  · have hboth : byteLength (lines ++ cs) ≤ byteLength lines + offset := by
      rw [byteLength_append]
      omega
    have hplace := LineIndex.position_past hboth
    have halone := LineIndex.position_past (Nat.le_of_lt hpast)
    rw [positionAt, hplace, positionAt, halone, Position.behind_lines hlines]

theorem locationAt_lines {lines : List Char} (hlines : lines.getLast? = some '\n') (cs : List Char)
    (span : ByteSpan) :
    locationAt (lines ++ cs) (span.shift (byteLength lines)) =
      (locationAt cs span).down (lines.count '\n') := by
  show Location.ofRange (positionAt _ (span.first + _)) (positionAt _ (span.last + _)) = _
  rw [Nat.add_comm span.first, Nat.add_comm span.last, positionAt_lines hlines,
    positionAt_lines hlines]
  rfl

theorem locationAt_append_of_le {cs : List Char} {span : ByteSpan}
    (hfirst : span.first ≤ byteLength cs) (hlast : span.last ≤ byteLength cs) (after : List Char) :
    locationAt (cs ++ after) span = locationAt cs span := by
  show Location.ofRange (positionAt _ _) (positionAt _ _) = _
  rw [positionAt_append_of_le hfirst, positionAt_append_of_le hlast]
  rfl

/-! ## Places are in the order of their offsets -/

namespace Position

/-- A place as it is compared with others: by the line first, and by the column in one line. -/
def inOrder (p : Position) : ℕ ×ₗ ℕ := toLex (p.line, p.column)

theorem lt_next (p : Position) (c : Char) : p.inOrder < (p.next c).inOrder := by
  unfold next
  split
  · exact Prod.Lex.toLex_lt_toLex.mpr (.inl (Nat.lt_succ_self p.line))
  · exact Prod.Lex.toLex_lt_toLex.mpr (.inr ⟨rfl, Nat.lt_succ_self p.column⟩)

theorem lt_advance (p : Position) {cs : List Char} (hne : cs ≠ []) :
    p.inOrder < (p.advance cs).inOrder := by
  induction cs generalizing p with
  | nil => exact absurd rfl hne
  | cons c cs ih =>
    have hfirst : p.inOrder < (p.next c).inOrder := p.lt_next c
    by_cases hrest : cs = []
    · rw [hrest]
      exact hfirst
    · exact lt_trans hfirst (ih (p.next c) hrest)

end Position

/-- A byte offset before the first character of a text, between two, or behind the last. -/
def IsBoundary (cs : List Char) (offset : Nat) : Prop :=
  ∃ before after, cs = before ++ after ∧ byteLength before = offset

namespace LineIndex

theorem position_strictMonoOn (cs : List Char) :
    StrictMonoOn (fun offset => ((ofText cs).position offset).inOrder)
      {offset | IsBoundary cs offset} := by
  rintro m ⟨before, after, hcs, rfl⟩ n ⟨before', after', hcs', rfl⟩ hlt
  obtain ⟨between, rfl, -⟩ | ⟨more, rfl, -⟩ := List.append_eq_append_iff.mp (hcs.symm.trans hcs')
  · have hne : between ≠ [] := by
      rintro rfl
      rw [List.append_nil] at hlt
      exact Nat.lt_irrefl _ hlt
    have hplace : (ofText cs).position (byteLength before) = .behind before := by
      rw [hcs]
      exact position_boundary before after
    have hplace' : (ofText cs).position (byteLength (before ++ between)) =
        (Position.behind before).advance between := by
      rw [hcs', position_boundary, Position.advance_behind]
    show Position.inOrder _ < Position.inOrder _
    rw [hplace, hplace']
    exact Position.lt_advance _ hne
  · -- The offset of the longer text is not the smaller one.
    rw [byteLength_append] at hlt
    omega

/-- **A line index counts.** The place that it gives for an offset between two characters has the
line ends before the offset, and the characters since the last of them or since the start. Places
are in the order of these offsets, so that none is given twice, and past the end there is only the
place of the end. -/
theorem position_counts (cs : List Char) :
    (∀ before after, cs = before ++ after →
      (ofText cs).position (byteLength before) =
        ⟨1 + before.count '\n', (before.reverse.takeWhile (· ≠ '\n')).length⟩) ∧
    StrictMonoOn (fun offset => ((ofText cs).position offset).inOrder)
      {offset | IsBoundary cs offset} ∧
    Set.InjOn (ofText cs).position {offset | IsBoundary cs offset} ∧
    ∀ offset, byteLength cs < offset →
      (ofText cs).position offset = (ofText cs).position (byteLength cs) := by
  refine ⟨?_, position_strictMonoOn cs, ?_, ?_⟩
  · rintro before after rfl
    rw [position_boundary, Position.behind, Nat.add_comm]
  · intro m hm n hn hsame
    exact (position_strictMonoOn cs).injOn hm hn (congrArg Position.inOrder hsame)
  · intro offset hpast
    rw [position_past (Nat.le_of_lt hpast), position_past (Nat.le_refl _)]

/-- An offset inside a line, one at the start of an empty line, and one past the end. -/
theorem position_counts_empty_line :
    let before := "λ = x"
    let cs := (before ++ "\n\nend").toList
    cs = before.toList ++ "\n\nend".toList ∧ byteLength before.toList = 6 ∧
      (ofText cs).position 6 = ⟨1, 5⟩ ∧
      IsBoundary cs 6 ∧ IsBoundary cs 7 ∧
      ((ofText cs).position 6).inOrder < ((ofText cs).position 7).inOrder ∧
      (ofText cs).position 6 ≠ (ofText cs).position 7 ∧ (ofText cs).position 7 = ⟨2, 0⟩ ∧
      byteLength cs = 11 ∧ (ofText cs).position 99 = ⟨3, 3⟩ := by
  intro before cs
  have hcs : cs = before.toList ++ "\n\nend".toList := by decide
  have hcs' : cs = "λ = x\n".toList ++ "\nend".toList := by decide
  have hsix : byteLength before.toList = 6 := by decide
  have hline : IsBoundary cs 6 := ⟨before.toList, "\n\nend".toList, hcs, hsix⟩
  have hempty : IsBoundary cs 7 := ⟨"λ = x\n".toList, "\nend".toList, hcs', by decide⟩
  have hlength : byteLength cs = 11 := by decide
  obtain ⟨hcounts, hmono, hinj, hpast⟩ := position_counts cs
  have hplace : (ofText cs).position 6 = ⟨1, 5⟩ := by
    rw [← hsix, hcounts _ _ hcs]
    decide
  have hstart : (ofText cs).position 7 = ⟨2, 0⟩ := by
    rw [show 7 = byteLength "λ = x\n".toList by decide, hcounts _ _ hcs']
    decide
  have hend : (ofText cs).position 99 = ⟨3, 3⟩ := by
    rw [hpast 99 (by rw [hlength]; decide), hcounts cs [] (List.append_nil cs).symm]
    decide
  refine ⟨hcs, hsix, hplace, hline, hempty, hmono hline hempty (by decide), ?_, hstart, hlength,
    hend⟩
  intro hsame
  exact absurd (hinj hline hempty hsame) (by decide)

end LineIndex

end Graft

import Graft.Proofs.Files.Write

/-!
# Paths joined to a directory

A relative path that is joined to a directory adds its segments to those of the directory, and seen
from the directory again it is what was joined.
-/

namespace Graft.FilePath

variable {d p : FilePath} {ss front : List (List Char)}

theorem splitSegments_replicate (cs : List Char) (k : Nat) :
    splitSegments (cs ++ List.replicate k '/') = splitSegments cs ++ List.replicate k [] := by
  induction k generalizing cs with
  | zero => rw [List.replicate_zero, List.replicate_zero, List.append_nil, List.append_nil]
  | succ k ih =>
    rw [List.replicate_succ, FilePath.splitSegments_append, ← List.nil_append (List.replicate k '/'),
      ih, List.replicate_succ]
    rfl

theorem partsOf_append (hfront : front ≠ []) (ss : List (List Char)) :
    partsOf (front ++ ss) = partsOf front ++ ss.filterMap PathPart.ofSegment? := by
  obtain ⟨s, more, rfl⟩ := List.exists_cons_of_ne_nil hfront
  simp [partsOf]

theorem exists_toList_cons {s : String} (h : s.isEmpty = false) : ∃ c cs, s.toList = c :: cs := by
  rw [String.isEmpty_eq_false_iff, ne_eq, ← String.toList_eq_nil_iff] at h
  exact List.exists_cons_of_ne_nil h

theorem isAbsolute_eq (h : p.text.isEmpty = false) :
    p.isAbsolute = decide (p.segments.head? = some []) := by
  rw [Bool.eq_iff_iff, isAbsolute_iff, decide_eq_true_eq]
  cases hp : p.segments with
  | nil => exact absurd hp (splitSegments_ne_nil _)
  | cons s ss =>
    cases ss with
    | nil =>
      -- A single segment that is empty is an empty path.
      refine iff_of_false (by simp) fun hs => ?_
      have htext := joinSegments_splitSegments p.text.toList
      obtain ⟨c, cs, hcs⟩ := exists_toList_cons h
      rw [← segments, hp, Option.some.inj hs, hcs] at htext
      cases htext
    | cons x xs => simp

theorem parts_eq_partsOf (h : p.text.isEmpty = false) : p.parts = partsOf p.segments := by
  have habsolute := isAbsolute_eq h
  unfold parts
  cases hp : p.segments with
  | nil => exact absurd hp (splitSegments_ne_nil _)
  | cons s ss =>
    rw [hp] at habsolute
    simp [habsolute, partsOf]

/-- The first segment of a path stands for a part. -/
theorem exists_firstPart? (s : List Char) :
    ∃ part, firstPart? (s = []) s = some part ∧ (part = .here ↔ s = ['.']) := by
  by_cases hs : s = []
  · exact ⟨.root, by simp [firstPart?, hs], by simp [hs]⟩
  by_cases hhere : s = ['.']
  · exact ⟨.here, by simp [firstPart?, hhere], by simp [hhere]⟩
  by_cases hparent : s = ['.', '.']
  · exact ⟨.parent, by simp [firstPart?, PathPart.ofSegment?, hparent], by simp [hparent]⟩
  · exact ⟨.name (.ofList s), by simp [firstPart?, PathPart.ofSegment?, hs, hhere, hparent],
      by simp [hhere]⟩

/-- What is joined to a path comes behind all its segments but an empty one at its end. -/
theorem front_cases (h : d.text.isEmpty = false) :
    d.front ≠ [] ∧ (d.segments = d.front ∨ d.segments = d.front ++ [[]]) := by
  unfold front
  rw [h, if_neg Bool.false_ne_true]
  split
  next hlast =>
    obtain ⟨cs, hcs⟩ := List.getLast?_eq_some_iff.mp hlast
    have hd : d.segments = splitSegments cs ++ [[]] := by
      rw [segments, hcs, splitSegments_append]
      rfl
    rw [hd, List.dropLast_concat]
    exact ⟨splitSegments_ne_nil cs, .inr rfl⟩
  next => exact ⟨splitSegments_ne_nil _, .inl rfl⟩

theorem partsOf_front (h : d.text.isEmpty = false) : partsOf d.front = d.parts := by
  obtain ⟨hne, hsegments | hsegments⟩ := front_cases h
  · rw [parts_eq_partsOf h, hsegments]
  · rw [parts_eq_partsOf h, hsegments, partsOf_append hne]
    simp [PathPart.ofSegment?]

/-- An empty segment at the end does not count when something is joined. -/
theorem front_of_segments {s : List Char} (h : d.text.isEmpty = false)
    (hd : d.segments = ss ++ [s]) : d.front = ss ++ [s].filter (· ≠ []) := by
  obtain ⟨hne, hsame | hempty⟩ := front_cases h
  · have hs : s ≠ [] := by
      rintro rfl
      have hss : ss ≠ [] := by
        rintro rfl
        obtain ⟨c, cs, hcs⟩ := exists_toList_cons h
        have htext := joinSegments_splitSegments d.text.toList
        rw [← segments, hd, hcs] at htext
        cases htext
      have hlast := FileTree.getLast?_text hd hss
      rw [front, h, if_neg Bool.false_ne_true, if_pos hlast, hd, List.dropLast_concat] at hsame
      simp at hsame
    rw [← hsame, hd]
    simp [hs]
  · rw [hd] at hempty
    obtain ⟨hss, hs⟩ := List.append_singleton_inj.mp hempty
    simp [hss, hs]

theorem join_text (hd : d.text.isEmpty = false) (hp : p.isAbsolute = false) :
    ∃ more, (d.join p).text = d.text ++ more := by
  unfold join
  rw [hd, hp, Bool.or_false, if_neg Bool.false_ne_true]
  split
  · exact ⟨_, rfl⟩
  · exact ⟨_, String.append_assoc ..⟩

theorem join_text_isEmpty (hd : d.text.isEmpty = false) (hp : p.isAbsolute = false) :
    (d.join p).text.isEmpty = false := by
  obtain ⟨more, htext⟩ := join_text hd hp
  obtain ⟨c, cs, hcs⟩ := exists_toList_cons hd
  rw [htext, String.isEmpty_eq_false_iff, ne_eq, ← String.toList_eq_nil_iff, String.toList_append,
    hcs]
  simp

theorem segments_of_not_mem {s : String} (h : '/' ∉ s.toList) :
    (FilePath.mk s).segments = [s.toList] := splitSegments_of_not_mem h

theorem isAbsolute_of_not_mem {s : String} (h : '/' ∉ s.toList) :
    (FilePath.mk s).isAbsolute = false :=
  decide_eq_false fun hhead => h (List.mem_of_mem_head? hhead)

theorem front_join {s : String} (hd : d.text.isEmpty = false) (hs : '/' ∉ s.toList) :
    (d.join ⟨s⟩).front = d.front ++ [s.toList].filter (· ≠ []) := by
  have hrelative := isAbsolute_of_not_mem hs
  refine front_of_segments (join_text_isEmpty hd hrelative) ?_
  rw [segments_join hrelative, segments_of_not_mem hs]

theorem isAbsolute_join (hd : d.text.isEmpty = false) (hp : p.isAbsolute = false) :
    (d.join p).isAbsolute = d.isAbsolute := by
  obtain ⟨more, htext⟩ := join_text hd hp
  obtain ⟨c, cs, hcs⟩ := exists_toList_cons hd
  rw [isAbsolute, isAbsolute, htext, String.toList_append, hcs]
  rfl

/-! ## Paths seen from a directory -/

theorem isIdle_of_ofSegment? {s : List Char} (h : PathPart.ofSegment? s = none) : isIdle s := by
  unfold PathPart.ofSegment? at h
  split at h
  next hidle => exact hidle
  next =>
    split at h
    · cases h
    · cases h

theorem IsName.not_isIdle {n : String} (h : IsName n) : isIdle n.toList = false := by
  simp [isIdle, h.ne_nil, (isName_iff.mp h).2.2.1]

/-- The parts of a directory can be dropped from a path that starts with its segments. Of these,
some that stand for nothing may be left. -/
theorem dropParts_append (front ss : List (List Char)) :
    ∃ idle, (∀ s ∈ idle, isIdle s) ∧
      dropParts (front.filterMap PathPart.ofSegment?) (front ++ ss) = some (idle ++ ss) := by
  induction front with
  | nil => exact ⟨[], by simp, by simp [dropParts]⟩
  | cons s front ih =>
    obtain ⟨idle, hidle, hdrop⟩ := ih
    rw [List.cons_append]
    cases hs : PathPart.ofSegment? s with
    | some part =>
      refine ⟨idle, hidle, ?_⟩
      rw [List.filterMap_cons, hs]
      simp [dropParts, hs, hdrop]
    | none =>
      rw [List.filterMap_cons, hs]
      cases hparts : front.filterMap PathPart.ofSegment? with
      | nil =>
        -- Nothing is left to drop, and no segment of the directory stands for anything.
        refine ⟨s :: front, fun x hx => ?_, by simp [dropParts]⟩
        have hnone : (s :: front).filterMap PathPart.ofSegment? = [] := by
          rw [List.filterMap_cons, hs, hparts]
        exact isIdle_of_ofSegment? (List.filterMap_eq_nil_iff.mp hnone x hx)
      | cons part more =>
        refine ⟨idle, hidle, ?_⟩
        rw [hparts] at hdrop
        simp [dropParts, hs, hdrop]

/-- Of idle segments and names behind them, the names stay. -/
theorem trimBack_dropWhile {idle : List (List Char)} {names : List String}
    (hidle : ∀ s ∈ idle, isIdle s) (hne : names ≠ []) (hnames : ∀ n ∈ names, IsName n) :
    trimBack ((idle ++ names.map String.toList).dropWhile isIdle) = names.map String.toList := by
  obtain ⟨n, ns, rfl⟩ := List.exists_cons_of_ne_nil hne
  obtain ⟨above, m, hlast⟩ : ∃ above m, n :: ns = above ++ [m] :=
    ⟨_, _, (List.dropLast_concat_getLast hne).symm⟩
  have hfirst := (hnames n List.mem_cons_self).not_isIdle
  have hm := (hnames m (hlast ▸ List.mem_append_right _ List.mem_cons_self)).not_isIdle
  rw [List.dropWhile_append_of_pos hidle, List.map_cons, List.dropWhile_cons_of_neg (by simp [hfirst]),
    ← List.map_cons, hlast, trimBack, List.map_append, List.reverse_append, List.map_singleton,
    List.reverse_singleton, List.singleton_append, List.dropWhile_cons_of_neg (by simp [hm]),
    List.reverse_cons, List.reverse_reverse]

/-- A path of names below a directory, as seen from the directory. -/
theorem Below.relativeTo?_eq {names : List String} (h : p.Below front names) (hfront : front ≠ [])
    (hparts : partsOf front = d.parts) : p.relativeTo? d = some ⟨"/".intercalate names⟩ := by
  obtain ⟨s, more, rfl⟩ := List.exists_cons_of_ne_nil hfront
  obtain ⟨part, hpart, -⟩ := exists_firstPart? s
  have habsolute : p.isAbsolute = decide (s = []) := by
    rw [h.isAbsolute_eq]
    simp
  obtain ⟨idle, hidle, hdrop⟩ := dropParts_append more (names.map String.toList)
  have hd : d.parts = part :: more.filterMap PathPart.ofSegment? := by
    rw [← hparts, partsOf, hpart]
    rfl
  unfold relativeTo?
  rw [hd, h.segments, List.cons_append]
  simp only [habsolute, hpart, if_true, hdrop, Option.map_some,
    trimBack_dropWhile hidle h.ne_nil h.names]
  rw [← toList_intercalate_names, String.ofList_toList]

/-- A path that does not start with `.` is not seen from one that does. -/
theorem Below.relativeTo?_eq_none {names : List String} (h : p.Below front names)
    (hfront : front.head? ≠ some ['.']) (hparts : d.parts.head? = some .here) :
    p.relativeTo? d = none := by
  obtain ⟨more, hd⟩ := List.head?_eq_some_iff.mp hparts
  obtain ⟨s, rest, hsegments, hs, habsolute⟩ : ∃ s rest, p.segments = s :: rest ∧ s ≠ ['.'] ∧
      p.isAbsolute = decide (s = []) := by
    cases front with
    | nil =>
      obtain ⟨n, ns, rfl⟩ := List.exists_cons_of_ne_nil h.ne_nil
      have hn := h.names n List.mem_cons_self
      exact ⟨n.toList, _, h.segments, (isName_iff.mp hn).2.2.1, by
        rw [h.isAbsolute_eq]; simp [hn.ne_nil]⟩
    | cons s front =>
      exact ⟨s, _, h.segments, by simpa using hfront, by rw [h.isAbsolute_eq]; simp⟩
  obtain ⟨part, hpart, hiff⟩ := exists_firstPart? s
  have hne : some part ≠ some PathPart.here := fun hsame => hs (hiff.mp (Option.some.inj hsame))
  unfold relativeTo?
  rw [hd, hsegments]
  simp only [habsolute, hpart, if_neg hne]

/-- The path of names behind some segments. -/
def ofNames (front : List (List Char)) (names : List String) : FilePath :=
  ⟨.ofList (joinSegments (front ++ names.map String.toList))⟩

theorem Below.eq_ofNames {names : List String} (h : p.Below front names) :
    p = ofNames front names := by
  have htext := joinSegments_splitSegments p.text.toList
  rw [← FilePath.segments, h.segments] at htext
  rw [ofNames, htext, String.ofList_toList]

end Graft.FilePath

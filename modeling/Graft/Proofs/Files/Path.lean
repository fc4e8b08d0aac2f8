import Graft.Files.Path

/-!
# Paths below a directory

The segments of a path that is joined to a directory are those of the directory, but for an empty
one at its end, and behind them its own. So two paths of ordinary names below one directory are the
same path only if they have the same names.
-/

namespace Graft.FilePath

/-! ## Segments -/

theorem not_mem_of_mem_splitSegments {cs s : List Char} (h : s ∈ splitSegments cs) : '/' ∉ s := by
  induction cs generalizing s with
  | nil =>
    rw [List.mem_singleton.mp h]
    exact List.not_mem_nil
  | cons c cs ih =>
    rw [splitSegments] at h
    split at h
    · rcases List.mem_cons.mp h with rfl | h
      · exact List.not_mem_nil
      · exact ih h
    next hc =>
      cases hcs : splitSegments cs with
      | nil => exact absurd hcs (splitSegments_ne_nil cs)
      | cons t ts =>
        rw [hcs] at h ih
        rcases List.mem_cons.mp h with rfl | h
        · rw [List.mem_cons, not_or]
          exact ⟨Ne.symm hc, ih List.mem_cons_self⟩
        · exact ih (List.mem_cons_of_mem t h)

/-- Separators cut a text into the segments of the texts before and behind. -/
theorem splitSegments_append (as bs : List Char) :
    splitSegments (as ++ '/' :: bs) = splitSegments as ++ splitSegments bs := by
  induction as with
  | nil => simp [splitSegments]
  | cons a as ih =>
    rw [List.cons_append, splitSegments, ih, splitSegments]
    split
    · rfl
    · cases has : splitSegments as with
      | nil => exact absurd has (splitSegments_ne_nil as)
      | cons s ss => rfl

theorem splitSegments_of_not_mem {s : List Char} (h : '/' ∉ s) : splitSegments s = [s] := by
  induction s with
  | nil => rfl
  | cons c cs ih =>
    rw [List.mem_cons, not_or] at h
    rw [splitSegments, if_neg (Ne.symm h.1), ih h.2]

theorem splitSegments_joinSegments {ss : List (List Char)} (hne : ss ≠ [])
    (h : ∀ s ∈ ss, '/' ∉ s) : splitSegments (joinSegments ss) = ss := by
  induction ss with
  | nil => exact absurd rfl hne
  | cons s ss ih =>
    have hs := splitSegments_of_not_mem (h s List.mem_cons_self)
    cases ss with
    | nil => exact hs
    | cons t ts =>
      rw [joinSegments_cons s (List.cons_ne_nil t ts), splitSegments_append, hs,
        ih (List.cons_ne_nil t ts) fun u hu => h u (List.mem_cons_of_mem s hu)]
      rfl

/-- A path starts at the root if and only if its first segment is empty and another one follows. -/
theorem isAbsolute_iff (p : FilePath) : p.isAbsolute ↔ ∃ s ss, p.segments = [] :: s :: ss := by
  rw [isAbsolute, segments, decide_eq_true_eq]
  cases p.text.toList with
  | nil => simp [splitSegments]
  | cons c cs =>
    rw [splitSegments]
    split
    next hc =>
      obtain ⟨s, ss, hcs⟩ := List.exists_cons_of_ne_nil (splitSegments_ne_nil cs)
      simp [hc, hcs]
    next hc =>
      cases hcs : splitSegments cs with
      | nil => exact absurd hcs (splitSegments_ne_nil cs)
      | cons s ss => simp [hc]

/-! ## Ordinary names -/

/-- A name as it stands in a path: one segment, which neither stays nor leads up. -/
structure IsName (n : String) : Prop where
  noSeparator : '/' ∉ n.toList
  segment : PathPart.ofSegment? n.toList = some (.name n)

theorem IsName.ne_nil {n : String} (h : IsName n) : n.toList ≠ [] := by
  intro hnil
  have hsegment := h.segment
  rw [hnil] at hsegment
  cases hsegment

theorem isName_of_segment {s : List Char} {n : String} (hs : '/' ∉ s)
    (h : PathPart.ofSegment? s = some (.name n)) : IsName n := by
  have hn : n.toList = s := by
    unfold PathPart.ofSegment? at h
    split at h
    · cases h
    split at h
    · cases h
    · rw [← PathPart.name.inj (Option.some.inj h), String.toList_ofList]
  exact ⟨by rw [hn]; exact hs, by rw [hn]; exact h⟩

theorem isName_iff {n : String} :
    IsName n ↔ '/' ∉ n.toList ∧ n.toList ≠ [] ∧ n.toList ≠ ['.'] ∧ n.toList ≠ ['.', '.'] := by
  constructor
  · rintro ⟨hslash, h⟩
    refine ⟨hslash, ?_, ?_, ?_⟩ <;>
    · intro hn
      rw [hn] at h
      cases h
  · rintro ⟨hslash, hnil, hhere, hparent⟩
    refine ⟨hslash, ?_⟩
    simp [PathPart.ofSegment?, hnil, hhere, hparent]

/-- The ordinary names of a path. -/
def names (p : FilePath) : List String := p.parts.filterMap PathPart.name?

theorem isName_of_mem_names {p : FilePath} {n : String} (h : n ∈ p.names) : IsName n := by
  obtain ⟨part, hpart, hname⟩ := List.mem_filterMap.mp h
  obtain rfl : part = .name n := by
    cases part with
    | name m => exact congrArg _ (Option.some.inj hname)
    | _ => cases hname
  have hsegments : ∀ s ∈ p.segments, '/' ∉ s := fun s hs => not_mem_of_mem_splitSegments hs
  unfold parts at hpart
  cases hp : p.segments with
  | nil => exact absurd hp (splitSegments_ne_nil _)
  | cons s ss =>
    rw [hp] at hpart hsegments
    rcases List.mem_append.mp hpart with hpart | hpart
    · have hfirst : firstPart? p.isAbsolute s = some (.name n) := Option.mem_toList.mp hpart
      unfold firstPart? at hfirst
      split at hfirst
      · cases hfirst
      split at hfirst
      · cases hfirst
      · exact isName_of_segment (hsegments s List.mem_cons_self) hfirst
    · obtain ⟨t, ht, htn⟩ := List.mem_filterMap.mp hpart
      exact isName_of_segment (hsegments t (List.mem_cons_of_mem s ht)) htn

/-! ## Paths of names below a directory -/

/-- The segments that a path starts with that has been joined to `d`. -/
def front (d : FilePath) : List (List Char) :=
  if d.text.isEmpty then []
  else if d.text.toList.getLast? = some '/' then d.segments.dropLast
  else d.segments

theorem segments_join {d p : FilePath} (hp : p.isAbsolute = false) :
    (d.join p).segments = d.front ++ p.segments := by
  have hslash : "/".toList = ['/'] := rfl
  unfold join front
  rw [hp, Bool.false_or]
  split
  · rfl
  split
  next hlast =>
    obtain ⟨cs, hcs⟩ := List.getLast?_eq_some_iff.mp hlast
    have hd : d.segments = splitSegments cs ++ [[]] := by
      rw [segments, hcs, splitSegments_append]
      rfl
    rw [hd, List.dropLast_concat, segments, String.toList_append, hcs, List.append_assoc,
      List.singleton_append, splitSegments_append]
    rfl
  · rw [segments, String.toList_append, String.toList_append, hslash, List.append_assoc,
      List.singleton_append, splitSegments_append]
    rfl

/-- The path has `names` behind the segments of some directory. -/
structure Below (front : List (List Char)) (names : List String) (p : FilePath) : Prop where
  segments : p.segments = front ++ names.map String.toList
  ne_nil : names ≠ []
  names : ∀ n ∈ names, IsName n

/-- The parts that the first segments of a path stand for. -/
def partsOf : List (List Char) → List PathPart
  | [] => []
  | s :: ss => (firstPart? (s = []) s).toList ++ ss.filterMap PathPart.ofSegment?

theorem filterMap_ofSegment?_names {names : List String} (h : ∀ n ∈ names, IsName n) :
    (names.map String.toList).filterMap PathPart.ofSegment? = names.map .name := by
  induction names with
  | nil => rfl
  | cons n ns ih =>
    rw [List.map_cons, List.filterMap_cons, (h n List.mem_cons_self).segment,
      ih fun m hm => h m (List.mem_cons_of_mem n hm)]
    rfl

namespace Below

variable {front : List (List Char)} {names names' : List String} {p q : FilePath}

theorem isAbsolute_eq (h : p.Below front names) :
    p.isAbsolute = decide (front.head? = some []) := by
  rw [Bool.eq_iff_iff, isAbsolute_iff, decide_eq_true_eq, h.segments]
  obtain ⟨n, ns, rfl⟩ := List.exists_cons_of_ne_nil h.ne_nil
  have hn := (h.names n List.mem_cons_self).ne_nil
  cases front with
  | nil => simp [hn]
  | cons s ss =>
    cases ss <;> simp

theorem parts_eq (h : p.Below front names) : p.parts = partsOf front ++ names.map .name := by
  have habsolute := h.isAbsolute_eq
  have hnames := filterMap_ofSegment?_names h.names
  unfold parts
  rw [h.segments, habsolute]
  cases front with
  | nil =>
    obtain ⟨n, ns, rfl⟩ := List.exists_cons_of_ne_nil h.ne_nil
    have hn := h.names n List.mem_cons_self
    have hhere : n.toList ≠ ['.'] := (isName_iff.mp hn).2.2.1
    have hfirst : firstPart? false n.toList = some (.name n) := by
      rw [firstPart?, if_neg (by decide), if_neg hhere, hn.segment]
    have hrest := filterMap_ofSegment?_names fun m hm => h.names m (List.mem_cons_of_mem n hm)
    simp [hfirst, hrest, partsOf]
  | cons s ss =>
    rw [List.cons_append]
    simp only [List.head?_cons, Option.some.injEq, List.filterMap_append, hnames, partsOf,
      List.append_assoc]

/-- Paths below one directory are the same if and only if their names are. -/
theorem same_iff (hp : p.Below front names) (hq : q.Below front names') :
    p.same q ↔ names = names' := by
  rw [same, decide_eq_true_eq, hp.parts_eq, hq.parts_eq, List.append_cancel_left_eq,
    List.map_inj_right fun _ _ => PathPart.name.inj]

theorem fileName?_eq (h : p.Below front names) : p.fileName? = names.getLast? := by
  rw [fileName?, h.parts_eq, List.getLast?_append, List.getLast?_map]
  cases hlast : names.getLast? with
  | none => exact absurd (List.getLast?_eq_none_iff.mp hlast) h.ne_nil
  | some n => rfl

end Below

/-! ## The ordinary names of a path below a directory -/

theorem toList_intercalate_names (names : List String) :
    ("/".intercalate names).toList = joinSegments (names.map String.toList) := by
  induction names with
  | nil => rfl
  | cons n ns ih =>
    cases ns with
    | nil => simp [joinSegments]
    | cons m ns =>
      rw [String.intercalate_cons_of_ne_nil (List.cons_ne_nil m ns), List.map_cons,
        joinSegments_cons _ (by simp), String.toList_append, String.toList_append, ih]
      simp

theorem below_join_ordinary (d : FilePath) {p : FilePath} (h : p.names ≠ []) :
    (d.join p.ordinary).Below d.front p.names := by
  have hnames : ∀ n ∈ p.names, IsName n := fun n hn => isName_of_mem_names hn
  have hsegments : p.ordinary.segments = p.names.map String.toList := by
    have htext : p.ordinary.text.toList = joinSegments (p.names.map String.toList) :=
      toList_intercalate_names p.names
    rw [segments, htext, splitSegments_joinSegments (by simpa using h)]
    intro s hs
    obtain ⟨n, hn, rfl⟩ := List.mem_map.mp hs
    exact (hnames n hn).noSeparator
  have halone : p.ordinary.Below [] p.names := ⟨hsegments, h, hnames⟩
  have hrelative : p.ordinary.isAbsolute = false := halone.isAbsolute_eq
  exact ⟨by rw [segments_join hrelative, hsegments], h, hnames⟩

theorem exists_names_concat {p : FilePath} {n : String} (h : p.fileName? = some n) :
    ∃ above, p.names = above ++ [n] := by
  obtain ⟨part, hlast, hname⟩ := Option.bind_eq_some_iff.mp h
  obtain rfl : part = .name n := by
    cases part with
    | name m => exact congrArg _ (Option.some.inj hname)
    | _ => cases hname
  obtain ⟨parts, hparts⟩ := List.getLast?_eq_some_iff.mp hlast
  exact ⟨parts.filterMap PathPart.name?, by rw [names, hparts, List.filterMap_append]; rfl⟩

/-! ## Extensions -/

theorem splitExtension_fst_isPrefix (n : List Char) : (splitExtension n).1 <+: n := by
  unfold splitExtension
  simp only
  split
  · exact List.prefix_rfl
  · exact (List.dropLast_prefix _).trans (List.take_prefix _ _)

theorem splitExtension_fst_ne_nil {n : List Char} (h : n ≠ []) : (splitExtension n).1 ≠ [] := by
  unfold splitExtension
  simp only
  split
  · exact h
  next hstem =>
    rw [Bool.or_eq_true, not_or] at hstem
    simpa using hstem.2

/-- A name that has been given an extension has that one, and without it is what it was. -/
theorem splitExtension_append {stem ext : List Char} (hstem : stem ≠ []) (hext : '.' ∉ ext) :
    splitExtension (stem ++ '.' :: ext) = (stem, some ext) := by
  have hlast : ((stem ++ '.' :: ext).reverse.takeWhile (· ≠ '.')).reverse = ext := by
    have hreverse : (stem ++ '.' :: ext).reverse = ext.reverse ++ '.' :: stem.reverse := by simp
    have hstay : ∀ c ∈ ext.reverse, decide (c ≠ '.') = true := by
      intro c hc
      rw [decide_eq_true_eq]
      rintro rfl
      exact hext (List.mem_reverse.mp hc)
    rw [hreverse, List.takeWhile_append_of_pos hstay, List.takeWhile_cons_of_neg (by decide),
      List.append_nil, List.reverse_reverse]
  have hfirst : ((stem ++ '.' :: ext).take ((stem ++ '.' :: ext).length - ext.length)).dropLast =
      stem := by
    have hlength : (stem ++ '.' :: ext).length - ext.length = (stem ++ ['.']).length := by
      simp only [List.length_append, List.length_cons, List.length_nil]
      omega
    have hsplit : stem ++ '.' :: ext = (stem ++ ['.']) ++ ext := by simp
    rw [hlength, hsplit, List.take_left, List.dropLast_concat]
  have hlonger : ¬ (ext.length = (stem ++ '.' :: ext).length ∨ stem = []) := by
    rw [not_or]
    refine ⟨?_, hstem⟩
    simp only [List.length_append, List.length_cons]
    omega
  unfold splitExtension
  simp only [hlast, hfirst, Bool.or_eq_true, decide_eq_true_eq]
  rw [if_neg hlonger]

/-- The name that another extension makes of a name. -/
def extended (ext n : String) : String :=
  .ofList ((splitExtension n.toList).1 ++ '.' :: ext.toList)

theorem isName_extended {ext n : String} (hext : '/' ∉ ext.toList) (hne : ext.toList ≠ [])
    (h : IsName n) : IsName (extended ext n) := by
  have hstem := splitExtension_fst_ne_nil h.ne_nil
  refine isName_iff.mpr ⟨?_, ?_⟩
  · rw [extended, String.toList_ofList, List.mem_append, List.mem_cons]
    rintro (hmem | hdot | hmem)
    · exact h.noSeparator ((splitExtension_fst_isPrefix _).subset hmem)
    · exact absurd hdot (by decide)
    · exact hext hmem
  · obtain ⟨c, stem, hcs⟩ := List.exists_cons_of_ne_nil hstem
    obtain ⟨d, more, hds⟩ := List.exists_cons_of_ne_nil hne
    rw [extended, String.toList_ofList, hcs, hds]
    cases stem <;> simp

theorem extended_inj {ext n n' : String} :
    extended ext n = extended ext n' ↔
      (splitExtension n.toList).1 = (splitExtension n'.toList).1 := by
  rw [extended, extended, String.ofList_inj, List.append_cancel_right_eq]

namespace Below

variable {front : List (List Char)} {above : List String} {n : String} {p : FilePath}

theorem lastSegment?_eq (h : p.Below front (above ++ [n])) :
    p.lastSegment? = some (front ++ above.map String.toList, n.toList) := by
  have hn := h.names n (List.mem_append_right _ List.mem_cons_self)
  have hidle : isIdle n.toList = false := by
    simp [isIdle, hn.ne_nil, (isName_iff.mp hn).2.2.1]
  have hsegments : p.segments = front ++ above.map String.toList ++ [n.toList] := by
    rw [h.segments, List.map_append, List.append_assoc]
    rfl
  have htrim : trimBack p.segments = p.segments := by
    rw [trimBack, hsegments, List.reverse_append, List.reverse_singleton, List.singleton_append,
      List.dropWhile_cons_of_neg (by simp [hidle]), List.reverse_cons, List.reverse_reverse]
  unfold lastSegment?
  cases hp : p.segments with
  | nil => exact absurd hp (splitSegments_ne_nil _)
  | cons s ss =>
    simp only
    rw [← hp, htrim, hsegments, List.getLast?_concat, List.dropLast_concat]
    rfl

/-- Another extension changes the last name only. -/
theorem withExtension (h : p.Below front (above ++ [n])) {ext : String} (hext : '/' ∉ ext.toList)
    (hne : ext.toList ≠ []) :
    (p.withExtension ext).Below front (above ++ [extended ext n]) := by
  have hn := h.names n (List.mem_append_right _ List.mem_cons_self)
  have hstem : p.stem? = some (.ofList (splitExtension n.toList).1) := by
    rw [stem?, h.fileName?_eq, List.getLast?_concat]
    rfl
  have hname : ∀ m ∈ above ++ [extended ext n], IsName m := by
    intro m hm
    rcases List.mem_append.mp hm with hm | hm
    · exact h.names m (List.mem_append_left _ hm)
    · rw [List.mem_singleton.mp hm]
      exact isName_extended hext hne hn
  refine ⟨?_, by simp, hname⟩
  have hslash : ∀ s ∈ front ++ (above ++ [extended ext n]).map String.toList, '/' ∉ s := by
    intro s hs
    rcases List.mem_append.mp hs with hs | hs
    · have hmem : s ∈ p.segments := by
        rw [h.segments]
        exact List.mem_append_left _ hs
      exact not_mem_of_mem_splitSegments hmem
    · obtain ⟨m, hm, rfl⟩ := List.mem_map.mp hs
      exact (hname m hm).noSeparator
  have htext : (p.withExtension ext).text.toList =
      joinSegments (front ++ (above ++ [extended ext n]).map String.toList) := by
    rw [FilePath.withExtension, hstem, h.lastSegment?_eq]
    simp [extended]
  rw [FilePath.segments, htext, splitSegments_joinSegments (by simp) hslash]

end Below

end Graft.FilePath

import Graft.Files.Search
import Graft.Proofs.Files.Join
import Graft.Proofs.Files.Write

/-!
# Searching below a directory

A directory is searched by a pattern that its path is part of. Where that path has no wildcards in
it, the pattern is followed segment by segment to the directory, and the paths found are those of
all entries below it.
-/

namespace Graft

/-! ## Patterns without wildcards -/

namespace PathPattern

/-- The character stands for itself in a pattern. -/
def IsPlain (c : Char) : Prop := c ≠ '*' ∧ c ≠ '?' ∧ c ≠ '['

instance : DecidablePred IsPlain := fun _ => inferInstanceAs (Decidable (_ ∧ _))

variable {cs : List Char}

theorem readFrom_cons_plain {c : Char} (h : IsPlain c) (n : Nat) (before : Option Char)
    (cs : List Char) :
    readFrom n before (c :: cs) = (readFrom (n + 1) (some c) cs).map (.char c :: ·) := by
  obtain ⟨hstar, hmark, hbracket⟩ := h
  rw [readFrom.eq_def]
  simp only [hstar, hmark, hbracket, if_false]

theorem readFrom_plain (h : ∀ c ∈ cs, IsPlain c) (n : Nat) (before : Option Char)
    (rest : List Char) :
    readFrom n before (cs ++ rest) =
      (readFrom (n + cs.length) (cs.getLast?.or before) rest).map (cs.map .char ++ ·) := by
  induction cs generalizing n before with
  | nil =>
    rw [List.nil_append, List.length_nil, Nat.add_zero, List.getLast?_nil, Option.none_or]
    cases readFrom n before rest <;> rfl
  | cons c cs ih =>
    rw [List.cons_append, readFrom_cons_plain (h c List.mem_cons_self),
      ih fun d hd => h d (List.mem_cons_of_mem c hd)]
    have hlast : (c :: cs).getLast?.or before = cs.getLast?.or (some c) := by
      rw [List.getLast?_cons]
      cases cs.getLast? <;> rfl
    rw [hlast, List.length_cons, Nat.add_right_comm, Nat.add_assoc]
    cases readFrom (n + (cs.length + 1)) (cs.getLast?.or (some c)) rest <;> rfl

theorem ofText_plain (h : ∀ c ∈ cs, IsPlain c) : ofText (.ofList cs) = .ok (cs.map .char) := by
  have hall := readFrom_plain h 0 none []
  rw [List.append_nil, readFrom.eq_1] at hall
  rw [ofText, String.toList_ofList, hall]
  simp [Except.map]

theorem readFrom_star (n : Nat) (before : Option Char) : readFrom n before ['*'] = .ok [.run] := by
  simp [readFrom, Except.map]

theorem literal?_plain (cs : List Char) : literal? (cs.map .char) = some cs := by
  induction cs with
  | nil => rfl
  | cons c cs ih => rw [List.map_cons, literal?, ih]; rfl

theorem run_run (cs : List Char) : run [.run] cs = .matched := by
  have hskip : ∀ here, skipping (run []) false here cs = .matched := by
    induction cs with
    | nil => exact fun here => rfl
    | cons c cs ih =>
      intro here
      rw [skipping]
      split
      · exact ih _
      · exact ih _
  exact hskip true

/-- A `*` alone matches every name. -/
theorem accepts_run (s : String) : accepts [.run] s := by
  rw [accepts, run_run]
  rfl

end PathPattern

namespace FileSearch

open FilePath (splitSegments)

variable {cs s : List Char} {ss : List (List Char)}

theorem collapse_literals (ss : List (List Char)) :
    SearchStep.collapse (ss.map .literal ++ [.anywhere, .wild [.run]]) =
      ss.map .literal ++ [.anywhere, .wild [.run]] := by
  induction ss with
  | nil => rfl
  | cons s ss ih =>
    rw [List.map_cons, List.cons_append, SearchStep.collapse, ih]
    rintro ⟨⟩

theorem mapM_ofText (h : ∀ s ∈ ss, ∀ c ∈ s, PathPattern.IsPlain c) :
    (ss ++ [['*', '*'], ['*']]).mapM (fun s => PathPattern.ofText (.ofList s)) =
      .ok (ss.map (List.map PatternPiece.char) ++ [[.components], [.run]]) := by
  refine mapM_eq_ok_iff.mpr (List.rel_append ?_ ?_)
  · refine List.forall₂_map_right_iff.mpr (List.forall₂_same.mpr fun s hs => ?_)
    exact PathPattern.ofText_plain (h s hs)
  · refine .cons ?_ (.cons ?_ .nil)
    · simp [PathPattern.ofText, PathPattern.readFrom]
    · exact PathPattern.readFrom_star 0 none

theorem ofPattern_plain : SearchStep.ofPattern ∘ List.map PatternPiece.char = .literal := by
  funext s
  have hne : s.map PatternPiece.char ≠ [.components] := by
    intro h
    cases s with
    | nil => cases h
    | cons c s => cases h
  rw [Function.comp_apply, SearchStep.ofPattern, if_neg hne, PathPattern.literal?_plain]

theorem mem_joinSegments {c : Char} (hs : s ∈ ss) (hc : c ∈ s) : c ∈ FilePath.joinSegments ss := by
  induction ss with
  | nil => cases hs
  | cons x xs ih =>
    cases xs with
    | nil =>
      rw [List.mem_singleton.mp hs] at hc
      exact hc
    | cons y ys =>
      rw [FilePath.joinSegments_cons x (List.cons_ne_nil y ys), List.mem_append, List.mem_cons]
      rcases List.mem_cons.mp hs with rfl | hs
      · exact .inl hc
      · exact .inr (.inr (ih hs))

theorem componentTexts_eq (h : splitSegments cs = ss ++ [s]) (hs : s ≠ []) :
    componentTexts cs = ss ++ [s] := by
  rw [componentTexts, h]
  simp [hs]

/-- A text that starts with a separator goes on behind it. -/
theorem head?_eq_slash_iff (h : splitSegments cs = s :: ss) (hss : ss ≠ []) :
    (cs.head? = some '/' ↔ s = []) ∧ (s = [] → splitSegments (cs.drop 1) = ss) := by
  cases cs with
  | nil =>
    rw [← (List.cons.inj h).2] at hss
    exact absurd rfl hss
  | cons c cs =>
    rw [splitSegments] at h
    split at h
    next hc =>
      obtain ⟨rfl, rfl⟩ := List.cons.inj h
      simp [hc]
    next hc =>
      cases hcs : splitSegments cs with
      | nil => exact absurd hcs (FilePath.splitSegments_ne_nil cs)
      | cons x xs =>
        rw [hcs] at h
        obtain ⟨rfl, -⟩ := List.cons.inj h
        simp [hc]

/-- A pattern that ends with any name anywhere below, and has no wildcards before. -/
theorem ofText_steps {text : String} {p : PathPattern} (hp : PathPattern.ofText text = .ok p)
    (hlast : text.toList.getLast? = some '*') (hplain : ∀ s ∈ ss, ∀ c ∈ s, PathPattern.IsPlain c)
    (hrest : splitSegments (if text.toList.head? = some '/' then text.toList.drop 1
      else text.toList) = ss ++ [['*', '*'], ['*']]) :
    ofText text = .ok ⟨⟨if text.toList.head? = some '/' then "/" else "."⟩,
      ss.map .literal ++ [.anywhere, .wild [.run]], false⟩ := by
  have hcomponents : componentTexts (if text.toList.head? = some '/' then text.toList.drop 1
      else text.toList) = ss ++ [['*', '*'], ['*']] := by
    have hconcat : ss ++ [['*', '*'], ['*']] = ss ++ [['*', '*']] ++ [['*']] := by simp
    rw [hconcat] at hrest ⊢
    exact componentTexts_eq hrest (by simp)
  have hempty : (if text.toList.head? = some '/' then text.toList.drop 1
      else text.toList).isEmpty = false := by
    rw [List.isEmpty_eq_false_iff]
    intro hnil
    rw [hnil] at hrest
    simpa [splitSegments] using congrArg List.length hrest
  have hsteps : SearchStep.collapse ((ss.map (List.map PatternPiece.char) ++
      [[PatternPiece.components], [PatternPiece.run]]).map SearchStep.ofPattern) =
      ss.map .literal ++ [.anywhere, .wild [.run]] := by
    rw [List.map_append, List.map_map, ofPattern_plain]
    exact collapse_literals ss
  unfold ofText
  simp only [hp, bind, Except.bind, hcomponents, mapM_ofText hplain, hempty, if_neg, hlast, hsteps,
    Bool.false_eq_true, not_false_eq_true]
  rfl

/-- The text of the pattern of all that is below a directory. -/
theorem toList_belowPattern (cs : List Char) :
    (String.ofList cs ++ "/**/*").toList = cs ++ ['/'] ++ ['*', '*', '/', '*'] := by
  rw [String.toList_append, String.toList_ofList, List.append_assoc]
  rfl

theorem ofText_belowPattern (hplain : ∀ c ∈ cs, PathPattern.IsPlain c) :
    PathPattern.ofText (.ofList cs ++ "/**/*") =
      .ok ((cs ++ ['/']).map .char ++ [.components, .run]) := by
  have hslash : ∀ c ∈ cs ++ ['/'], PathPattern.IsPlain c := by
    intro c hc
    rcases List.mem_append.mp hc with hc | hc
    · exact hplain c hc
    · rw [List.mem_singleton.mp hc]
      decide
  rw [PathPattern.ofText, toList_belowPattern, PathPattern.readFrom_plain hslash,
    List.getLast?_concat]
  simp [PathPattern.readFrom, Except.map]

/-- The pattern of all that is below a directory leads along the segments of the path of that
directory, and from there on anywhere. -/
theorem ofText_below (hplain : ∀ c ∈ cs, PathPattern.IsPlain c) (hcs : splitSegments cs = s :: ss) :
    ofText (.ofList cs ++ "/**/*") =
      .ok ⟨⟨if s = [] then "/" else "."⟩,
        (if s = [] then ss else s :: ss).map .literal ++ [.anywhere, .wild [.run]], false⟩ := by
  have hplainSegments : ∀ x ∈ s :: ss, ∀ c ∈ x, PathPattern.IsPlain c := by
    intro x hx c hc
    apply hplain
    rw [← FilePath.joinSegments_splitSegments cs, hcs]
    exact mem_joinSegments hx hc
  have hsegments : splitSegments (cs ++ ['/'] ++ ['*', '*', '/', '*']) =
      s :: (ss ++ [['*', '*'], ['*']]) := by
    rw [List.append_assoc, List.singleton_append, FilePath.splitSegments_append, hcs]
    rfl
  obtain ⟨hhead, hdrop⟩ := head?_eq_slash_iff hsegments (by simp)
  rw [← toList_belowPattern] at hsegments hhead hdrop
  have hlast : (String.ofList cs ++ "/**/*").toList.getLast? = some '*' := by
    simp
  have hrest : splitSegments (if (String.ofList cs ++ "/**/*").toList.head? = some '/' then
      (String.ofList cs ++ "/**/*").toList.drop 1 else (String.ofList cs ++ "/**/*").toList) =
      (if s = [] then ss else s :: ss) ++ [['*', '*'], ['*']] := by
    simp only [hhead]
    split
    next hs => exact hdrop hs
    next => exact hsegments
  have hsteps := ofText_steps (ofText_belowPattern hplain) hlast ?_ hrest
  · rw [hsteps]
    simp only [hhead]
  · intro x hx
    refine hplainSegments x ?_
    split at hx
    · exact List.mem_cons_of_mem s hx
    · exact hx

end FileSearch

/-! ## Following a path to a directory -/

namespace FileTree

open FilePath

variable {t : FileTree} {d p : FilePath} {a b here : Address} {ss : List (List Char)}
  {names : List String}

theorem text_of_resolve (h : t.resolve d = .ok a) : d.text.isEmpty = false := by
  unfold resolve at h
  split at h
  · cases h
  next hempty => simpa using hempty

/-- Segments that lead to a directory start from one. -/
theorem directory_of_walk (h : t.walk here ss = .ok a) (ha : t.get? a = some .directory) :
    t.get? here = some .directory := by
  cases ss with
  | nil =>
    rw [Except.ok.inj h]
    exact ha
  | cons s ss =>
    rw [walk] at h
    split at h
    · cases h
    · cases h
    next hdirectory => exact hdirectory

theorem walk_front (h : t.resolve d = .ok a) : t.walk (t.origin d) d.front = .ok a := by
  have htext := text_of_resolve h
  rw [resolve, htext, if_neg Bool.false_ne_true] at h
  obtain ⟨-, hsegments | hsegments⟩ := front_cases htext
  · rwa [hsegments] at h
  · rw [hsegments, walk_append] at h
    obtain ⟨b, hb, h⟩ := except_bind_eq_ok h
    -- An empty segment stays where it is, or fails.
    rw [walk_eq_reached h]
    exact hb

/-- A path that is joined to a directory is followed from there. -/
theorem resolve_join (h : t.resolve d = .ok a) (hp : p.isAbsolute = false) :
    t.resolve (d.join p) = t.walk a p.segments := by
  have htext := text_of_resolve h
  have horigin : t.origin (d.join p) = t.origin d := by
    rw [origin, origin, isAbsolute_join htext hp]
  rw [resolve, join_text_isEmpty htext hp, if_neg Bool.false_ne_true, horigin, segments_join hp,
    walk_append, walk_front h]
  rfl

theorem resolve_here (h : t.get? t.current = some .directory) : t.resolve ⟨"."⟩ = .ok t.current := by
  show t.walk t.current [['.']] = _
  rw [walk, h]
  rfl

theorem reached_idle (h : ∀ s ∈ ss, isIdle s) : reached here ss = here := by
  induction ss with
  | nil => rfl
  | cons s ss ih =>
    rw [reached, List.foldl_cons, follow_of_isIdle (h s List.mem_cons_self)]
    exact ih fun x hx => h x (List.mem_cons_of_mem s hx)

/-- Behind a directory, names lead to what lies there. -/
theorem walk_names (hsound : t.Sound) (hnames : ∀ n ∈ names, IsName n)
    (hsome : (t.get? (a ++ names)).isSome) :
    t.walk a (names.map String.toList) = .ok (a ++ names) := by
  induction names using List.reverseRecOn with
  | nil => rw [List.append_nil]; rfl
  | append_singleton names n ih =>
    rw [← List.append_assoc] at hsome ⊢
    have hdirectory := hsound.holds (a ++ names) n hsome
    have hwalk := ih (fun m hm => hnames m (List.mem_append_left _ hm))
      (Option.isSome_iff_exists.mpr ⟨_, hdirectory⟩)
    rw [List.map_append]
    exact walk_name hwalk hdirectory (hnames n (List.mem_append_right _ List.mem_cons_self)) hsome

/-- All names in the tree can stand in a path. -/
def Named (t : FileTree) : Prop := ∀ e ∈ t.entries, ∀ n ∈ e.1, IsName n

/-- All that lies below an address is listed. -/
theorem mem_below_iff : names ∈ t.below a ↔ names ≠ [] ∧ (t.get? (a ++ names)).isSome := by
  have hmem : names ∈ t.below a ↔ names ≠ [] ∧ ∃ entry, (a ++ names, entry) ∈ t.entries := by
    constructor
    · intro h
      obtain ⟨⟨b, entry⟩, hentry, hbelow⟩ := List.mem_filterMap.mp h
      simp only at hbelow
      split at hbelow
      next hbefore =>
        obtain ⟨hbefore, hne⟩ := Bool.and_eq_true_iff.mp hbefore
        obtain ⟨rest, rfl⟩ := List.isPrefixOf_iff_prefix.mp hbefore
        obtain rfl : rest = names := by simpa using hbelow
        exact ⟨by simpa using hne, entry, hentry⟩
      next => cases hbelow
    · rintro ⟨hne, entry, hentry⟩
      exact List.mem_filterMap.mpr ⟨_, hentry, by simp [hne]⟩
  rw [hmem]
  refine and_congr_right fun hne => ?_
  have hget : t.get? (a ++ names) = t.entries.lookup (a ++ names) := by
    unfold get?
    split
    next hnil => exact absurd (List.append_eq_nil_iff.mp hnil).2 hne
    next => rfl
  rw [hget]
  simp

theorem Named.isName (h : t.Named) (hnames : names ∈ t.below a) : ∀ n ∈ names, IsName n := by
  obtain ⟨hne, hsome⟩ := mem_below_iff.mp hnames
  obtain ⟨⟨b, entry⟩, hentry, hbelow⟩ := List.mem_filterMap.mp hnames
  simp only at hbelow
  split at hbelow
  next => exact fun n hn => h _ hentry n (List.mem_of_mem_drop (Option.some.inj hbelow ▸ hn))
  next => cases hbelow

end FileTree

namespace FileSearch

open FilePath (splitSegments)

variable {t : FileTree} {cs : List Char} {q : FilePath} {a here : Address} {s : List Char}
  {ss front : List (List Char)} {names : List String}

theorem childPath_eq_join (htext : q.text.isEmpty = false) (h : q.front.head? ≠ some ['.'])
    (n : String) : childPath q n = q.join ⟨n⟩ := by
  have hsame : q.same ⟨"."⟩ = false := by
    refine decide_eq_false fun hparts => ?_
    obtain ⟨s, ss, hfront⟩ := List.exists_cons_of_ne_nil (FilePath.front_cases htext).1
    obtain ⟨part, hpart, hiff⟩ := FilePath.exists_firstPart? s
    have hhere : part :: ss.filterMap PathPart.ofSegment? = [.here] := by
      rw [← FilePath.partsOf_front htext, hfront, FilePath.partsOf, hpart] at hparts
      exact hparts
    rw [hfront] at h
    exact h (congrArg some (hiff.mp (List.cons.inj hhere).1))
  rw [childPath, hsame, if_neg Bool.false_ne_true]

section Directory

variable {d : FilePath} {k : Nat}

theorem segments_of_directory (hcs : splitSegments cs = s :: ss)
    (hd : d.text.toList = cs ++ List.replicate k '/') :
    d.segments = s :: ss ++ List.replicate k [] := by
  rw [FilePath.segments, hd, FilePath.splitSegments_replicate, hcs]

/-- Separators at the end of a path of a directory stand for nothing. -/
theorem parts_of_directory (hcs : splitSegments cs = s :: ss)
    (hd : d.text.toList = cs ++ List.replicate k '/') (htext : d.text.isEmpty = false) :
    d.parts = FilePath.partsOf (s :: ss) := by
  rw [FilePath.parts_eq_partsOf htext, segments_of_directory hcs hd,
    FilePath.partsOf_append (List.cons_ne_nil s ss)]
  simp [PathPart.ofSegment?]

/-- They lead nowhere else. -/
theorem walk_of_resolve (hcs : splitSegments cs = s :: ss)
    (hd : d.text.toList = cs ++ List.replicate k '/') (hresolve : t.resolve d = .ok a) :
    t.walk (if s = [] then [] else t.current) (s :: ss) = .ok a := by
  have htext := FileTree.text_of_resolve hresolve
  rw [FileTree.resolve, htext, if_neg Bool.false_ne_true, FileTree.origin,
    FilePath.isAbsolute_eq htext, segments_of_directory hcs hd, FileTree.walk_append] at hresolve
  obtain ⟨b, hb, hidle⟩ := except_bind_eq_ok hresolve
  have hab : a = b := by
    rw [FileTree.walk_eq_reached hidle]
    refine FileTree.reached_idle fun x hx => ?_
    rw [(List.mem_replicate.mp hx).2]
    rfl
  rw [hab]
  simpa using hb

end Directory

/-- Segments that lead from a directory to a directory can be followed one by one. -/
theorem follow_literals (directories : Bool) (steps : List SearchStep)
    (hq : t.resolve q = .ok here) (hstart : q.front.head? ≠ some ['.'])
    (hwalk : t.walk here ss = .ok a) (ha : t.get? a = some .directory)
    (hslash : ∀ s ∈ ss, '/' ∉ s) :
    ∃ q', follow t directories (ss.map .literal ++ steps) q = follow t directories steps q' ∧
      t.resolve q' = .ok a ∧ q'.front = q.front ++ ss.filter (· ≠ []) := by
  -- A literal component is looked up where the path so far leads to, as a walk does.
  induction ss generalizing q here with
  | nil => exact ⟨q, rfl, hq.trans hwalk, by simp⟩
  | cons s ss ih =>
    have hs : '/' ∉ (String.ofList s).toList := by
      rw [String.toList_ofList]
      exact hslash s List.mem_cons_self
    have htext := FileTree.text_of_resolve hq
    have hhere := FileTree.directory_of_walk hwalk ha
    rw [← List.singleton_append, FileTree.walk_append] at hwalk
    obtain ⟨b, hb, hwalk⟩ := except_bind_eq_ok hwalk
    have hnext := childPath_eq_join htext hstart (.ofList s)
    have hresolve : t.resolve (q.join ⟨.ofList s⟩) = .ok b := by
      rw [FileTree.resolve_join hq (FilePath.isAbsolute_of_not_mem hs),
        FilePath.segments_of_not_mem hs, String.toList_ofList]
      exact hb
    have hfollows : follows t q s := by
      unfold follows
      split
      · rw [FileTree.isDirectory, FileTree.find?, hq]
        exact decide_eq_true hhere
      · rw [hnext, FileTree.contains, FileTree.find?, hresolve]
        exact Option.isSome_iff_exists.mpr ⟨_, FileTree.directory_of_walk hwalk ha⟩
    have hjoin := FilePath.front_join htext hs
    rw [String.toList_ofList] at hjoin
    have hstart' : (q.join ⟨.ofList s⟩).front.head? ≠ some ['.'] := by
      obtain ⟨x, xs, hfront⟩ := List.exists_cons_of_ne_nil (FilePath.front_cases htext).1
      rw [hjoin, hfront]
      rwa [hfront] at hstart
    obtain ⟨q', hfollow, hq', hfront⟩ := ih hresolve hstart' hwalk
      fun x hx => hslash x (List.mem_cons_of_mem s hx)
    refine ⟨q', ?_, hq', ?_⟩
    · rw [List.map_cons, List.cons_append, follow, hfollows, if_pos rfl, hnext, hfollow]
    · rw [hfront, hjoin, List.append_assoc, ← List.filter_append]
      rfl

/-- Segments that are all `.` stay in the current directory. -/
theorem follow_here (directories : Bool) (steps : List SearchStep)
    (hcurrent : t.get? t.current = some .directory) (hss : ∀ s ∈ ss, s = ['.']) :
    follow t directories (ss.map .literal ++ steps) ⟨"."⟩ = follow t directories steps ⟨"."⟩ := by
  induction ss with
  | nil => rfl
  | cons s ss ih =>
    obtain rfl := hss s List.mem_cons_self
    have hfollows : follows t ⟨"."⟩ ['.'] := by
      show t.isDirectory ⟨"."⟩ = true
      rw [FileTree.isDirectory, FileTree.find?, FileTree.resolve_here hcurrent]
      exact decide_eq_true hcurrent
    have hstay : childPath ⟨"."⟩ (.ofList ['.']) = ⟨"."⟩ := rfl
    rw [List.map_cons, List.cons_append, follow, hfollows, if_pos rfl, hstay]
    exact ih fun x hx => hss x (List.mem_cons_of_mem _ hx)

/-- The first segment of a path leads on from the current directory under its own name. -/
theorem follow_first (directories : Bool) (steps : List SearchStep) {b : Address}
    (hcurrent : t.get? t.current = some .directory) (hs : '/' ∉ s) (hne : s ≠ [])
    (hwalk : t.walk t.current [s] = .ok b) (hb : (t.get? b).isSome) :
    follow t directories (.literal s :: steps) ⟨"."⟩ = follow t directories steps ⟨.ofList s⟩ ∧
      t.resolve ⟨.ofList s⟩ = .ok b ∧ (FilePath.mk (.ofList s)).front = [s] := by
  have hslash : '/' ∉ (String.ofList s).toList := by rwa [String.toList_ofList]
  have hsegments : (FilePath.mk (.ofList s)).segments = [s] := by
    rw [FilePath.segments_of_not_mem hslash, String.toList_ofList]
  have hresolve : t.resolve ⟨.ofList s⟩ = .ok b := by
    have htext : (String.ofList s).isEmpty = false := by
      rw [String.isEmpty_eq_false_iff, ne_eq, ← String.toList_eq_nil_iff, String.toList_ofList]
      exact hne
    rw [FileTree.resolve, htext, if_neg Bool.false_ne_true, FileTree.origin,
      FilePath.isAbsolute_of_not_mem hslash, hsegments]
    exact hwalk
  have hfront : (FilePath.mk (.ofList s)).front = [s] := by
    have hsame := FilePath.front_of_segments (FileTree.text_of_resolve hresolve)
      (hsegments.trans (List.nil_append [s]).symm)
    rw [hsame]
    simp [hne]
  have hstart : childPath ⟨"."⟩ (.ofList s) = ⟨.ofList s⟩ := rfl
  have hfollows : follows t ⟨"."⟩ s := by
    unfold follows
    split
    · rw [FileTree.isDirectory, FileTree.find?, FileTree.resolve_here hcurrent]
      exact decide_eq_true hcurrent
    · rw [hstart, FileTree.contains, FileTree.find?, hresolve]
      exact hb
  rw [follow, hfollows, if_pos rfl, hstart]
  exact ⟨rfl, hresolve, hfront⟩

/-! ## Paths found below a directory -/

/-- A name is joined to a path that ends with a name. -/
theorem below_childPath {n : String} (h : q.Below front names) (hn : FilePath.IsName n) :
    (childPath q n).Below front (names ++ [n]) := by
  obtain ⟨above, m, rfl⟩ : ∃ above m, names = above ++ [m] :=
    ⟨_, _, (List.dropLast_concat_getLast h.ne_nil).symm⟩
  have hm := h.names m (List.mem_append_right _ List.mem_cons_self)
  have hhere : q.same ⟨"."⟩ = false := by
    refine decide_eq_false fun hparts => ?_
    have hlast : FilePath.partsOf front ++ above.map .name ++ [.name m] = [] ++ [PathPart.here] := by
      rw [List.append_assoc, ← List.map_singleton (f := PathPart.name), ← List.map_append,
        ← h.parts_eq]
      exact hparts
    cases (List.append_singleton_inj.mp hlast).2
  have hfront : q.front = q.segments := by
    have hsegments : q.segments = front ++ above.map String.toList ++ [m.toList] := by
      rw [h.segments, List.map_append, List.append_assoc]
      rfl
    rw [FilePath.front_of_segments (FileTree.text_ne_empty h) hsegments, hsegments]
    simp [hm.ne_nil]
  refine ⟨?_, by simp, fun k hk => ?_⟩
  · rw [childPath, hhere, if_neg Bool.false_ne_true,
      FilePath.segments_join (FilePath.isAbsolute_of_not_mem hn.noSeparator), hfront, h.segments,
      FilePath.segments_of_not_mem hn.noSeparator, List.append_assoc,
      ← List.map_singleton (f := String.toList), ← List.map_append]
  · rcases List.mem_append.mp hk with hk | hk
    · exact h.names k hk
    · rw [List.mem_singleton.mp hk]
      exact hn

theorem below_foldl_childPath {more : List String} (h : q.Below front names)
    (hmore : ∀ n ∈ more, FilePath.IsName n) :
    (more.foldl childPath q).Below front (names ++ more) := by
  induction more generalizing q names with
  | nil => rwa [List.append_nil]
  | cons n more ih =>
    have hn := below_childPath h (hmore n List.mem_cons_self)
    have hall := ih hn fun m hm => hmore m (List.mem_cons_of_mem n hm)
    rwa [List.append_assoc] at hall

/-- From `q`, which leads to a directory, all paths found below it start with the segments
`front`, and these lead to it too. -/
structure FoundFrom (t : FileTree) (a : Address) (front : List (List Char)) (q : FilePath) :
    Prop where
  resolve : t.resolve q = .ok a
  walk : t.walk (if front.head? = some [] then [] else t.current) front = .ok a
  start : front.head? ≠ some ['.']
  child : ∀ n, FilePath.IsName n → (childPath q n).Below front [n]

namespace FoundFrom

theorem below (h : FoundFrom t a front q) (hne : names ≠ [])
    (hnames : ∀ n ∈ names, FilePath.IsName n) : (names.foldl childPath q).Below front names := by
  obtain ⟨n, ns, rfl⟩ := List.exists_cons_of_ne_nil hne
  exact below_foldl_childPath (h.child n (hnames n List.mem_cons_self))
    fun m hm => hnames m (List.mem_cons_of_mem n hm)

theorem of_front (hq : t.resolve q = .ok a) (hstart : q.front.head? ≠ some ['.']) :
    FoundFrom t a q.front q := by
  have htext := FileTree.text_of_resolve hq
  obtain ⟨hne, hsegments⟩ := FilePath.front_cases htext
  refine ⟨hq, ?_, hstart, fun n hn => ?_⟩
  · have hwalk := FileTree.walk_front hq
    have hhead : q.segments.head? = q.front.head? := by
      obtain ⟨s, more, hfront⟩ := List.exists_cons_of_ne_nil hne
      rcases hsegments with h | h
      · rw [h]
      · rw [h, hfront]
        rfl
    rw [FileTree.origin, FilePath.isAbsolute_eq htext, hhead] at hwalk
    simpa using hwalk
  · refine ⟨?_, List.cons_ne_nil _ _, fun m hm => List.mem_singleton.mp hm ▸ hn⟩
    rw [childPath_eq_join htext hstart,
      FilePath.segments_join (FilePath.isAbsolute_of_not_mem hn.noSeparator),
      FilePath.segments_of_not_mem hn.noSeparator]
    rfl

theorem of_here (hcurrent : t.get? t.current = some .directory) :
    FoundFrom t t.current [] ⟨"."⟩ := by
  refine ⟨FileTree.resolve_here hcurrent, rfl, by simp, fun n hn => ?_⟩
  refine ⟨?_, List.cons_ne_nil _ _, fun m hm => List.mem_singleton.mp hm ▸ hn⟩
  exact FilePath.segments_of_not_mem hn.noSeparator

end FoundFrom

/-- What is found anywhere behind the path of a directory. -/
theorem follow_anywhere (h : FoundFrom t a front q) (hnamed : t.Named) :
    follow t false [.anywhere, .wild [.run]] q = (t.below a).map (FilePath.ofNames front) := by
  have hbelow : ∀ names ∈ t.below a, (names.foldl childPath q).Below front names := fun _ hnames =>
    h.below (FileTree.mem_below_iff.mp hnames).1 (hnamed.isName hnames)
  have hpaths : pathsBelow t q = (t.below a).map (FilePath.ofNames front) := by
    rw [pathsBelow, h.resolve]
    exact List.map_congr_left fun names hnames => (hbelow names hnames).eq_ofNames
  have hall : ∀ p ∈ pathsBelow t q, p.fileName?.any (SearchStep.wild [.run]).accepts := by
    intro p hp
    rw [hpaths] at hp
    obtain ⟨names, hnames, rfl⟩ := List.mem_map.mp hp
    have hp := hbelow names hnames
    rw [← hp.eq_ofNames, hp.fileName?_eq]
    obtain ⟨above, n, rfl⟩ : ∃ above n, names = above ++ [n] :=
      ⟨_, _, (List.dropLast_concat_getLast hp.ne_nil).symm⟩
    rw [List.getLast?_concat]
    exact PathPattern.accepts_run n
  rw [follow, List.filter_eq_self.mpr hall, hpaths]
  simp [follow]

/-- The segments that the paths found below a directory start with: its own without the empty ones,
and without each `.` at its start. -/
def searchFront : List (List Char) → List (List Char)
  | [] :: ss => [] :: ss.filter (· ≠ [])
  | ss => (ss.dropWhile (· = ['.'])).filter (· ≠ [])

/-- Unless it starts with `.`, the paths found below a directory start with its parts. -/
theorem partsOf_searchFront (ss : List (List Char)) (hs : s ≠ ['.']) :
    searchFront (s :: ss) ≠ [] ∧
    FilePath.partsOf (searchFront (s :: ss)) = FilePath.partsOf (s :: ss) := by
  have hempty : ∀ x, (if decide (x ≠ []) = true then PathPart.ofSegment? x else none) =
      PathPart.ofSegment? x := by
    intro x
    by_cases hx : x = [] <;> simp [PathPart.ofSegment?, hx]
  have hparts : (ss.filter (· ≠ [])).filterMap PathPart.ofSegment? =
      ss.filterMap PathPart.ofSegment? := by
    rw [List.filterMap_filter]
    simp only [hempty]
  cases s with
  | nil => exact ⟨List.cons_ne_nil _ _, congrArg (PathPart.root :: ·) hparts⟩
  | cons c cs =>
    have hfront : searchFront ((c :: cs) :: ss) = (c :: cs) :: ss.filter (· ≠ []) := by
      rw [searchFront, List.dropWhile_cons_of_neg (by simpa using hs)]
      · simp
      · rintro ss' ⟨⟩
    rw [hfront, FilePath.partsOf, FilePath.partsOf, hparts]
    exact ⟨List.cons_ne_nil _ _, rfl⟩

/-- No separator follows directly behind the `.` that a path starts with and its own separator. -/
def StartsPlainly (ss : List (List Char)) : Prop :=
  ss.head? = some ['.'] → (ss.dropWhile (· = ['.'])).head? ≠ some []

instance : DecidablePred StartsPlainly := fun _ => inferInstanceAs (Decidable (_ → _))

/-- From the current directory, the segments of a path that does not start with `.` are followed to
the directory that it leads to. -/
theorem exists_foundFrom_current (hcurrent : t.get? t.current = some .directory)
    (hwalk : t.walk t.current ss = .ok a) (ha : t.get? a = some .directory)
    (hslash : ∀ s ∈ ss, '/' ∉ s) (hhere : ss.head? ≠ some ['.']) (hempty : ss.head? ≠ some [])
    (steps : List SearchStep) :
    ∃ q, FoundFrom t a (ss.filter (· ≠ [])) q ∧
      follow t false (ss.map .literal ++ steps) ⟨"."⟩ = follow t false steps q := by
  cases ss with
  | nil =>
    rw [← Except.ok.inj hwalk]
    exact ⟨⟨"."⟩, .of_here hcurrent, rfl⟩
  | cons s ss =>
    have hs : s ≠ [] := by simpa using hempty
    rw [← List.singleton_append, FileTree.walk_append] at hwalk
    obtain ⟨b, hb, hwalk⟩ := except_bind_eq_ok hwalk
    have hdirectory := FileTree.directory_of_walk hwalk ha
    obtain ⟨hfirst, hresolve, hone⟩ := follow_first false (ss.map .literal ++ steps) hcurrent
      (hslash s List.mem_cons_self) hs hb (Option.isSome_iff_exists.mpr ⟨_, hdirectory⟩)
    have hstart : (FilePath.mk (.ofList s)).front.head? ≠ some ['.'] := by
      rw [hone]
      exact hhere
    obtain ⟨q, hfollow, hq, hfront⟩ := follow_literals false steps hresolve hstart hwalk ha
      fun x hx => hslash x (List.mem_cons_of_mem s hx)
    have hall : q.front = (s :: ss).filter (· ≠ []) := by
      rw [hfront, hone]
      simp [hs]
    refine ⟨q, hall ▸ .of_front hq ?_, hfirst.trans hfollow⟩
    rw [hall, List.filter_cons_of_pos (by simpa using hs)]
    exact hhere

/-- From the root, the segments of a path are followed to the directory that it leads to. -/
theorem exists_foundFrom_root (hwalk : t.walk [] ss = .ok a) (ha : t.get? a = some .directory)
    (hslash : ∀ s ∈ ss, '/' ∉ s) (steps : List SearchStep) :
    ∃ q, FoundFrom t a (searchFront ([] :: ss)) q ∧
      follow t false (ss.map .literal ++ steps) ⟨"/"⟩ = follow t false steps q := by
  have hroot : t.resolve ⟨"/"⟩ = .ok [] := rfl
  obtain ⟨q, hfollow, hq, hfront⟩ :=
    follow_literals false steps hroot (by decide) hwalk ha hslash
  have hall : q.front = searchFront ([] :: ss) := hfront
  refine ⟨q, hall ▸ .of_front hq ?_, hfollow⟩
  rw [hall]
  simp [searchFront]

/-- A path that is not from the root is the points at its start and what is behind them. -/
theorem exists_points (hs : s ≠ []) (hstart : StartsPlainly (s :: ss)) :
    ∃ points rest, s :: ss = points ++ rest ∧ (∀ x ∈ points, x = ['.']) ∧
      rest.head? ≠ some ['.'] ∧ rest.head? ≠ some [] ∧
      searchFront (s :: ss) = rest.filter (· ≠ []) := by
  refine ⟨(s :: ss).takeWhile (· = ['.']), (s :: ss).dropWhile (· = ['.']),
    List.takeWhile_append_dropWhile.symm, ?_, ?_, ?_, ?_⟩
  · intro x hx
    simpa using List.mem_takeWhile_imp hx
  · intro hhead
    have hnot := List.head?_dropWhile_not (fun x => decide (x = ['.'])) (s :: ss)
    rw [hhead] at hnot
    simp at hnot
  · by_cases hpoint : s = ['.']
    · exact hstart (congrArg some hpoint)
    · rw [List.dropWhile_cons_of_neg (by simpa using hpoint)]
      simpa using hs
  · cases s with
    | nil => exact absurd rfl hs
    | cons c s => rfl

/-- The segments of a path are followed to the directory that it leads to. -/
theorem exists_foundFrom {d : FilePath} {k : Nat} (hcs : splitSegments cs = s :: ss)
    (hd : d.text.toList = cs ++ List.replicate k '/') (hstart : StartsPlainly (s :: ss))
    (hresolve : t.resolve d = .ok a) (ha : t.get? a = some .directory) (steps : List SearchStep) :
    ∃ q, FoundFrom t a (searchFront (s :: ss)) q ∧
      follow t false ((if s = [] then ss else s :: ss).map .literal ++ steps)
        ⟨if s = [] then "/" else "."⟩ = follow t false steps q := by
  have hwalk := walk_of_resolve hcs hd hresolve
  have hslash : ∀ x ∈ s :: ss, '/' ∉ x := by
    rw [← hcs]
    exact fun x hx => FilePath.not_mem_of_mem_splitSegments hx
  by_cases hs : s = []
  · subst hs
    have hroot : t.walk [] ss = .ok a := hwalk
    exact exists_foundFrom_root hroot ha (fun x hx => hslash x (List.mem_cons_of_mem _ hx)) steps
  rw [if_neg hs] at hwalk
  simp only [hs, if_false]
  -- The points at the start stay in the current directory, and what is behind them leads on.
  obtain ⟨points, rest, hall, hpoints, hhere, hempty, hfront⟩ := exists_points hs hstart
  have hcurrent := FileTree.directory_of_walk hwalk ha
  rw [hfront, hall, List.map_append, List.append_assoc, follow_here false _ hcurrent hpoints]
  refine exists_foundFrom_current hcurrent ?_ ha ?_ hhere hempty steps
  · rw [hall, FileTree.walk_append] at hwalk
    obtain ⟨b, hb, hrest⟩ := except_bind_eq_ok hwalk
    rw [FileTree.walk_eq_reached hb, FileTree.reached_idle] at hrest
    · exact hrest
    · intro x hx
      rw [hpoints x hx]
      rfl
  · exact fun x hx => hslash x (hall ▸ List.mem_append_right points hx)

end FileSearch

end Graft

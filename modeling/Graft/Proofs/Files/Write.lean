import Mathlib.Data.List.DropRight
import Mathlib.Data.List.Induction
import Mathlib.Data.List.Infix
import Mathlib.Data.List.TakeWhile
import Graft.Proofs.Files.Tree

/-!
# Where files can be written

A file can be written at a path if no file lies on the way to it and no directory at its end. All
directories on the way are made first, so that writing one path after the other is possible as long
as none of them is on the way to another, and what lies in the tree behind it is known address by
address.
-/

namespace Graft.FileTree

open FilePath

variable {t t' made : FileTree} {here a b : Address} {p q : FilePath} {s : String}
  {ss before : List (List Char)}

/-- What holds an entry is a directory, and so is where relative paths start. -/
structure Sound (t : FileTree) : Prop where
  current : t.get? t.current = some .directory
  holds : ∀ a n, (t.get? (a ++ [n])).isSome → t.get? a = some .directory

/-- Where a path leads, whatever lies on the way. -/
def place (t : FileTree) (p : FilePath) : Address := reached (t.origin p) p.segments

/-- Where segments lead from a place, one after the other. -/
def stops (here : Address) (ss : List (List Char)) : List Address := ss.inits.map (reached here)

/-- Where a path leads through before its end. -/
def way (t : FileTree) (p : FilePath) : List Address := stops (t.origin p) p.segments.dropLast

/-- Whether a file can be written at a path, once the directories above it have been made. -/
def canWrite (t : FileTree) (p : FilePath) : Bool :=
  match t.withParent p with
  | .ok made => (made.writeText p "").isOk
  | .error _ => false

/-! ## Stops -/

theorem mem_stops : a ∈ stops here ss ↔ ∃ first, first <+: ss ∧ reached here first = a := by
  simp [stops]

theorem reached_concat (here : Address) (ss : List (List Char)) (s : List Char) :
    reached here (ss ++ [s]) = follow (reached here ss) s :=
  List.foldl_concat ..

theorem mem_stops_self (here : Address) (ss : List (List Char)) : reached here ss ∈ stops here ss :=
  mem_stops.mpr ⟨ss, List.prefix_rfl, rfl⟩

theorem mem_stops_concat {s : List Char} :
    a ∈ stops here (ss ++ [s]) ↔ a ∈ stops here ss ∨ a = reached here (ss ++ [s]) := by
  simp only [mem_stops, List.prefix_concat_iff, or_and_right, exists_or, exists_eq_left]
  rw [or_comm, eq_comm]

theorem follow_of_isIdle {s : List Char} (h : isIdle s) : follow here s = here := by
  have hnone : PathPart.ofSegment? s = none := if_pos h
  rw [follow, hnone]

theorem mem_stops_append_idle {idle : List (List Char)} (h : ∀ s ∈ idle, isIdle s) :
    a ∈ stops here (ss ++ idle) ↔ a ∈ stops here ss := by
  induction idle using List.reverseRecOn with
  | nil => rw [List.append_nil]
  | append_singleton idle s ih =>
    have ih := ih fun s hs => h s (List.mem_append_left _ hs)
    have hidle := h s (List.mem_append_right _ List.mem_cons_self)
    rw [← List.append_assoc, mem_stops_concat, reached_concat, follow_of_isIdle hidle, ih]
    constructor
    · rintro (hmem | rfl)
      · exact hmem
      · exact ih.mp (mem_stops_self here _)
    · exact .inl

theorem exists_idle (ss : List (List Char)) :
    ∃ idle, ss = trimBack ss ++ idle ∧ ∀ s ∈ idle, isIdle s := by
  refine ⟨(ss.reverse.takeWhile isIdle).reverse, ?_, fun s hs => ?_⟩
  · rw [trimBack, ← List.reverse_append, List.takeWhile_append_dropWhile, List.reverse_reverse]
  · exact List.mem_takeWhile_imp (List.mem_reverse.mp hs)

theorem mem_stops_trimBack {s : List Char} :
    a ∈ stops here (s :: trimBack ss) ↔ a ∈ stops here (s :: ss) := by
  obtain ⟨idle, hss, hidle⟩ := exists_idle ss
  have happend : s :: ss = (s :: trimBack ss) ++ idle := by rw [List.cons_append, ← hss]
  rw [happend, mem_stops_append_idle hidle]

/-! ## Following segments to a directory -/

theorem mem_stops_cons {s : List Char} :
    a ∈ stops here (s :: ss) ↔ a = here ∨ a ∈ stops (follow here s) ss := by
  simp only [mem_stops, List.prefix_cons_iff]
  constructor
  · rintro ⟨first, rfl | ⟨rest, rfl, hrest⟩, rfl⟩
    · exact .inl rfl
    · exact .inr ⟨rest, hrest, rfl⟩
  · rintro (rfl | ⟨rest, hrest, rfl⟩)
    · exact ⟨[], .inl rfl, rfl⟩
    · exact ⟨s :: rest, .inr ⟨rest, rfl, hrest⟩, rfl⟩

/-- From a directory a segment leads on, unless it names something that is missing. -/
theorem walk_cons_cases (h : t.get? here = some .directory) (s : List Char)
    (ss : List (List Char)) :
    t.walk here (s :: ss) = t.walk (follow here s) ss ∨
      (t.walk here (s :: ss) = .error .notFound ∧ t.get? (follow here s) = none) := by
  rw [walk, h, follow]
  cases PathPart.ofSegment? s with
  | none => exact .inl rfl
  | some part =>
    cases part with
    | name n =>
      simp only
      split
      next => exact .inl rfl
      next hnone => exact .inr ⟨rfl, by simpa using hnone⟩
    | root | here | parent => exact .inl rfl

/-- Segments lead to a directory just where all stops are directories. -/
theorem walk_directory_iff : t.walk here (ss ++ [['.']]) = .ok (reached here ss) ↔
    ∀ a ∈ stops here ss, t.get? a = some .directory := by
  induction ss generalizing here with
  | nil =>
    have hone : ∀ a, a ∈ stops here [] ↔ a = here := by simp [mem_stops, reached, eq_comm]
    simp only [hone, forall_eq]
    rw [List.nil_append, walk]
    split
    next hnone => simp [hnone]
    next hfile => simp [hfile]
    next hdirectory => exact iff_of_true rfl hdirectory
  | cons s ss ih =>
    simp only [mem_stops_cons, forall_eq_or_imp]
    rw [List.cons_append]
    by_cases hhere : t.get? here = some .directory
    · rcases walk_cons_cases hhere s (ss ++ [['.']]) with hwalk | ⟨hwalk, hnone⟩
      · rw [hwalk, and_iff_right hhere]
        exact ih
      · rw [hwalk]
        refine iff_of_false (by simp) fun h => ?_
        have hstart := h.2 _ (mem_stops.mpr ⟨[], List.nil_prefix, rfl⟩)
        rw [reached, List.foldl_nil, hnone] at hstart
        cases hstart
    · refine iff_of_false (fun h => ?_) fun h => hhere h.1
      rw [walk] at h
      split at h
      · cases h
      · cases h
      next hdirectory => exact hhere hdirectory

/-- Where segments lead to no directory, something is missing or a file is on the way. -/
theorem walk_directory_error {e : FileFault} (h : t.walk here (ss ++ [['.']]) = .error e) :
    e = .notFound ∨ ∃ a ∈ stops here ss, ∃ content, t.get? a = some (.file content) := by
  induction ss generalizing here with
  | nil =>
    rw [List.nil_append, walk] at h
    split at h
    · exact .inl (Except.error.inj h).symm
    next content hfile => exact .inr ⟨here, mem_stops_self here [], content, hfile⟩
    · cases h
  | cons s ss ih =>
    rw [List.cons_append] at h
    cases hhere : t.get? here with
    | none =>
      rw [walk, hhere] at h
      exact .inl (Except.error.inj h).symm
    | some entry =>
      cases entry with
      | file content => exact .inr ⟨here, mem_stops_cons.mpr (.inl rfl), content, hhere⟩
      | directory =>
        rcases walk_cons_cases hhere s (ss ++ [['.']]) with hwalk | ⟨hwalk, -⟩
        · rw [hwalk] at h
          rcases ih h with he | ⟨a, ha, hfile⟩
          · exact .inl he
          · exact .inr ⟨a, mem_stops_cons.mpr (.inr ha), hfile⟩
        · rw [hwalk] at h
          exact .inl (Except.error.inj h).symm

/-- Behind directories there is what the last segment leads to, if there is anything. -/
theorem walk_concat {s : List Char} (h : ∀ a ∈ stops here ss, t.get? a = some .directory)
    (hsome : (t.get? (reached here (ss ++ [s]))).isSome) :
    t.walk here (ss ++ [s]) = .ok (reached here (ss ++ [s])) := by
  have hwalk := (walk_here (walk_directory_iff.mpr h)).1
  have hdirectory := h _ (mem_stops_self here ss)
  rw [walk_append, hwalk]
  show t.walk (reached here ss) [s] = _
  rw [reached_concat] at hsome ⊢
  rcases walk_cons_cases hdirectory s [] with hlast | ⟨-, hnone⟩
  · exact hlast
  · rw [hnone] at hsome
    cases hsome

/-! ## Making the directories above a path -/

/-- In `made`, the addresses `stops` have become directories, and nothing else has changed. -/
structure Furnished (t : FileTree) (stops : List Address) (made : FileTree) : Prop where
  current : made.current = t.current
  sound : made.Sound
  get?_of_mem : ∀ a ∈ stops, made.get? a = some .directory
  get?_of_not_mem : ∀ a, a ∉ stops → made.get? a = t.get? a

theorem Sound.put (h : t.Sound) {entry : FileEntry} {n : String}
    (ha : t.get? a = some .directory) (hn : t.get? (a ++ [n]) ≠ some .directory) :
    (t.put (a ++ [n]) entry).Sound := by
  have hput := get?_put t (by simp : a ++ [n] ≠ []) entry
  have hstays : ∀ b, t.get? b = some .directory →
      (t.put (a ++ [n]) entry).get? b = some .directory := by
    intro b hb
    rw [hput, if_neg, hb]
    rintro rfl
    exact hn hb
  refine ⟨hstays _ h.current, fun b m hb => hstays b ?_⟩
  rw [hput] at hb
  split at hb
  next heq => rwa [(List.append_singleton_inj.mp heq).1]
  next => exact h.holds b m hb

/-- The directory above a directory is one. -/
theorem Sound.dropLast (h : t.Sound) (ha : t.get? a = some .directory) :
    t.get? a.dropLast = some .directory := by
  rcases List.eq_nil_or_concat a with rfl | ⟨a, n, rfl⟩
  · rfl
  · rw [List.concat_eq_append] at ha ⊢
    rw [List.dropLast_concat]
    exact h.holds a n (by rw [ha]; rfl)

theorem origin_directory (hsound : t.Sound) (p : FilePath) :
    t.get? (t.origin p) = some .directory := by
  rw [origin]
  split
  · rfl
  · exact hsound.current

/-- The end of a path in a directory whose last segment is given. -/
def PathEnd.ofSegment (directory : Address) (last : List Char) : PathEnd :=
  match PathPart.ofSegment? last with
  | some (.name n) => .name directory n
  | _ => .dots

theorem text_of_segments {last : List Char} (hp : p.segments = before ++ [last])
    (hlast : last ≠ []) : p.text.isEmpty = false := by
  rw [Bool.eq_false_iff]
  intro hempty
  have hsegments : p.segments = [[]] := by
    rw [segments, String.isEmpty_iff.mp hempty]
    rfl
  have hmem : last ∈ p.segments := by simp [hp]
  rw [hsegments] at hmem
  exact hlast (List.mem_singleton.mp hmem)

theorem pathEnd_of_segments {last : List Char} (hp : p.segments = before ++ [last])
    (hlast : last ≠ []) :
    t.pathEnd p = (t.walk (t.origin p) (before ++ [['.']])).map fun directory =>
      .ofSegment directory last := by
  have hback : p.segments.reverse.dropWhile (·.isEmpty) = last :: before.reverse := by
    rw [hp, List.reverse_concat, List.dropWhile_cons_of_neg (by simpa using hlast)]
  rw [pathEnd, text_of_segments hp hlast, if_neg Bool.false_ne_true, hback]
  simp only [List.reverse_reverse]
  cases t.walk (t.origin p) (before ++ [['.']]) with
  | error e => rfl
  | ok directory =>
    simp only [bind, Except.bind, Except.map, PathEnd.ofSegment]
    cases PathPart.ofSegment? last with
    | none => rfl
    | some part => cases part <;> rfl

/-! ### One directory -/

/-- At the end of a way of directories a directory is made, or there is one already. -/
theorem makeDirectory_cases {last : List Char} (hsound : t.Sound)
    (hp : p.segments = before ++ [last]) (hlast : last ≠ [])
    (hbefore : ∀ a ∈ stops (t.origin p) before, t.get? a = some .directory)
    (hfile : ∀ content, t.get? (t.place p) ≠ some (.file content)) :
    (t.makeDirectory p = .error .exists ∧ t.isDirectory p ∧ t.get? (t.place p) = some .directory) ∨
    ∃ n, t.place p = reached (t.origin p) before ++ [n] ∧ t.get? (t.place p) = none ∧
      t.makeDirectory p = .ok (t.put (t.place p) .directory) := by
  have hplace : t.place p = follow (reached (t.origin p) before) last := by
    rw [place, hp, reached_concat]
  have hthere (h : t.get? (t.place p) = some .directory) : t.isDirectory p := by
    have hresolve : t.resolve p = .ok (t.place p) := by
      rw [resolve, text_of_segments hp hlast, if_neg Bool.false_ne_true, place, hp]
      refine walk_concat hbefore ?_
      rw [← hp]
      exact Option.isSome_iff_exists.mpr ⟨_, h⟩
    rw [isDirectory, find?, hresolve, decide_eq_true_eq]
    exact h
  have hdirectory := hbefore _ (mem_stops_self _ before)
  rw [makeDirectory, pathEnd_of_segments hp hlast, walk_directory_iff.mpr hbefore]
  simp only [bind, Except.bind, Except.map, PathEnd.ofSegment]
  rw [follow] at hplace
  -- Points lead to a directory that is there, only a name can be new.
  cases hpart : PathPart.ofSegment? last with
  | none =>
    rw [hpart] at hplace
    have h : t.get? (t.place p) = some .directory := by rw [hplace]; exact hdirectory
    exact .inl ⟨rfl, hthere h, h⟩
  | some part =>
    rw [hpart] at hplace
    cases part with
    | name n =>
      simp only at hplace ⊢
      rw [← hplace]
      cases hget : t.get? (t.place p) with
      | none => exact .inr ⟨n, hplace, rfl, rfl⟩
      | some entry =>
        cases entry with
        | file content => exact absurd hget (hfile content)
        | directory => exact .inl ⟨rfl, hthere hget, rfl⟩
    | parent =>
      have h : t.get? (t.place p) = some .directory := by
        rw [hplace]
        exact hsound.dropLast hdirectory
      exact .inl ⟨rfl, hthere h, h⟩
    | root | here =>
      have h : t.get? (t.place p) = some .directory := by rw [hplace]; exact hdirectory
      exact .inl ⟨rfl, hthere h, h⟩

theorem makeAll_of_exists {above : List FilePath} (htext : p.text.isEmpty = false)
    (h : t.makeDirectory p = .error .exists) (hdirectory : t.isDirectory p) :
    t.makeAll (p :: above) = .ok t := by
  unfold makeAll
  simp only [htext, h, hdirectory, if_true]
  rfl

theorem makeAll_of_made {above : List FilePath} (htext : p.text.isEmpty = false)
    (h : t.makeDirectory p = .ok made) : t.makeAll (p :: above) = .ok made := by
  unfold makeAll
  simp only [htext, h]
  rfl

/-- Where something above is missing, it is made before. -/
theorem makeAll_of_notFound {above : List FilePath} (htext : p.text.isEmpty = false)
    (h : t.makeDirectory p = .error .notFound) (habove : t.makeAll above = .ok made)
    (hfound : made.makeDirectory p ≠ .error .notFound) :
    t.makeAll (p :: above) = made.makeAll (p :: above) := by
  rw [makeAll, makeAll]
  simp only [htext, h, habove, if_neg Bool.false_ne_true, bind, Except.bind]

/-- Nothing has to be made where all stops are directories. -/
theorem Furnished.refl {stops : List Address} (hsound : t.Sound)
    (h : ∀ a ∈ stops, t.get? a = some .directory) : t.Furnished stops t :=
  ⟨rfl, hsound, h, fun _ _ => rfl⟩

theorem Furnished.congr {stops stops' : List Address} (h : t.Furnished stops made)
    (hmem : ∀ a, a ∈ stops' ↔ a ∈ stops) : t.Furnished stops' made :=
  ⟨h.current, h.sound, fun a ha => h.get?_of_mem a ((hmem a).mp ha),
    fun a ha => h.get?_of_not_mem a (mt (hmem a).mpr ha)⟩

theorem Furnished.trans {stops stops' : List Address} (h : t.Furnished stops made)
    (h' : made.Furnished stops' t') : t.Furnished (stops ++ stops') t' where
  current := h'.current.trans h.current
  sound := h'.sound
  get?_of_mem a ha := by
    by_cases hlater : a ∈ stops'
    · exact h'.get?_of_mem a hlater
    · rw [h'.get?_of_not_mem a hlater]
      exact h.get?_of_mem a ((List.mem_append.mp ha).resolve_right hlater)
  get?_of_not_mem a ha := by
    rw [List.mem_append, not_or] at ha
    rw [h'.get?_of_not_mem a ha.2, h.get?_of_not_mem a ha.1]

/-- The last directory is made once those above it are there. -/
theorem makeAll_of_before {last : List Char} (hsound : t.Sound)
    (hp : p.segments = before ++ [last]) (hlast : last ≠ [])
    (hbefore : ∀ a ∈ stops (t.origin p) before, t.get? a = some .directory)
    (hfile : ∀ content, t.get? (t.place p) ≠ some (.file content)) :
    t.makeDirectory p ≠ .error .notFound ∧
      ∃ made, (∀ above, t.makeAll (p :: above) = .ok made) ∧ t.Furnished [t.place p] made := by
  have htext := text_of_segments hp hlast
  rcases makeDirectory_cases hsound hp hlast hbefore hfile with
    ⟨hexists, hdirectory, hget⟩ | ⟨n, hplace, hnone, hmade⟩
  · refine ⟨by rw [hexists]; simp, t, fun _ => makeAll_of_exists htext hexists hdirectory, ?_⟩
    exact .refl hsound (by simpa using hget)
  · have hne : t.place p ≠ [] := by simp [hplace]
    have hput := get?_put t hne .directory
    refine ⟨by rw [hmade]; simp, _, fun _ => makeAll_of_made htext hmade, rfl, ?_, ?_, ?_⟩
    · have habove := hbefore _ (mem_stops_self _ before)
      rw [hplace] at hnone ⊢
      exact hsound.put habove (by simp [hnone])
    · intro a ha
      rw [List.mem_singleton.mp ha, hput, if_pos rfl]
    · intro a ha
      rw [hput, if_neg (by simpa using ha)]

theorem Furnished.origin_eq {stops : List Address} (h : t.Furnished stops made) (p : FilePath) :
    made.origin p = t.origin p := by
  rw [origin, origin, h.current]

/-- In a tree that holds what the segments before the last lead through, the last is made. -/
theorem Furnished.makeLast {t₁ : FileTree} {last : List Char} (hp : p.segments = before ++ [last])
    (hlast : last ≠ []) (hclear : ∀ content, t.get? (t.place p) ≠ some (.file content))
    (h : t.Furnished (stops (t.origin p) before) t₁) :
    t₁.makeDirectory p ≠ .error .notFound ∧
      ∃ made, (∀ above, t₁.makeAll (p :: above) = .ok made) ∧
        t.Furnished (stops (t.origin p) p.segments) made := by
  have hplace : t₁.place p = t.place p := by rw [place, h.origin_eq, ← place]
  have hfile : ∀ content, t₁.get? (t₁.place p) ≠ some (.file content) := by
    intro content
    rw [hplace]
    by_cases hmem : t.place p ∈ stops (t.origin p) before
    · rw [h.get?_of_mem _ hmem]
      simp
    · rw [h.get?_of_not_mem _ hmem]
      exact hclear content
  have hbefore : ∀ a ∈ stops (t₁.origin p) before, t₁.get? a = some .directory := by
    rw [h.origin_eq]
    exact h.get?_of_mem
  obtain ⟨hfound, made, hmade, hfurnished⟩ := makeAll_of_before h.sound hp hlast hbefore hfile
  refine ⟨hfound, made, hmade, (h.trans hfurnished).congr fun a => ?_⟩
  rw [hp, mem_stops_concat, List.mem_append, List.mem_singleton, hplace, place, hp]

/-! ### All directories -/

/-- The path of segments that lead to a directory. -/
def directoryPath (s : List Char) (ss : List (List Char)) : FilePath :=
  .ofSegments (s = []) (s :: trimBack ss)

section Path

variable {s : List Char} {fuel : Nat}

theorem slash_of_trimBack (hslash : ∀ x ∈ s :: ss, '/' ∉ x) : ∀ x ∈ s :: trimBack ss, '/' ∉ x := by
  obtain ⟨idle, hss, -⟩ := exists_idle ss
  intro x hx
  refine hslash x ?_
  rw [hss]
  exact List.cons_subset_cons s (List.subset_append_left _ _) hx

theorem directoryPath_cases (hslash : ∀ x ∈ s :: ss, '/' ∉ x) :
    (s = [] ∧ trimBack ss = [] ∧ directoryPath s ss = ⟨"/"⟩) ∨
      (directoryPath s ss).segments = s :: trimBack ss ∧ (s = [] → trimBack ss ≠ []) := by
  have htrim := slash_of_trimBack hslash
  unfold directoryPath ofSegments
  by_cases hroot : s = [] ∧ trimBack ss = []
  · obtain ⟨rfl, hss⟩ := hroot
    rw [hss]
    exact .inl ⟨rfl, rfl, rfl⟩
  · refine .inr ⟨?_, fun hs hss => hroot ⟨hs, hss⟩⟩
    rw [if_neg (by simpa using hroot), segments, String.toList_ofList,
      splitSegments_joinSegments (List.cons_ne_nil _ _) htrim]

theorem isAbsolute_directoryPath (hslash : ∀ x ∈ s :: ss, '/' ∉ x) :
    (directoryPath s ss).isAbsolute = decide (s = []) := by
  rcases directoryPath_cases hslash with ⟨rfl, -, hpath⟩ | ⟨hsegments, hroot⟩
  · rw [hpath]
    rfl
  · rw [Bool.eq_iff_iff, isAbsolute_iff, hsegments, decide_eq_true_eq]
    constructor
    · rintro ⟨_, _, heq⟩
      exact (List.cons.inj heq).1
    · rintro rfl
      obtain ⟨x, xs, hxs⟩ := List.exists_cons_of_ne_nil (hroot rfl)
      exact ⟨x, xs, by rw [hxs]⟩

theorem last_ne_nil_of_trimBack {mid : List (List Char)} {last : List Char}
    (hss : trimBack ss = mid ++ [last]) : last ≠ [] := by
  have hsome : trimBack ss ≠ [] := by simp [hss]
  have hnot : ¬ isIdle ((trimBack ss).getLast hsome) := List.rdropWhile_last_not isIdle ss hsome
  rintro rfl
  simp [hss, isIdle] at hnot

theorem trimBack_trimBack (ss : List (List Char)) : trimBack (trimBack ss) = trimBack ss :=
  List.rdropWhile_idempotent isIdle ss

theorem parent?_directoryPath (hslash : ∀ x ∈ s :: ss, '/' ∉ x) {mid : List (List Char)}
    {last : List Char} (hss : trimBack ss = mid ++ [last]) :
    (directoryPath s ss).parent? = some (directoryPath s mid) := by
  rcases directoryPath_cases hslash with ⟨-, hnil, -⟩ | ⟨hsegments, -⟩
  · rw [hnil] at hss
    simp at hss
  · have habsolute := isAbsolute_directoryPath hslash
    rw [parent?, hsegments, habsolute]
    dsimp only
    rw [trimBack_trimBack, hss]
    split
    next hnil => simp at hnil
    next => rw [List.dropLast_concat, directoryPath]

/-- The directories that segments lead through are made, if no file is on the way. -/
theorem makeAll_directoryPath (hsound : t.Sound) (hslash : ∀ x ∈ s :: ss, '/' ∉ x)
    (hclear : ∀ a ∈ stops (t.origin (directoryPath s ss)) (s :: ss), ∀ content,
      t.get? a ≠ some (.file content))
    (hfuel : (trimBack ss).length + 2 ≤ fuel) :
    ∃ made, t.makeAll (ancestorsWithin fuel (directoryPath s ss)) = .ok made ∧
      t.Furnished (stops (t.origin (directoryPath s ss)) (s :: ss)) made := by
  induction fuel generalizing t ss with
  | zero => omega
  | succ fuel ih =>
    -- Segments that stand for nothing are in the text and not in the path.
    suffices h : ∃ made, t.makeAll (ancestorsWithin (fuel + 1) (directoryPath s ss)) = .ok made ∧
        t.Furnished (stops (t.origin (directoryPath s ss)) (s :: trimBack ss)) made by
      obtain ⟨made, hmade, hfurnished⟩ := h
      exact ⟨made, hmade, hfurnished.congr fun a => mem_stops_trimBack.symm⟩
    replace hclear : ∀ a ∈ stops (t.origin (directoryPath s ss)) (s :: trimBack ss), ∀ content,
        t.get? a ≠ some (.file content) :=
      fun a ha => hclear a (mem_stops_trimBack.mp ha)
    rw [ancestorsWithin]
    rcases directoryPath_cases hslash with ⟨rfl, hnil, hpath⟩ | ⟨hsegments, hroot⟩
    · rw [hpath, hnil]
      refine ⟨t, rfl, .refl hsound fun a ha => ?_⟩
      have hmem : a ∈ [([] : Address), []] := ha
      obtain rfl : a = [] := by simpa using hmem
      rfl
    rw [← hsegments] at hclear ⊢
    have hplace := hclear _ (mem_stops_self (t.origin (directoryPath s ss)) _)
    rcases List.eq_nil_or_concat (trimBack ss) with hnil | ⟨mid, last, hmid⟩
    · have hone : (directoryPath s ss).segments = [] ++ [s] := by rw [hsegments, hnil]; rfl
      have hstart : t.Furnished (stops (t.origin (directoryPath s ss)) []) t := by
        refine .refl hsound fun a ha => ?_
        have hmem : a ∈ [t.origin (directoryPath s ss)] := ha
        rw [List.mem_singleton.mp hmem]
        exact origin_directory hsound _
      obtain ⟨-, made, hmade, hfurnished⟩ := hstart.makeLast hone (fun hs => hroot hs hnil) hplace
      exact ⟨made, hmade _, hfurnished⟩
    rw [List.concat_eq_append] at hmid
    have hsplit : (directoryPath s ss).segments = (s :: mid) ++ [last] := by
      rw [hsegments, hmid]
      rfl
    have hne := last_ne_nil_of_trimBack hmid
    cases hwalk : t.walk (t.origin (directoryPath s ss)) (s :: mid ++ [['.']]) with
    | ok directory =>
      rw [walk_eq_reached (walk_here hwalk).1] at hwalk
      obtain ⟨-, made, hmade, hfurnished⟩ :=
        (Furnished.refl hsound (walk_directory_iff.mp hwalk)).makeLast hsplit hne hplace
      exact ⟨made, hmade _, hfurnished⟩
    | error e =>
      -- Something above is missing, so that it is made before.
      have hslash' : ∀ x ∈ s :: mid, '/' ∉ x := fun x hx => by
        refine slash_of_trimBack hslash x ?_
        rw [← hsegments, hsplit]
        exact List.mem_append_left _ hx
      have horigin : t.origin (directoryPath s mid) = t.origin (directoryPath s ss) := by
        rw [origin, origin, isAbsolute_directoryPath hslash, isAbsolute_directoryPath hslash']
      have hclear' : ∀ a ∈ stops (t.origin (directoryPath s ss)) (s :: mid), ∀ content,
          t.get? a ≠ some (.file content) := by
        intro a ha
        refine hclear a ?_
        rw [hsplit, mem_stops_concat]
        exact .inl ha
      have hfuel' : (trimBack mid).length + 2 ≤ fuel := by
        have hle : (trimBack mid).length ≤ mid.length := (List.rdropWhile_prefix _ _).length_le
        rw [hmid, List.length_append, List.length_singleton] at hfuel
        omega
      have hmissing : t.makeDirectory (directoryPath s ss) = .error .notFound := by
        rcases walk_directory_error hwalk with rfl | ⟨a, ha, content, hfile⟩
        · rw [makeDirectory, pathEnd_of_segments hsplit hne, hwalk]
          rfl
        · exact absurd hfile (hclear' a ha content)
      obtain ⟨t₁, habove, hfurnished₁⟩ :=
        ih hsound hslash' (by rw [horigin]; exact hclear') hfuel'
      rw [horigin] at hfurnished₁
      obtain ⟨hfound, made, hmade, hfurnished⟩ := hfurnished₁.makeLast hsplit hne hplace
      refine ⟨made, ?_, hfurnished⟩
      rw [parent?_directoryPath hslash hmid]
      exact (makeAll_of_notFound (text_of_segments hsplit hne) hmissing habove hfound).trans
        (hmade _)

end Path

/-! ## Writing a file -/

section End

variable {n : String}

theorem way_of_below (hp : p.Below before [n]) : t.way p = stops (t.origin p) before := by
  rw [way, hp.segments, List.map_singleton, List.dropLast_concat]

theorem place_of_below (hp : p.Below before [n]) :
    t.place p = reached (t.origin p) before ++ [n] := by
  have hn := hp.names n List.mem_cons_self
  rw [place, hp.segments, List.map_singleton, reached_concat, follow, hn.segment]

/-- The directories above a path are made, if no file is on the way. -/
theorem withParent_of_clear (hsound : t.Sound) (hp : p.Below before [n])
    (hclear : ∀ a ∈ t.way p, ∀ content, t.get? a ≠ some (.file content)) :
    ∃ made, t.withParent p = .ok made ∧ t.Furnished (t.way p) made := by
  have hn := hp.names n List.mem_cons_self
  have hidle : ¬ isIdle n.toList := by simp [isIdle, hn.ne_nil, (isName_iff.mp hn).2.2.1]
  rw [way_of_below hp] at *
  -- A name alone has the empty path above it, which is there; else the directories are made.
  cases before with
  | nil =>
    have hparent : p.parent? = some ⟨""⟩ := by
      rw [parent?, hp.segments]
      exact if_neg hn.ne_nil
    refine ⟨t, by rw [withParent, hparent]; rfl, .refl hsound fun a ha => ?_⟩
    have hmem : a ∈ [t.origin p] := ha
    rw [List.mem_singleton.mp hmem]
    exact origin_directory hsound p
  | cons s ss =>
    have habsolute : p.isAbsolute = decide (s = []) := by
      rw [hp.isAbsolute_eq]
      simp only [List.head?_cons, Option.some.injEq]
    have hslash : ∀ x ∈ s :: ss, '/' ∉ x := by
      intro x hx
      have hmem : x ∈ p.segments := by
        rw [hp.segments]
        exact List.mem_append_left _ hx
      exact not_mem_of_mem_splitSegments hmem
    have hparent : p.parent? = some (directoryPath s ss) := by
      have htrim : trimBack (ss ++ [n.toList]) = ss ++ [n.toList] :=
        List.rdropWhile_concat_neg isIdle ss n.toList hidle
      rw [parent?, hp.segments, habsolute, List.cons_append, List.map_singleton]
      dsimp only
      rw [htrim]
      split
      next hnil => simp at hnil
      next => rw [List.dropLast_concat, directoryPath]
    have horigin : t.origin (directoryPath s ss) = t.origin p := by
      rw [origin, origin, isAbsolute_directoryPath hslash, habsolute]
    have hfuel : (trimBack ss).length + 2 ≤ (directoryPath s ss).segments.length + 1 := by
      rcases directoryPath_cases hslash with ⟨-, hnil, hpath⟩ | ⟨hsegments, -⟩
      · rw [hpath, hnil]
        decide
      · rw [hsegments, List.length_cons]
    rw [← horigin] at hclear ⊢
    obtain ⟨made, hmade, hfurnished⟩ := makeAll_directoryPath hsound hslash hclear hfuel
    refine ⟨made, ?_, hfurnished⟩
    rw [withParent, hparent]
    dsimp only
    rw [makeDirectories, ancestors, hmade]
    rfl

theorem joinSegments_concat_nil (h : ss ≠ []) :
    joinSegments (ss ++ [[]]) = joinSegments ss ++ ['/'] := by
  induction ss with
  | nil => exact absurd rfl h
  | cons s ss ih =>
    cases ss with
    | nil => rfl
    | cons x xs =>
      have hrest := ih (List.cons_ne_nil x xs)
      rw [List.cons_append, joinSegments_cons s (by simp), hrest,
        joinSegments_cons s (List.cons_ne_nil x xs), List.append_assoc]
      rfl

/-- A path ends in a separator just where its last segment is empty. -/
theorem getLast?_text (h : p.segments = ss ++ [[]]) (hne : ss ≠ []) :
    p.text.toList.getLast? = some '/' := by
  rw [← joinSegments_splitSegments p.text.toList, ← segments, h, joinSegments_concat_nil hne,
    List.getLast?_concat]

theorem getLast?_text_of_below (hp : p.Below before [n]) : p.text.toList.getLast? ≠ some '/' := by
  intro hlast
  obtain ⟨cs, hcs⟩ := List.getLast?_eq_some_iff.mp hlast
  have hsegments : p.segments = splitSegments cs ++ [[]] := by
    rw [segments, hcs, splitSegments_append]
    rfl
  have hn := (hp.names n List.mem_cons_self).ne_nil
  rw [hp.segments, List.map_singleton] at hsegments
  exact hn (List.append_singleton_inj.mp hsegments).2

/-- A file is put where its path leads, behind directories. -/
theorem writeText_iff (hp : p.Below before [n]) :
    t.writeText p s = .ok t' ↔ (∀ a ∈ t.way p, t.get? a = some .directory) ∧
      t.get? (t.place p) ≠ some .directory ∧ t' = t.put (t.place p) (.file (.text s)) := by
  have hn := hp.names n List.mem_cons_self
  have hpart := hn.segment
  have hslash : (p.text.toList.getLast? = some '/') = False := eq_false (getLast?_text_of_below hp)
  rw [way_of_below hp, place_of_below hp, ← walk_directory_iff, writeText,
    pathEnd_of_segments hp.segments hn.ne_nil]
  cases hwalk : t.walk (t.origin p) (before ++ [['.']]) with
  | error e => simp [Except.map, bind, Except.bind]
  | ok directory =>
    obtain rfl := walk_eq_reached (walk_here hwalk).1
    simp only [Except.map, bind, Except.bind, PathEnd.ofSegment, hpart, hslash, decide_false,
      Bool.false_or, decide_eq_true_eq, true_and]
    split
    next hdirectory =>
      refine iff_of_false ?_ fun h => h.1 hdirectory
      simp [throw, throwThe, MonadExceptOf.throw]
    next hfree =>
      rw [and_iff_right hfree]
      exact ⟨fun h => (Except.ok.inj h).symm, fun h => h ▸ rfl⟩

theorem toList_of_segment {x : List Char} (h : PathPart.ofSegment? x = some (.name n)) :
    n.toList = x := by
  unfold PathPart.ofSegment? at h
  split at h
  · cases h
  split at h
  · cases h
  · rw [← PathPart.name.inj (Option.some.inj h), String.toList_ofList]

/-- What can be written has a name at its end. -/
theorem below_of_writeText (h : t.writeText p s = .ok t') : ∃ before n, p.Below before [n] := by
  unfold writeText at h
  obtain ⟨e, he, h⟩ := except_bind_eq_ok h
  cases e with
  | dots => cases h
  | name directory n =>
    have hslash : p.text.toList.getLast? ≠ some '/' := by
      intro hlast
      simp [hlast, throw, throwThe, MonadExceptOf.throw] at h
    obtain ⟨before, x, hsegments⟩ : ∃ before x, p.segments = before ++ [x] :=
      ⟨_, _, (List.dropLast_append_getLast (splitSegments_ne_nil _)).symm⟩
    have hx : x ≠ [] := by
      rintro rfl
      by_cases hbefore : before = []
      · rw [pathEnd, hsegments, hbefore] at he
        split at he <;> cases he
      · exact hslash (getLast?_text hsegments hbefore)
    rw [pathEnd_of_segments hsegments hx] at he
    obtain ⟨directory', -, hend⟩ := except_map_eq_ok he
    have hpart : PathPart.ofSegment? x = some (.name n) := by
      unfold PathEnd.ofSegment at hend
      split at hend
      next m hm =>
        rw [hm, (PathEnd.name.inj hend).2]
      next => cases hend
    have hmem : x ∈ p.segments := by simp [hsegments]
    refine ⟨before, n, ?_, List.cons_ne_nil _ _, fun m hm => ?_⟩
    · rw [hsegments, List.map_singleton, toList_of_segment hpart]
    · rw [List.mem_singleton.mp hm]
      exact isName_of_segment (not_mem_of_mem_splitSegments hmem) hpart

/-- Whether a file can be written does not depend on its text. -/
theorem writeText_isOk (h : t.writeText p s = .ok t') (other : String) :
    (t.writeText p other).isOk := by
  obtain ⟨before, n, hp⟩ := below_of_writeText h
  obtain ⟨hway, hfree, -⟩ := (writeText_iff hp).mp h
  rw [(writeText_iff hp).mpr ⟨hway, hfree, rfl⟩]
  rfl

theorem canWrite_iff (s : String) :
    t.canWrite p ↔ ∃ made t', t.withParent p = .ok made ∧ made.writeText p s = .ok t' := by
  unfold canWrite
  constructor
  · intro h
    split at h
    next made hmade =>
      obtain ⟨empty, hempty⟩ := except_eq_ok_of_isOk h
      obtain ⟨t', ht'⟩ := except_eq_ok_of_isOk (writeText_isOk hempty s)
      exact ⟨made, t', hmade, ht'⟩
    next => cases h
  · rintro ⟨made, t', hmade, hwritten⟩
    simp only [hmade]
    exact writeText_isOk hwritten ""

/-- A file that is written can be read. -/
theorem readText_of_writeText (h : t.writeText p s = .ok t') : t'.readText p = .ok s := by
  obtain ⟨before, n, hp⟩ := below_of_writeText h
  exact (writeText_eq_ok hp h).2

end End

/-- A path that can be written: it ends with a name, no file is on the way, and where it leads there
is no directory, nor will there be one once those above have been made. -/
structure Writable (t : FileTree) (p : FilePath) : Prop where
  below : ∃ before n, p.Below before [n]
  clear : ∀ a ∈ t.way p, ∀ content, t.get? a ≠ some (.file content)
  free : t.get? (t.place p) ≠ some .directory
  not_mem_way : t.place p ∉ t.way p

theorem writable_of_writeText (h : t.writeText p s = .ok t') : t.Writable p := by
  obtain ⟨before, n, hp⟩ := below_of_writeText h
  obtain ⟨hway, hfree, -⟩ := (writeText_iff hp).mp h
  refine ⟨⟨before, n, hp⟩, fun a ha content => ?_, hfree, fun hmem => hfree (hway _ hmem)⟩
  rw [hway a ha]
  simp

/-- Directories do not get in the way. -/
theorem Grows.writable {written : Address → Prop} (h : Grows written t t') (hp : t'.Writable p)
    (hwritten : ∀ a, ¬ written a) : t.Writable p := by
  have hplace : t'.place p = t.place p := by rw [place, place, origin, origin, h.current]
  have hway : t'.way p = t.way p := by rw [way, way, origin, origin, h.current]
  obtain ⟨hbelow, hclear, hfree, hmem⟩ := hp
  rw [hplace, hway] at *
  exact ⟨hbelow, fun a ha content hfile =>
    hclear a ha content (h.files a content hfile (hwritten a)),
    fun hdirectory => hfree (h.directories _ hdirectory), hmem⟩

theorem writable_of_canWrite (h : t.canWrite p) : t.Writable p := by
  unfold canWrite at h
  split at h
  next made hmade =>
    cases hwritten : made.writeText p "" with
    | error e =>
      rw [hwritten] at h
      cases h
    | ok t' =>
      have hgrows : Grows (fun _ => False) t made := withParent_grows hmade
      exact hgrows.writable (writable_of_writeText hwritten) fun _ => not_false
  next => cases h

/-! ## Writing several files -/

/-- From `t` to `t'` the given texts have been written, with the directories on the way to them, and
nothing else has changed. -/
structure Wrote (t : FileTree) (texts : List (FilePath × String)) (t' : FileTree) : Prop where
  current : t'.current = t.current
  sound : t'.Sound
  files : ∀ a content, t'.get? a = some (.file content) ↔
    (∃ w ∈ texts, a = t.place w.1 ∧ content = .text w.2) ∨
      t.get? a = some (.file content) ∧ ∀ w ∈ texts, a ≠ t.place w.1
  directories : ∀ a, t'.get? a = some .directory ↔
    t.get? a = some .directory ∨ ∃ w ∈ texts, a ∈ t.way w.1

/-- A path leads elsewhere than those of the texts, and none of them is on the way to another. -/
structure Apart (t : FileTree) (texts : List (FilePath × String)) (p : FilePath) : Prop where
  place : ∀ w ∈ texts, t.place w.1 ≠ t.place p
  not_mem_way : ∀ w ∈ texts, t.place p ∉ t.way w.1
  way_not_mem : ∀ w ∈ texts, t.place w.1 ∉ t.way p

namespace Wrote

variable {texts : List (FilePath × String)}

theorem nil (hsound : t.Sound) : Wrote t [] t :=
  ⟨rfl, hsound, by simp, by simp⟩

theorem origin_eq (h : Wrote t texts t') (p : FilePath) : t'.origin p = t.origin p := by
  rw [origin, origin, h.current]

theorem place_eq (h : Wrote t texts t') (p : FilePath) : t'.place p = t.place p := by
  rw [place, place, h.origin_eq]

theorem way_eq (h : Wrote t texts t') (p : FilePath) : t'.way p = t.way p := by
  rw [way, way, h.origin_eq]

theorem file_not_mem_way (h : Wrote t texts t') (hp : t.Writable p) (hapart : t.Apart texts p)
    {content : FileContent} (ha : t'.get? a = some (.file content)) : a ∉ t.way p := by
  intro hmem
  rcases (h.files a content).mp ha with ⟨w, hw, rfl, -⟩ | ⟨hfile, -⟩
  · exact hapart.way_not_mem w hw hmem
  · exact hp.clear a hmem content hfile

/-- One more text is written where the directories on the way are there. -/
theorem put (h : Wrote t texts t') (hp : t.Writable p) (hapart : t.Apart texts p)
    (hmade : t'.Furnished (t.way p) made) (s : String) :
    ∃ t'', made.writeText p s = .ok t'' ∧ Wrote t (texts ++ [(p, s)]) t'' := by
  obtain ⟨before, n, hbelow⟩ := hp.below
  have hplace : made.place p = t.place p := by
    rw [FileTree.place, hmade.origin_eq, ← FileTree.place, h.place_eq]
  have hway : made.way p = t.way p := by
    rw [FileTree.way, hmade.origin_eq, ← FileTree.way, h.way_eq]
  have hstays : made.get? (t.place p) = t'.get? (t.place p) :=
    hmade.get?_of_not_mem _ hp.not_mem_way
  -- The directories on the way to a later file are not in the place of this one.
  have hfree : made.get? (t.place p) ≠ some .directory := by
    rw [hstays, Ne, h.directories, not_or]
    exact ⟨hp.free, fun ⟨w, hw, hmem⟩ => hapart.not_mem_way w hw hmem⟩
  have hwritten : made.writeText p s = .ok (made.put (t.place p) (.file (.text s))) :=
    (writeText_iff hbelow).mpr ⟨by rw [hway]; exact hmade.get?_of_mem, by rw [hplace]; exact hfree,
      by rw [hplace]⟩
  have hname := place_of_below (t := made) hbelow
  rw [hplace] at hname
  have hput := get?_put made (by simp [hname] : t.place p ≠ []) (.file (.text s))
  refine ⟨_, hwritten, hmade.current.trans h.current, ?_, fun a content => ?_, fun a => ?_⟩
  · rw [hname] at hfree ⊢
    refine hmade.sound.put (hmade.get?_of_mem _ ?_) hfree
    rw [← hway, way_of_below hbelow]
    exact mem_stops_self _ before
  · rw [hput]
    simp only [List.mem_append, List.mem_singleton, or_and_right, exists_or, exists_eq_left, or_imp,
      forall_and, forall_eq]
    split
    next heq =>
      subst heq
      have hother : ¬ ∃ w ∈ texts, t.place p = t.place w.1 ∧ content = .text w.2 :=
        fun ⟨w, hw, hsame, _⟩ => hapart.place w hw hsame.symm
      simp [hother, eq_comm]
    -- Elsewhere only directories have been made, and no file was in their place.
    next hne =>
      have hmade' : made.get? a = some (.file content) ↔ t'.get? a = some (.file content) := by
        by_cases hmem : a ∈ t.way p
        · rw [hmade.get?_of_mem a hmem]
          exact iff_of_false (by simp) fun hfile => h.file_not_mem_way hp hapart hfile hmem
        · rw [hmade.get?_of_not_mem a hmem]
      rw [hmade', h.files]
      simp [hne]
  · rw [hput]
    simp only [List.mem_append, List.mem_singleton, or_and_right, exists_or, exists_eq_left]
    split
    next heq =>
      subst heq
      refine iff_of_false (by simp) ?_
      rintro (hdirectory | ⟨w, hw, hmem⟩ | hmem)
      · exact hp.free hdirectory
      · exact hapart.not_mem_way w hw hmem
      · exact hp.not_mem_way hmem
    next =>
      rw [← or_assoc, ← h.directories]
      by_cases hmem : a ∈ t.way p
      · exact iff_of_true (hmade.get?_of_mem a hmem) (.inr hmem)
      · rw [hmade.get?_of_not_mem a hmem, or_iff_left hmem]

/-- One more text is written, behind directories that are made for it. -/
theorem write (h : Wrote t texts t') (hp : t.Writable p) (hapart : t.Apart texts p) (s : String) :
    ∃ made t'', t'.withParent p = .ok made ∧ made.writeText p s = .ok t'' ∧
      Wrote t (texts ++ [(p, s)]) t'' := by
  obtain ⟨before, n, hbelow⟩ := hp.below
  have hclear : ∀ a ∈ t'.way p, ∀ content, t'.get? a ≠ some (.file content) := by
    intro a ha content hfile
    rw [h.way_eq] at ha
    exact h.file_not_mem_way hp hapart hfile ha
  obtain ⟨made, hmade, hfurnished⟩ := withParent_of_clear h.sound hbelow hclear
  rw [h.way_eq] at hfurnished
  obtain ⟨t'', hwritten, hwrote⟩ := h.put hp hapart hfurnished s
  exact ⟨made, t'', hmade, hwritten, hwrote⟩

theorem grows (h : Wrote t texts t') : Grows (fun a => ∃ w ∈ texts, a = t.place w.1) t t' := by
  refine ⟨h.current, fun a ha => ?_, fun a ha => (h.directories a).mpr (.inl ha),
    fun a content ha hother => (h.files a content).mpr (.inr ⟨ha, fun w hw hsame =>
      hother ⟨w, hw, hsame⟩⟩)⟩
  obtain ⟨entry, hentry⟩ := Option.isSome_iff_exists.mp ha
  cases entry with
  | directory => exact Option.isSome_iff_exists.mpr ⟨_, (h.directories a).mpr (.inl hentry)⟩
  | file content =>
    by_cases hwritten : ∃ w ∈ texts, a = t.place w.1
    · obtain ⟨w, hw, hsame⟩ := hwritten
      exact Option.isSome_iff_exists.mpr
        ⟨_, (h.files a (.text w.2)).mpr (.inl ⟨w, hw, hsame, rfl⟩)⟩
    · exact Option.isSome_iff_exists.mpr ⟨_, (h.files a content).mpr
        (.inr ⟨hentry, fun w hw hsame => hwritten ⟨w, hw, hsame⟩⟩)⟩

/-- A file that none of the texts is written over keeps its text. -/
theorem readText_of_ne (h : Wrote t texts t') (hother : ∀ w ∈ texts, t.place w.1 ≠ t.place p)
    (hread : t.readText p = .ok s) : t'.readText p = .ok s := by
  obtain ⟨a, ha, hfile⟩ := readText_eq_ok_iff.mp hread
  have hwalk := ha
  unfold resolve at hwalk
  split at hwalk
  · cases hwalk
  next hempty =>
    refine readText_eq_ok_iff.mpr ⟨a, ?_, h.grows.files a _ hfile ?_⟩
    · rw [resolve, if_neg hempty, h.origin_eq]
      exact h.grows.walk hwalk
    · rintro ⟨w, hw, hsame⟩
      exact hother w hw (hsame.symm.trans (walk_eq_reached hwalk))

/-- All the texts can be read. -/
theorem readText (h : Wrote t texts t') (hw : (p, s) ∈ texts) (hp : t.Writable p) :
    t'.readText p = .ok s := by
  obtain ⟨before, n, hbelow⟩ := hp.below
  have hfile := (h.files (t.place p) (.text s)).mpr (.inl ⟨_, hw, rfl, rfl⟩)
  refine readText_eq_ok_iff.mpr ⟨_, ?_, hfile⟩
  have hway : ∀ a ∈ stops (t'.origin p) before, t'.get? a = some .directory := by
    intro a ha
    rw [← way_of_below hbelow, h.way_eq] at ha
    exact (h.directories a).mpr (.inr ⟨_, hw, ha⟩)
  rw [resolve, text_ne_empty hbelow, if_neg Bool.false_ne_true, ← h.place_eq, place,
    hbelow.segments, List.map_singleton]
  refine walk_concat hway ?_
  rw [← List.map_singleton (f := String.toList), ← hbelow.segments, ← place, h.place_eq, hfile]
  rfl

theorem congr {texts' : List (FilePath × String)} (h : Wrote t texts t')
    (hsame : ∀ w, w ∈ texts ↔ w ∈ texts') : Wrote t texts' t' := by
  refine ⟨h.current, h.sound, fun a content => ?_, fun a => ?_⟩
  · simp only [h.files, hsame]
  · simp only [h.directories, hsame]

end Wrote

/-- Paths that can be written one after the other: they lead to different places, none of which is
on the way to another. -/
structure Clear (t : FileTree) (ps : List FilePath) : Prop where
  writable : ∀ p ∈ ps, t.canWrite p
  places : ps.Pairwise fun p q => t.place p ≠ t.place q
  ways : ∀ p ∈ ps, ∀ q ∈ ps, t.place p ∉ t.way q

/-- When some of the texts have been written, there is room for the next. -/
theorem Clear.next {ps : List FilePath} {texts : List (FilePath × String)} (h : t.Clear ps)
    (hsub : (texts.map (·.1) ++ [p]).Sublist ps) : t.Writable p ∧ t.Apart texts p := by
  have hp : p ∈ ps := hsub.subset (List.mem_append_right _ List.mem_cons_self)
  have htexts : ∀ w ∈ texts, w.1 ∈ ps := fun w hw =>
    hsub.subset (List.mem_append_left _ (List.mem_map_of_mem hw))
  have hne := (List.pairwise_append.mp (h.places.sublist hsub)).2.2
  exact ⟨writable_of_canWrite (h.writable p hp),
    fun w hw => hne _ (List.mem_map_of_mem hw) p List.mem_cons_self,
    fun w hw => h.ways p hp _ (htexts w hw), fun w hw => h.ways _ (htexts w hw) p hp⟩

theorem Clear.sublist {ps qs : List FilePath} (h : t.Clear ps) (hsub : qs.Sublist ps) :
    t.Clear qs :=
  ⟨fun p hp => h.writable p (hsub.subset hp), h.places.sublist hsub,
    fun p hp q hq => h.ways p (hsub.subset hp) q (hsub.subset hq)⟩

theorem Clear.perm {ps qs : List FilePath} (h : t.Clear ps) (hperm : ps.Perm qs) : t.Clear qs :=
  ⟨fun p hp => h.writable p (hperm.mem_iff.mpr hp),
    (hperm.pairwise_iff Ne.symm).mp h.places,
    fun p hp q hq => h.ways p (hperm.mem_iff.mpr hp) q (hperm.mem_iff.mpr hq)⟩

theorem isFile_of_readText (h : t.readText p = .ok s) : t.isFile p := by
  obtain ⟨a, ha, hfile⟩ := readText_eq_ok_iff.mp h
  rw [isFile, find?, ha]
  simp only [hfile]

/-- Trees whose entries all lie in directories are sound. -/
theorem sound_of_entries (hcurrent : t.get? t.current = some .directory)
    (h : ∀ e ∈ t.entries, t.get? e.1.dropLast = some .directory) : t.Sound := by
  refine ⟨hcurrent, fun a n ha => ?_⟩
  obtain ⟨entry, hentry⟩ := Option.isSome_iff_exists.mp ha
  have hlookup : t.entries.lookup (a ++ [n]) = some entry := by
    unfold get? at hentry
    split at hentry
    next hnil => simp at hnil
    next => exact hentry
  obtain ⟨before, after, hentries, -⟩ := List.lookup_eq_some_iff.mp hlookup
  have hmem := h (a ++ [n], entry) (by simp [hentries])
  rwa [List.dropLast_concat] at hmem

end Graft.FileTree

import Graft.Proofs.Files.Order
import Graft.Proofs.Files.Search

/-!
# Files of a directory

What a directory given as an argument stands for. Its path is made part of a pattern, so that a
wildcard in it is taken for one; and where it starts with `.`, the paths found do not, so that they
are judged from the current directory. Apart from that, every file below the directory that the
settings let through is found, once.
-/

namespace Graft

open FilePath (splitSegments)

/-! ## Judging paths -/

/-- All path patterns of the settings can be read. -/
def Settings.PatternsRead (s : Settings) : Prop :=
  ∀ x ∈ s.paths.excluded ++ s.paths.included, (PathPattern.ofText x).isOk

instance : DecidablePred Settings.PatternsRead := fun s =>
  inferInstanceAs (Decidable (∀ x ∈ s.paths.excluded ++ s.paths.included, _))

theorem Settings.anyMatches_isOk {patterns : List String}
    (h : ∀ x ∈ patterns, (PathPattern.ofText x).isOk) (p : FilePath) :
    (anyMatches patterns p).isOk := by
  induction patterns with
  | nil => rfl
  | cons x patterns ih =>
    obtain ⟨pattern, hpattern⟩ := except_eq_ok_of_isOk (h x List.mem_cons_self)
    rw [anyMatches, hpattern]
    simp only
    split
    · rfl
    · exact ih fun y hy => h y (List.mem_cons_of_mem x hy)

theorem Settings.admits_isOk {s : Settings} (h : s.PatternsRead) (p : FilePath) :
    (s.admits p).isOk := by
  obtain ⟨hexcluded, hincluded⟩ := List.forall_mem_append.mp h
  obtain ⟨out, hout⟩ := except_eq_ok_of_isOk (anyMatches_isOk hexcluded p)
  obtain ⟨taken, htaken⟩ := except_eq_ok_of_isOk (anyMatches_isOk hincluded p)
  unfold admits
  rw [hout]
  simp only [bind, Except.bind]
  split
  · rfl
  · split
    · rfl
    · rw [htaken]
      rfl

namespace FileTree

variable {t : FileTree} {a : Address} {p : FilePath}

theorem isFile_iff (h : t.resolve p = .ok a) :
    t.isFile p ↔ ∃ content, t.get? a = some (.file content) := by
  rw [isFile, find?, h]
  simp only
  split
  next content hfile => exact iff_of_true rfl ⟨content, hfile⟩
  next hnot =>
    refine iff_of_false Bool.false_ne_true ?_
    rintro ⟨content, hfile⟩
    exact hnot content hfile

theorem directory_of_isDirectory (h : t.isDirectory p) :
    ∃ a, t.resolve p = .ok a ∧ t.get? a = some .directory := by
  have hfound := of_decide_eq_true h
  unfold find? at hfound
  split at hfound
  next a ha => exact ⟨a, ha, hfound⟩
  next => cases hfound

end FileTree

namespace Collect

variable {s : Settings} {t : FileTree} {arguments : List String} {d : String} {a : Address}
  {names : List String} {p : FilePath}

/-- The segments of a directory as they are searched for: without the separators at its end. -/
def segments (d : String) : List (List Char) := splitSegments (d.toList.rdropWhile (· = '/'))

/-- Nothing in the path of a directory is a wildcard, and no further separator comes directly
behind a `.` at its start. -/
structure Searchable (d : String) : Prop where
  plain : ∀ c ∈ d.toList, PathPattern.IsPlain c
  start : FileSearch.StartsPlainly (segments d)

/-- The path under which a file is found that lies below a directory by the given names. -/
def pathBelow (d : String) (names : List String) : FilePath :=
  .ofNames (FileSearch.searchFront (segments d)) names

/-- The path by which the settings judge that file: in the directory, or in the current one if the
path of the directory starts with `.`. -/
def judged (d : String) (names : List String) : FilePath :=
  if (segments d).head? = some ['.'] then pathBelow d names else ⟨"/".intercalate names⟩

/-! ## One directory -/

theorem exists_segments (d : String) : ∃ first more, segments d = first :: more :=
  List.exists_cons_of_ne_nil (FilePath.splitSegments_ne_nil _)

theorem exists_replicate (d : String) :
    ∃ k, d.toList = d.toList.rdropWhile (· = '/') ++ List.replicate k '/' := by
  refine ⟨(d.toList.rtakeWhile (· = '/')).length, ?_⟩
  have hslashes : d.toList.rtakeWhile (· = '/') =
      List.replicate (d.toList.rtakeWhile (· = '/')).length '/' :=
    List.eq_replicate_of_mem fun c hc => by simpa using List.mem_rtakeWhile_imp hc
  rw [← hslashes, List.rdropWhile_append_rtakeWhile]

/-- A directory leads along its segments to where all below it is found. -/
theorem exists_foundFrom (hd : Searchable d) (hresolve : t.resolve ⟨d⟩ = .ok a)
    (ha : t.get? a = some .directory) (hnamed : t.Named) :
    (∃ q, FileSearch.FoundFrom t a (FileSearch.searchFront (segments d)) q) ∧
      matching t (patternBelow d) = .ok ((t.below a).map (pathBelow d)) := by
  obtain ⟨first, more, hsegments⟩ := exists_segments d
  obtain ⟨k, hk⟩ := exists_replicate d
  have hplain : ∀ c ∈ d.toList.rdropWhile (· = '/'), PathPattern.IsPlain c := fun c hc =>
    hd.plain c ((List.rdropWhile_prefix _ _).subset hc)
  have hstart := hd.start
  rw [hsegments] at hstart
  obtain ⟨q, hfound, hfollow⟩ := FileSearch.exists_foundFrom (t := t) (d := ⟨d⟩) hsegments hk hstart
    hresolve ha [.anywhere, .wild [.run]]
  have hpattern : patternBelow d = .ofList (d.toList.rdropWhile (· = '/')) ++ "/**/*" := rfl
  rw [hsegments]
  refine ⟨⟨q, hfound⟩, ?_⟩
  rw [matching, hpattern, FileSearch.ofText_below hplain hsegments]
  simp only [FileSearch.results]
  rw [hfollow, FileSearch.follow_anywhere hfound hnamed, ← hsegments]
  rfl

/-- The path under which a file is found leads to it. -/
theorem resolve_pathBelow
    (hfound : FileSearch.FoundFrom t a (FileSearch.searchFront (segments d)) p)
    (hsound : t.Sound) (hne : names ≠ []) (hnames : ∀ n ∈ names, FilePath.IsName n)
    (hsome : (t.get? (a ++ names)).isSome) : t.resolve (pathBelow d names) = .ok (a ++ names) := by
  have hbelow := hfound.below hne hnames
  rw [pathBelow, ← hbelow.eq_ofNames, FileTree.resolve, FileTree.text_ne_empty hbelow,
    if_neg Bool.false_ne_true, FileTree.origin_eq hbelow, hbelow.segments, FileTree.walk_append,
    hfound.walk]
  exact FileTree.walk_names hsound hnames hsome

/-- How the settings see what is found. -/
theorem relativeTo?_pathBelow
    (hfound : FileSearch.FoundFrom t a (FileSearch.searchFront (segments d)) p)
    (hresolve : t.resolve ⟨d⟩ = .ok a) (hne : names ≠ [])
    (hnames : ∀ n ∈ names, FilePath.IsName n) :
    ((pathBelow d names).relativeTo? ⟨d⟩).getD (pathBelow d names) = judged d names := by
  have hbelow := hfound.below hne hnames
  rw [hbelow.eq_ofNames] at hbelow
  obtain ⟨first, more, hsegments⟩ := exists_segments d
  obtain ⟨k, hk⟩ := exists_replicate d
  have hparts := FileSearch.parts_of_directory (d := ⟨d⟩) hsegments hk
    (FileTree.text_of_resolve hresolve)
  by_cases hfirst : first = ['.']
  · have hhere : (FilePath.mk d).parts.head? = some .here := by
      rw [hparts, hfirst]
      rfl
    have hjudged : judged d names = pathBelow d names := by
      rw [judged, hsegments, hfirst]
      rfl
    rw [hjudged, pathBelow, hbelow.relativeTo?_eq_none hfound.start hhere]
    rfl
  · obtain ⟨hfront, hsame⟩ := FileSearch.partsOf_searchFront more hfirst
    rw [← hsegments] at hfront hsame
    rw [pathBelow, hbelow.relativeTo?_eq hfront (hsame.trans (by rw [hsegments, hparts])), judged,
      hsegments, if_neg (by simpa using hfirst)]
    rfl

/-- Whether an argument that is a directory stands for a path found below it. -/
def keeps (s : Settings) (t : FileTree) (d : String) (p : FilePath) : Bool :=
  t.isFile p && (s.admits ((p.relativeTo? ⟨d⟩).getD p)).toOption = some true

theorem isAdmitted_eq (hpatterns : s.PatternsRead) (t : FileTree) (d : String) (p : FilePath) :
    isAdmitted s t ⟨d⟩ p = .ok (keeps s t d p) := by
  obtain ⟨judgement, hjudgement⟩ :=
    except_eq_ok_of_isOk (Settings.admits_isOk hpatterns ((p.relativeTo? ⟨d⟩).getD p))
  rw [isAdmitted, keeps, hjudgement]
  cases t.isFile p <;> cases judgement <;> rfl

/-- The directory that `d` leads to lies at `a`, the file below it by the given names, and the
settings let it through. -/
structure Wanted (s : Settings) (t : FileTree) (d : String) (a : Address) (names : List String) :
    Prop where
  resolve : t.resolve ⟨d⟩ = .ok a
  directory : t.get? a = some .directory
  file : ∃ content, t.get? (a ++ names) = some (.file content)
  admitted : s.admits (judged d names) = .ok true

theorem Wanted.mem_below (h : Wanted s t d a names) : names ∈ t.below a := by
  obtain ⟨content, hfile⟩ := h.file
  refine FileTree.mem_below_iff.mpr ⟨?_, Option.isSome_iff_exists.mpr ⟨_, hfile⟩⟩
  rintro rfl
  rw [List.append_nil, h.directory] at hfile
  cases hfile

/-- What a directory stands for. -/
theorem ofArgument_directory (hpatterns : s.PatternsRead) (hsound : t.Sound) (hnamed : t.Named)
    (hdirectory : t.isDirectory ⟨d⟩) (hd : Searchable d) :
    ∃ found, ofArgument s t d = .ok found ∧
      ∀ p, p ∈ found ↔ ∃ a names, Wanted s t d a names ∧ p = pathBelow d names := by
  obtain ⟨a, hresolve, ha⟩ := FileTree.directory_of_isDirectory hdirectory
  obtain ⟨⟨q, hfound⟩, hmatching⟩ := exists_foundFrom hd hresolve ha hnamed
  have hnofile : t.isFile ⟨d⟩ = false := by
    rw [Bool.eq_false_iff, ne_eq, FileTree.isFile_iff hresolve, ha]
    rintro ⟨content, ⟨⟩⟩
  -- What lies below the directory is kept just if it is a file that is let through.
  have hkeeps : ∀ names ∈ t.below a, keeps s t d (pathBelow d names) ↔ Wanted s t d a names := by
    intro names hnames
    obtain ⟨hne, hsome⟩ := FileTree.mem_below_iff.mp hnames
    have hisName := hnamed.isName hnames
    have hpath := resolve_pathBelow hfound hsound hne hisName hsome
    rw [keeps, relativeTo?_pathBelow hfound hresolve hne hisName, Bool.and_eq_true,
      FileTree.isFile_iff hpath, decide_eq_true_eq]
    constructor
    · rintro ⟨hfile, hadmits⟩
      exact ⟨hresolve, ha, hfile, eq_ok_of_toOption hadmits⟩
    · intro hwanted
      exact ⟨hwanted.file, by rw [hwanted.admitted]; rfl⟩
  refine ⟨((t.below a).map (pathBelow d)).filter (keeps s t d), ?_, fun p => ?_⟩
  · rw [ofArgument]
    simp only [hnofile, hdirectory, if_true, Bool.false_eq_true, if_false, hmatching]
    exact filterM_eq_ok fun p _ => isAdmitted_eq hpatterns t d p
  · rw [List.mem_filter, List.mem_map]
    constructor
    · rintro ⟨⟨names, hnames, rfl⟩, hkeep⟩
      exact ⟨a, names, (hkeeps names hnames).mp hkeep, rfl⟩
    · rintro ⟨a', names, hwanted, rfl⟩
      obtain rfl : a = a' := Except.ok.inj (hresolve.symm.trans hwanted.resolve)
      exact ⟨⟨names, hwanted.mem_below, rfl⟩, (hkeeps names hwanted.mem_below).mpr hwanted⟩

/-- What is found below a directory lies there. -/
theorem Wanted.resolve_pathBelow (h : Wanted s t d a names) (hsound : t.Sound) (hnamed : t.Named)
    (hd : Searchable d) : t.resolve (pathBelow d names) = .ok (a ++ names) := by
  obtain ⟨⟨q, hfound⟩, -⟩ := exists_foundFrom hd h.resolve h.directory hnamed
  obtain ⟨hne, hsome⟩ := FileTree.mem_below_iff.mp h.mem_below
  exact Collect.resolve_pathBelow hfound hsound hne (hnamed.isName h.mem_below) hsome

/-! ## All arguments -/

/-- Of sorted paths exactly one has given parts, if any has. -/
theorem countP_same {ps : List FilePath} {q : FilePath} (h : ps.Pairwise FilePath.Before)
    (hq : q ∈ ps) (hsame : q.same p) : ps.countP (·.same p) = 1 := by
  simp only [FilePath.same, decide_eq_true_eq] at hsame
  induction ps with
  | nil => cases hq
  | cons r ps ih =>
    obtain ⟨hfirst, hrest⟩ := List.pairwise_cons.mp h
    have hother : ∀ x ∈ ps, r.parts ≠ x.parts := fun x hx => by
      simpa [FilePath.same] using (hfirst x hx).2
    rcases List.mem_cons.mp hq with rfl | hq
    · rw [List.countP_cons_of_pos (by simpa [FilePath.same] using hsame), List.countP_eq_zero.mpr]
      intro x hx hxp
      simp only [FilePath.same, decide_eq_true_eq] at hxp
      exact hother x hx (hsame.trans hxp.symm)
    · rw [List.countP_cons_of_neg, ih hrest hq]
      simp only [FilePath.same, decide_eq_true_eq]
      exact fun hr => hother q hq (hr.trans hsame.symm)

/-- Where no argument fails, the files are what all of them stand for, sorted. -/
theorem files_of_isOk (h : ∀ d ∈ arguments, (ofArgument s t d).isOk) :
    ∃ found, files s t arguments = .ok found ∧ Gathered (ofArgument s t) arguments found := by
  obtain ⟨found, hfound⟩ := except_eq_ok_of_isOk (gather_isOk_iff.mpr h)
  exact ⟨found, hfound, gathered_of_gather hfound⟩

/-- **Directories are searched completely.** Let all patterns of the settings be readable and no
argument fail that is no directory. Then the files to expand are found, and every file below a
directory of the arguments that the settings let through is among them, exactly once, under a path
that leads to it; what else is found comes from the other arguments. This takes paths of directories
that are no patterns themselves (`Searchable`). -/
theorem files_complete (hpatterns : s.PatternsRead) (hsound : t.Sound) (hnamed : t.Named)
    (hdirectories : ∀ d ∈ arguments, t.isDirectory ⟨d⟩ → Searchable d)
    (hothers : ∀ d ∈ arguments, ¬ t.isDirectory ⟨d⟩ → (ofArgument s t d).isOk) :
    ∃ found, files s t arguments = .ok found ∧
      (∀ d ∈ arguments, ∀ a names, Wanted s t d a names →
        t.resolve (pathBelow d names) = .ok (a ++ names) ∧
        found.countP (·.same (pathBelow d names)) = 1) ∧
      ∀ p ∈ found,
        (∃ d ∈ arguments, ∃ a names, Wanted s t d a names ∧ p = pathBelow d names) ∨
        ∃ d ∈ arguments, ¬ t.isDirectory ⟨d⟩ ∧ ∃ ps, ofArgument s t d = .ok ps ∧ p ∈ ps := by
  have hmeant : ∀ d ∈ arguments, t.isDirectory ⟨d⟩ → ∃ ps, ofArgument s t d = .ok ps ∧
      ∀ p, p ∈ ps ↔ ∃ a names, Wanted s t d a names ∧ p = pathBelow d names :=
    fun d hd hdirectory =>
      ofArgument_directory hpatterns hsound hnamed hdirectory (hdirectories d hd hdirectory)
  -- Every argument gives its files, be it a directory or not.
  have hok : ∀ d ∈ arguments, (ofArgument s t d).isOk := by
    intro d hd
    by_cases hdirectory : t.isDirectory ⟨d⟩
    · obtain ⟨ps, hps, -⟩ := hmeant d hd hdirectory
      rw [hps]
      rfl
    · exact hothers d hd hdirectory
  obtain ⟨found, hfiles, hsorted, honly, hevery⟩ := files_of_isOk hok
  refine ⟨found, hfiles, fun d hd a names hwanted => ?_, fun p hp => ?_⟩
  · have hdirectory : t.isDirectory ⟨d⟩ := by
      rw [FileTree.isDirectory, FileTree.find?, hwanted.resolve]
      exact decide_eq_true hwanted.directory
    obtain ⟨ps, hps, hmem⟩ := hmeant d hd hdirectory
    obtain ⟨q, hq, hsame⟩ := hevery d hd ps hps _ ((hmem _).mpr ⟨a, names, hwanted, rfl⟩)
    exact ⟨hwanted.resolve_pathBelow hsound hnamed (hdirectories d hd hdirectory),
      countP_same hsorted hq hsame⟩
  · obtain ⟨d, hd, ps, hps, hp⟩ := honly p hp
    by_cases hdirectory : t.isDirectory ⟨d⟩
    · obtain ⟨ps', hps', hmem⟩ := hmeant d hd hdirectory
      obtain rfl : ps = ps' := Except.ok.inj (hps.symm.trans hps')
      obtain ⟨a, names, hwanted, rfl⟩ := (hmem p).mp hp
      exact .inl ⟨d, hd, a, names, hwanted, rfl⟩
    · exact .inr ⟨d, hd, hdirectory, ps, hps, hp⟩

/-- In the current directory `p`, the directory `./src/` has one file, which is found. -/
theorem files_complete_src :
    ∃ found, files .standard ⟨["p"], [(["p"], .directory), (["p", "src"], .directory),
        (["p", "src", "A.hs"], .file (.text ""))]⟩ ["./src/"] = .ok found ∧
      found.countP (·.same ⟨"src/A.hs"⟩) = 1 := by
  have hsound : FileTree.Sound ⟨["p"], [(["p"], .directory), (["p", "src"], .directory),
      (["p", "src", "A.hs"], .file (.text ""))]⟩ :=
    FileTree.sound_of_entries (by decide) (by decide)
  have hnamed : FileTree.Named ⟨["p"], [(["p"], .directory), (["p", "src"], .directory),
      (["p", "src", "A.hs"], .file (.text ""))]⟩ := by
    simp [FileTree.Named, FilePath.isName_iff]
  have hsearchable : Searchable "./src/" := ⟨by decide, by decide⟩
  obtain ⟨found, hfound, hall, -⟩ := files_complete (s := .standard)
    (by decide +kernel : Settings.standard.PatternsRead) hsound hnamed
    (by intro d hd _; rw [List.mem_singleton.mp hd]; exact hsearchable)
    (by intro d hd h; rw [List.mem_singleton.mp hd] at h; exact absurd (by decide) h)
  refine ⟨found, hfound, (hall "./src/" List.mem_cons_self ["p", "src"] ["A.hs"]
    ⟨by decide, by decide, ⟨.text "", by decide⟩, eq_ok_of_toOption (by decide +kernel)⟩).2⟩

/-- A bracket in the path of a directory is taken for a class, and in a directory whose path starts
with `.`, files are judged by their paths from the current directory: nothing is found, though both
directories have a file that the settings let through by its path in the directory. -/
theorem files_misses :
    let t : FileTree := ⟨[], [(["d[1]"], .directory), (["d[1]", "A.hs"], .file (.text "")),
      (["dist-newstyle"], .directory), (["dist-newstyle", "A.hs"], .file (.text ""))]⟩
    Settings.standard.PatternsRead ∧ Settings.standard.admits ⟨"A.hs"⟩ = .ok true ∧
      ∀ d ∈ [("d[1]", "d[1]"), ("./dist-newstyle", "dist-newstyle")],
        t.resolve ⟨d.1⟩ = .ok [d.2] ∧ t.get? [d.2] = some .directory ∧
        t.get? [d.2, "A.hs"] = some (.file (.text "")) ∧ files .standard t [d.1] = .ok [] := by
  refine ⟨by decide +kernel, eq_ok_of_toOption (by decide +kernel), fun d hd => ?_⟩
  rcases List.mem_pair.mp hd with rfl | rfl
  · exact ⟨rfl, rfl, rfl, eq_ok_of_toOption (by decide +kernel)⟩
  · exact ⟨rfl, rfl, rfl, eq_ok_of_toOption (by decide +kernel)⟩

end Collect

end Graft

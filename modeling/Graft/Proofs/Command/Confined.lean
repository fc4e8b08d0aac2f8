import Graft.Proofs.Command.Outputs
import Graft.Proofs.Files.Join

/-!
# Outputs stay in the output directory

A path that leads to a file ends with a name: behind `..` there is a directory, and so there is
behind `.` and behind a separator. What is left of such a path without the root, `.` and `..` is
joined to the output directory as one or more names, so that its outputs go nowhere else.
-/

namespace Graft

namespace FileTree

variable {t : FileTree} {p d : FilePath} {a : Address}

theorem exists_of_isFile (h : t.isFile p) :
    ∃ a content, t.resolve p = .ok a ∧ t.get? a = some (.file content) := by
  unfold isFile find? at h
  cases hresolve : t.resolve p with
  | error e => simp [hresolve] at h
  | ok a =>
    simp only [hresolve] at h
    split at h
    next content hfile => exact ⟨a, content, rfl, hfile⟩
    next => cases h

/-- The last segment of a path that leads to a file is a name. -/
theorem exists_name_of_isFile (hsound : t.Sound) (h : t.isFile p) :
    ∃ before last n, p.segments = before ++ [last] ∧ PathPart.ofSegment? last = some (.name n) := by
  obtain ⟨a, content, hresolve, hfile⟩ := exists_of_isFile h
  obtain ⟨before, last, hsegments⟩ : ∃ before last, p.segments = before ++ [last] :=
    ⟨_, _, (List.dropLast_concat_getLast (FilePath.splitSegments_ne_nil p.text.toList)).symm⟩
  have hwalk : t.walk (t.origin p) p.segments = .ok a := by
    unfold resolve at hresolve
    split at hresolve
    · cases hresolve
    · exact hresolve
  rw [hsegments, walk_append] at hwalk
  obtain ⟨b, -, hlast⟩ := except_bind_eq_ok hwalk
  rw [walk] at hlast
  split at hlast
  · cases hlast
  · cases hlast
  next hb =>
    -- Anything but a name leads to a directory from here.
    split at hlast
    next n hn => exact ⟨before, last, n, hsegments, hn⟩
    next =>
      obtain rfl : b.dropLast = a := Except.ok.inj hlast
      rw [hsound.dropLast hb] at hfile
      cases hfile
    next =>
      obtain rfl : b = a := Except.ok.inj hlast
      rw [hb] at hfile
      cases hfile

theorem fileName?_isSome_of_isFile (hsound : t.Sound) (h : t.isFile p) : p.fileName?.isSome := by
  obtain ⟨before, last, n, hsegments, hn⟩ := exists_name_of_isFile hsound h
  obtain ⟨a, -, hresolve, -⟩ := exists_of_isFile h
  have htext : p.text.isEmpty = false := by
    unfold resolve at hresolve
    split at hresolve
    · cases hresolve
    next hnot => simpa using hnot
  have hlast : p.parts.getLast? = some (.name n) := by
    rw [FilePath.parts_eq_partsOf htext, hsegments]
    cases before with
    | nil =>
      have hne : last ≠ [] := by
        rintro rfl
        cases hn
      have hhere : last ≠ ['.'] := by
        rintro rfl
        cases hn
      simp [FilePath.partsOf, FilePath.firstPart?, hne, hhere, hn]
    | cons s ss =>
      rw [FilePath.partsOf_append (List.cons_ne_nil s ss), List.filterMap_cons, hn]
      exact List.getLast?_concat
  rw [FilePath.fileName?, hlast]
  rfl

theorem place_eq_base (t : FileTree) (d : FilePath) : t.place d = t.base d.front := by
  by_cases htext : d.text.isEmpty
  · have hsegments : d.segments = [[]] := by
      rw [FilePath.segments, String.isEmpty_iff.mp htext]
      rfl
    have hrelative : d.isAbsolute = false := by
      rw [FilePath.isAbsolute, String.isEmpty_iff.mp htext]
      rfl
    rw [place, origin, hrelative, hsegments, FilePath.front, if_pos htext]
    rfl
  · rw [Bool.not_eq_true] at htext
    obtain ⟨hne, hsegments⟩ := FilePath.front_cases htext
    have hhead : d.segments.head? = d.front.head? := by
      rcases hsegments with hsegments | hsegments <;> rw [hsegments]
      exact List.head?_append_of_ne_nil _ hne
    have hreached : ∀ here, reached here d.segments = reached here d.front := by
      intro here
      rcases hsegments with hsegments | hsegments <;> rw [hsegments]
      rw [reached_concat, follow_of_isIdle rfl]
    rw [place, hreached, origin, FilePath.isAbsolute_eq htext, hhead, base]
    simp only [decide_eq_true_eq]

end FileTree

namespace FilePath

variable {d p q : FilePath} {names above : List String} {n m : String}
  {front : List (List Char)}

/-- A path leads down from a directory by ordinary names alone, to a place below that of the
directory in every tree. -/
structure LiesBelow (d : FilePath) (names : List String) (p : FilePath) : Prop where
  ne_nil : names ≠ []
  isName : ∀ n ∈ names, IsName n
  parts : p.parts = d.parts ++ names.map .name
  place : ∀ t : FileTree, t.place p = t.place d ++ names

theorem Below.liesBelow (h : p.Below d.front names) : d.LiesBelow names p := by
  refine ⟨h.ne_nil, h.names, ?_, fun t => ?_⟩
  · have hfront : partsOf d.front = d.parts := by
      by_cases htext : d.text.isEmpty
      · obtain rfl : d = ⟨""⟩ := congrArg FilePath.mk (String.isEmpty_iff.mp htext)
        rfl
      · exact partsOf_front (by simpa using htext)
    rw [h.parts_eq, hfront]
  · rw [FileTree.place_eq_base t d, FileTree.place, FileTree.origin_eq h, h.segments,
      FileTree.reached, List.foldl_append, ← FileTree.reached, ← FileTree.reached,
      FileTree.reached_names h.names]
    rfl

theorem trimBack_concat {x : List Char} (hx : isIdle x = false) (ss : List (List Char)) :
    trimBack (ss ++ [x]) = ss ++ [x] :=
  List.rdropWhile_concat_neg isIdle ss x (by simp [hx])

theorem parent?_of_single {x : List Char} (hp : p.segments = [x]) (hx : isIdle x = false) :
    p.parent? = some ⟨""⟩ := by
  have hne : x ≠ [] := by
    rintro rfl
    cases hx
  simp [parent?, hp, trimBack, hne]

theorem parent?_of_concat {s x : List Char} {ss : List (List Char)}
    (hp : p.segments = s :: (ss ++ [x])) (hx : isIdle x = false) :
    p.parent? = some (ofSegments p.isAbsolute (s :: trimBack ss)) := by
  rw [parent?, hp]
  simp only [trimBack_concat hx]
  cases ss with
  | nil => rfl
  | cons y ys =>
    show some (ofSegments p.isAbsolute (s :: trimBack (y :: ys ++ [x]).dropLast)) = _
    rw [List.dropLast_concat]

/-- The last name does not matter for what holds a path. -/
theorem Below.parent?_eq (hp : p.Below front (above ++ [n])) (hq : q.Below front (above ++ [m])) :
    p.parent? = q.parent? := by
  have hlast : ∀ {x : String} {r : FilePath}, r.Below front (above ++ [x]) →
      r.segments = (front ++ above.map String.toList) ++ [x.toList] ∧ isIdle x.toList = false := by
    intro x r hr
    refine ⟨?_, (hr.names x (List.mem_append_right _ List.mem_cons_self)).not_isIdle⟩
    rw [hr.segments, List.map_append, List.append_assoc]
    rfl
  obtain ⟨hpsegments, hn⟩ := hlast hp
  obtain ⟨hqsegments, hm⟩ := hlast hq
  have habsolute : p.isAbsolute = q.isAbsolute := hp.isAbsolute_eq.trans hq.isAbsolute_eq.symm
  cases hbefore : front ++ above.map String.toList with
  | nil =>
    rw [hbefore] at hpsegments hqsegments
    rw [parent?_of_single hpsegments hn, parent?_of_single hqsegments hm]
  | cons s ss =>
    rw [hbefore] at hpsegments hqsegments
    rw [parent?_of_concat hpsegments hn, parent?_of_concat hqsegments hm, habsolute]

end FilePath

/-- **Outputs stay in the output directory.** The new text of a file that is no foreign file goes
below the output directory, by the ordinary names of its path, of which there is at least one. The
foreign file goes to the same directory, under another name, and has the extension of foreign
files. -/
theorem outputs_confined (s : OutputSettings) {t : FileTree} {p : FilePath} (hsound : t.Sound)
    (hfile : t.isFile p) (hext : p.extension? ≠ some foreignExtension) :
    ∃ above n, p.names = above ++ [n] ∧
      s.directory.LiesBelow (above ++ [n]) (hostOutput s p) ∧
      s.directory.LiesBelow (above ++ [FilePath.extended foreignExtension n]) (foreignOutput s p) ∧
      (foreignOutput s p).parent? = (hostOutput s p).parent? ∧
      (foreignOutput s p).extension? = some foreignExtension ∧
      ¬ (foreignOutput s p).same (hostOutput s p) := by
  have hhost : p.IsHost := ⟨FileTree.fileName?_isSome_of_isFile hsound hfile, hext⟩
  obtain ⟨above, n, hn, hnames⟩ := hhost.exists_names
  have hbelow := hhost.hostOutput_below s
  have hforeign := hhost.foreignOutput_below s
  have hdiffer := hhost.names_ne_foreignNames hhost
  have hforeignNames : p.foreignNames = above ++ [FilePath.extended foreignExtension n] := by
    rw [FilePath.foreignNames, hn, hnames, List.dropLast_concat]
    rfl
  rw [hnames] at hbelow hdiffer
  rw [hforeignNames] at hforeign hdiffer
  have hname : FilePath.IsName n :=
    FilePath.isName_of_mem_names (by rw [hnames]; exact List.mem_append_right _ List.mem_cons_self)
  have hstem := FilePath.splitExtension_fst_ne_nil hname.ne_nil
  refine ⟨above, n, hnames, hbelow.liesBelow, hforeign.liesBelow, hforeign.parent?_eq hbelow,
    ?_, ?_⟩
  · rw [FilePath.extension?, hforeign.fileName?_eq, List.getLast?_concat]
    simp only [FilePath.extended, String.toList_ofList, Option.bind_some]
    rw [FilePath.splitExtension_append hstem (by decide)]
    simp
  · rw [hforeign.same_iff hbelow]
    exact hdiffer.symm

/-- The name of the file `../.notes.` starts and ends with a point. Its outputs are `.notes.` and
`.notes.rs`. -/
theorem outputs_confined_points :
    ∃ above n, FilePath.names ⟨"./../.notes."⟩ = above ++ [n] ∧
      hostOutput .standard ⟨"./../.notes."⟩ = ⟨"splicer-out/.notes."⟩ ∧
      foreignOutput .standard ⟨"./../.notes."⟩ = ⟨"splicer-out/.notes.rs"⟩ ∧
      FilePath.LiesBelow ⟨"splicer-out"⟩ (above ++ [n]) ⟨"splicer-out/.notes."⟩ := by
  have hsound : FileTree.Sound ⟨["p"], [(["p"], .directory), ([".notes."], .file (.text ""))]⟩ :=
    FileTree.sound_of_entries (by decide) (by decide)
  obtain ⟨above, n, hnames, hbelow, -⟩ := outputs_confined .standard hsound
    (p := ⟨"./../.notes."⟩) (by decide +kernel) (by decide +kernel)
  exact ⟨above, n, hnames, by decide +kernel, by decide +kernel, hbelow⟩

end Graft

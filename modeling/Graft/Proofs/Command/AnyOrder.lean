import Graft.Proofs.Files.Alike
import Graft.Proofs.Files.Order

/-!
# Files to expand, in whatever order they are found

The files to expand are a set. They are the same, and in the same order, in whatever order arguments
are given, however often each is, and in whatever order the searches for the patterns come upon what
matches; and whether any argument fails does not depend on these either.
-/

namespace Graft.Collect

open FilePath (Before)

variable {s : Settings} {t t' : FileTree} {x y z : Except RunError (List FilePath)}
  {pattern argument : String}

/-! ## Searches that find the same -/

/-- Both searches fail, or both find the same paths, in whatever order and however often. -/
structure SameFound (x y : Except RunError (List FilePath)) : Prop where
  isOk : x.isOk ↔ y.isOk
  mem : ∀ ps qs, x = .ok ps → y = .ok qs → ∀ p, p ∈ ps ↔ p ∈ qs

namespace SameFound

protected theorem refl (x : Except RunError (List FilePath)) : SameFound x x := by
  refine ⟨Iff.rfl, fun ps qs hps hqs p => ?_⟩
  rw [Except.ok.inj (hps.symm.trans hqs)]

protected theorem symm (h : SameFound x y) : SameFound y x :=
  ⟨h.isOk.symm, fun qs ps hqs hps p => (h.mem ps qs hps hqs p).symm⟩

protected theorem trans (h : SameFound x y) (h' : SameFound y z) : SameFound x z := by
  refine ⟨h.isOk.trans h'.isOk, fun ps rs hps hrs p => ?_⟩
  obtain ⟨qs, hqs⟩ := except_eq_ok_of_isOk (h.isOk.mp (by rw [hps]; rfl))
  exact (h.mem ps qs hps hqs p).trans (h'.mem qs rs hqs hrs p)

theorem of_mem {ps qs : List FilePath} (h : ∀ p, p ∈ ps ↔ p ∈ qs) :
    SameFound (.ok ps) (.ok qs) := by
  refine ⟨Iff.rfl, fun ps' qs' hps hqs => ?_⟩
  rw [← Except.ok.inj hps, ← Except.ok.inj hqs]
  exact h

theorem of_error (e e' : RunError) : SameFound (.error e) (.error e') :=
  ⟨Iff.rfl, fun _ _ hps => nomatch hps⟩

/-- Searches that find the same paths do so after a step that does not look at their order. -/
theorem bind (h : SameFound x y) {f g : List FilePath → Except RunError (List FilePath)}
    (hstep : ∀ ps qs, (∀ p, p ∈ ps ↔ p ∈ qs) → SameFound (f ps) (g qs)) :
    SameFound (x >>= f) (y >>= g) := by
  cases x with
  | error e =>
    cases y with
    | error e' => exact of_error e e'
    | ok qs => exact absurd (h.isOk.mpr rfl) Bool.false_ne_true
  | ok ps =>
    cases y with
    | error e => exact absurd (h.isOk.mp rfl) Bool.false_ne_true
    | ok qs => exact hstep ps qs (h.mem ps qs rfl rfl)

end SameFound

theorem filterM_sameFound {f : FilePath → Except RunError Bool} {ps qs : List FilePath}
    (h : ∀ p, p ∈ ps ↔ p ∈ qs) : SameFound (ps.filterM f) (qs.filterM f) := by
  refine ⟨?_, fun ps' qs' hps hqs p => ?_⟩
  · rw [filterM_isOk_iff, filterM_isOk_iff]
    simp only [h]
  · rw [mem_filterM hps, mem_filterM hqs, h]

theorem matching_alike (h : t.Alike t') (pattern : String) :
    SameFound (matching t pattern) (matching t' pattern) := by
  unfold matching
  cases FileSearch.ofText pattern with
  | error fault => exact .refl _
  | ok search => exact .of_mem fun p => FileSearch.mem_follow_alike h search.steps search.start

/-! ## Arguments -/

/-- What searching for a pattern gives. -/
abbrev PathSearch := String → Except RunError (List FilePath)

/-- A search finds all that matches in a tree and nothing else. It may find it in any order. -/
def PathSearch.Finds (search : PathSearch) (t : FileTree) : Prop :=
  ∀ pattern, SameFound (search pattern) (matching t pattern)

/-- The files that an argument stands for, if they are looked for with `search`. -/
def ofArgumentBy (search : PathSearch) (s : Settings) (t : FileTree) (argument : String) :
    Except RunError (List FilePath) := do
  let p : FilePath := ⟨argument⟩
  if t.isFile p then return [p]
  else if t.isDirectory p then
    (← search (patternBelow argument)).filterM (isAdmitted s t p)
  else if argument.toList.any fun c => c = '*' || c = '?' || c = '[' then
    return (← search argument).filter t.isFile
  else throw (.pathNotFound p)

theorem ofArgument_eq (s : Settings) (t : FileTree) (argument : String) :
    ofArgument s t argument = ofArgumentBy (matching t) s t argument := rfl

/-- The files that arguments stand for, where each is looked for with a search of its own. -/
def filesBy (s : Settings) (t : FileTree) (asked : List (String × PathSearch)) :
    Except RunError (List FilePath) :=
  gather (fun ask => ofArgumentBy ask.2 s t ask.1) asked

/-- The tree's own search is one of them. -/
theorem files_eq_filesBy (s : Settings) (t : FileTree) (arguments : List String) :
    files s t arguments = filesBy s t (arguments.map fun d => (d, matching t)) := by
  rw [files_eq_gather, filesBy, gather, gather, List.mapM_map]
  rfl

/-- An argument stands for the same files however they are found. -/
theorem ofArgumentBy_sameFound {search : PathSearch} (htrees : t.Alike t')
    (hsearch : search.Finds t') (argument : String) :
    SameFound (ofArgumentBy search s t' argument) (ofArgument s t argument) := by
  have hfound : ∀ pattern, SameFound (search pattern) (matching t pattern) := fun pattern =>
    (hsearch pattern).trans (matching_alike htrees.symm pattern)
  have hadmitted : isAdmitted s t' ⟨argument⟩ = isAdmitted s t ⟨argument⟩ := by
    funext p
    rw [isAdmitted, isAdmitted, htrees.isFile]
  have hfiles : t'.isFile = t.isFile := funext fun p => (htrees.isFile p).symm
  rw [ofArgument_eq, ofArgumentBy, ofArgumentBy, htrees.isDirectory, hadmitted, hfiles]
  split
  · exact .refl _
  · split
    · exact (hfound _).bind fun ps qs h => filterM_sameFound h
    · split
      · refine (hfound _).bind fun ps qs h => .of_mem fun p => ?_
        rw [List.mem_filter, List.mem_filter, h]
      · exact .refl _

/-! ## All arguments -/

section Gather

variable {α β : Type} {find : α → Except RunError (List FilePath)}
  {find' : β → Except RunError (List FilePath)} {xs : List α} {ys : List β}
  {found found' : List FilePath} {p : FilePath}
  (hcovered : ∀ x ∈ xs, ∃ y ∈ ys, SameFound (find x) (find' y))

include hcovered

theorem gather_isOk_of_covered (h : (gather find' ys).isOk) : (gather find xs).isOk := by
  refine gather_isOk_iff.mpr fun x hx => ?_
  obtain ⟨y, hy, hsame⟩ := hcovered x hx
  exact hsame.isOk.mpr (gather_isOk_iff.mp h y hy)

theorem exists_same_of_covered (h : Gathered find xs found) (h' : Gathered find' ys found')
    (hp : ∃ q ∈ found, q.same p) : ∃ q ∈ found', q.same p := by
  obtain ⟨x, hx, ps, hps, q, hq, hqp⟩ := h.exists_same_iff.mp hp
  obtain ⟨y, hy, hsame⟩ := hcovered x hx
  obtain ⟨qs, hqs⟩ := except_eq_ok_of_isOk (hsame.isOk.mp (by rw [hps]; rfl))
  exact h'.exists_same_iff.mpr ⟨y, hy, qs, hqs, q, (hsame.mem ps qs hps hqs q).mp hq, hqp⟩

end Gather

/-- **The files to expand are a set.** Whatever the order in which a tree lists its entries, in
which searches come upon what matches and in which arguments are given, however often: either an
argument fails in each case, or the same paths are found in the same order, each before all behind
it. They are all that the arguments stand for. Paths are the same here if their parts are; and
`filesBy` is `files` where all is looked for with the search of the tree (`files_eq_filesBy`). -/
theorem files_any_order {arguments : List String} {asked : List (String × PathSearch)}
    (htrees : t.Alike t') (hasked : ∀ ask ∈ asked, ask.2.Finds t')
    (hsame : ∀ d, d ∈ arguments ↔ ∃ ask ∈ asked, ask.1 = d) :
    ((filesBy s t' asked).isOk ↔ (files s t arguments).isOk) ∧
    ∀ found found', files s t arguments = .ok found → filesBy s t' asked = .ok found' →
      found.Pairwise Before ∧ found'.Pairwise Before ∧
      found'.map FilePath.parts = found.map FilePath.parts ∧
      ∀ p, (∃ q ∈ found, q.same p) ↔
        ∃ d ∈ arguments, ∃ ps, ofArgument s t d = .ok ps ∧ ∃ q ∈ ps, q.same p := by
  have hask : ∀ ask ∈ asked,
      SameFound (ofArgumentBy ask.2 s t' ask.1) (ofArgument s t ask.1) := fun ask hask =>
    ofArgumentBy_sameFound htrees (hasked ask hask) ask.1
  have hthere : ∀ d ∈ arguments, ∃ ask ∈ asked,
      SameFound (ofArgument s t d) (ofArgumentBy ask.2 s t' ask.1) := by
    intro d hd
    obtain ⟨ask, hmem, rfl⟩ := (hsame d).mp hd
    exact ⟨ask, hmem, (hask ask hmem).symm⟩
  have hback : ∀ ask ∈ asked, ∃ d ∈ arguments,
      SameFound (ofArgumentBy ask.2 s t' ask.1) (ofArgument s t d) := fun ask hmem =>
    ⟨ask.1, (hsame _).mpr ⟨ask, hmem, rfl⟩, hask ask hmem⟩
  -- What is found in one run is found in the other, so the lemmas on one direction serve twice.
  refine ⟨⟨gather_isOk_of_covered hthere, gather_isOk_of_covered hback⟩,
    fun found found' hfound hfound' => ?_⟩
  have hgathered : Gathered (ofArgument s t) arguments found := gathered_of_gather hfound
  have hgathered' := gathered_of_gather hfound'
  have hparts : found'.map FilePath.parts = found.map FilePath.parts :=
    map_parts_eq hgathered'.sorted hgathered.sorted fun p =>
      ⟨exists_same_of_covered hback hgathered' hgathered,
        exists_same_of_covered hthere hgathered hgathered'⟩
  exact ⟨hgathered.sorted, hgathered'.sorted, hparts, fun p => hgathered.exists_same_iff⟩

/-- A directory of two files, and one of these itself: once the directory comes first, once last,
in a tree that lists its entries the other way round and with a search that finds the second file
first. -/
theorem files_any_order_src :
    let entries : List (Address × FileEntry) := [(["p"], .directory), (["p", "src"], .directory),
      (["p", "src", "A.hs"], .file (.text "")), (["p", "src", "B.hs"], .file (.text ""))]
    let search : PathSearch := fun pattern =>
      (matching ⟨["p"], entries.reverse⟩ pattern).map List.reverse
    let asked := [("src/A.hs", search), ("src/A.hs", search), ("src", search)]
    ∃ found found', files .standard ⟨["p"], entries⟩ ["src", "src/A.hs"] = .ok found ∧
      filesBy .standard ⟨["p"], entries.reverse⟩ asked = .ok found' ∧
      found'.map FilePath.parts = found.map FilePath.parts ∧
      ∃ q ∈ found, q.same ⟨"src/B.hs"⟩ := by
  intro entries search asked
  have hsearch : search.Finds ⟨["p"], entries.reverse⟩ := by
    intro pattern
    simp only [search]
    cases matching ⟨["p"], entries.reverse⟩ pattern with
    | error e => exact .refl _
    | ok ps => exact .of_mem fun p => List.mem_reverse
  have hok : (files .standard ⟨["p"], entries⟩ ["src", "src/A.hs"]).isOk :=
    gather_isOk_iff.mpr (by decide +kernel)
  have halike : FileTree.Alike ⟨["p"], entries⟩ ⟨["p"], entries.reverse⟩ :=
    FileTree.alike_of_perm ["p"] (List.reverse_perm entries).symm (by decide)
  have hasked : ∀ ask ∈ asked, ask.2.Finds ⟨["p"], entries.reverse⟩ := by
    simpa [asked] using hsearch
  have hlisted : ∀ d, d ∈ ["src", "src/A.hs"] ↔ ∃ ask ∈ asked, ask.1 = d := by
    simp [asked, or_comm, eq_comm]
  obtain ⟨hisOk, hsame⟩ := files_any_order (s := .standard) halike hasked hlisted
  obtain ⟨found, hfound⟩ := except_eq_ok_of_isOk hok
  obtain ⟨found', hfound'⟩ := except_eq_ok_of_isOk (hisOk.mpr hok)
  obtain ⟨-, -, hparts, hall⟩ := hsame found found' hfound hfound'
  refine ⟨found, found', hfound, hfound', hparts, (hall _).mpr ⟨"src", List.mem_cons_self,
    [⟨"src/A.hs"⟩, ⟨"src/B.hs"⟩], eq_ok_of_toOption (by decide +kernel), ⟨"src/B.hs"⟩, ?_⟩⟩
  decide

end Graft.Collect

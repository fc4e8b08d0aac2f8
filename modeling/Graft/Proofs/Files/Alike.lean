import Graft.Proofs.Files.Search

/-!
# Trees that hold the same

In which order a tree lists its entries decides in which order a search comes upon them, and nothing
else: paths lead to the same places, and the same paths match a pattern.
-/

namespace Graft

namespace FileTree

/-- Two trees hold the same, in whatever order they list it. -/
structure Alike (t t' : FileTree) : Prop where
  current : t.current = t'.current
  get? : ∀ a, t.get? a = t'.get? a

variable {t t' : FileTree} {a : Address}

theorem lookup_of_perm {es es' : List (Address × FileEntry)} (hperm : es.Perm es')
    (hkeys : (es.map (·.1)).Nodup) (a : Address) : es.lookup a = es'.lookup a := by
  induction hperm with
  | nil => rfl
  | cons e hperm ih =>
    rw [lookup_entry, lookup_entry, ih (List.nodup_cons.mp hkeys).2]
  | swap e e' es =>
    obtain ⟨k, x⟩ := e
    obtain ⟨k', x'⟩ := e'
    have hne : k' ≠ k := fun hsame => (List.nodup_cons.mp hkeys).1 (by simp [hsame])
    -- The two entries have different addresses, so at most one of them is looked up.
    simp only [lookup_entry]
    by_cases ha : a = k
    · rw [if_neg fun ha' => hne (ha'.symm.trans ha), if_pos ha, if_pos ha]
    · rw [if_neg ha, if_neg ha]
  | trans hperm _ ih ih' =>
    exact (ih hkeys).trans (ih' ((hperm.map (·.1)).nodup_iff.mp hkeys))

/-- Trees that list the same entries in different orders are alike, if none is listed twice. -/
theorem alike_of_perm (here : Address) {es es' : List (Address × FileEntry)}
    (hperm : es.Perm es') (hkeys : (es.map (·.1)).Nodup) : Alike ⟨here, es⟩ ⟨here, es'⟩ := by
  refine ⟨rfl, fun a => ?_⟩
  cases a with
  | nil => rfl
  | cons n ns => exact lookup_of_perm hperm hkeys (n :: ns)

namespace Alike

variable (h : t.Alike t')

include h

protected theorem symm : t'.Alike t := ⟨h.current.symm, fun a => (h.get? a).symm⟩

theorem walk (here : Address) (ss : List (List Char)) : t.walk here ss = t'.walk here ss := by
  induction ss generalizing here with
  | nil => rfl
  | cons s ss ih => simp only [FileTree.walk, h.get?, ih]

theorem resolve (p : FilePath) : t.resolve p = t'.resolve p := by
  simp only [FileTree.resolve, FileTree.origin, h.current, h.walk]

theorem find? (p : FilePath) : t.find? p = t'.find? p := by
  simp only [FileTree.find?, h.resolve, h.get?]

theorem isFile (p : FilePath) : t.isFile p = t'.isFile p := by
  simp only [FileTree.isFile, h.find?]

theorem isDirectory (p : FilePath) : t.isDirectory p = t'.isDirectory p := by
  simp only [FileTree.isDirectory, h.find?]

theorem contains (p : FilePath) : t.contains p = t'.contains p := by
  simp only [FileTree.contains, h.find?]

theorem mem_below (names : List String) : names ∈ t.below a ↔ names ∈ t'.below a := by
  rw [mem_below_iff, mem_below_iff, h.get?]

theorem mem_childNames (n : String) : n ∈ t.childNames a ↔ n ∈ t'.childNames a := by
  simp only [childNames, List.mem_filterMap, h.mem_below]

end Alike

end FileTree

namespace FileSearch

variable {t t' : FileTree} {p q : FilePath}

section Alike

variable (h : t.Alike t')

include h

theorem follows_alike (p : FilePath) (name : List Char) :
    follows t p name = follows t' p name := by
  simp only [follows, h.isDirectory, h.contains]

theorem dotPaths_alike (p : FilePath) (pattern : PathPattern) :
    dotPaths t p pattern = dotPaths t' p pattern := by
  simp only [dotPaths, h.isDirectory]

theorem mem_childPaths_alike : q ∈ childPaths t p ↔ q ∈ childPaths t' p := by
  unfold childPaths
  rw [h.resolve]
  cases t'.resolve p with
  | error e => rfl
  | ok a => simp only [List.mem_map, h.mem_childNames]

theorem mem_pathsBelow_alike : q ∈ pathsBelow t p ↔ q ∈ pathsBelow t' p := by
  unfold pathsBelow
  rw [h.resolve]
  cases t'.resolve p with
  | error e => rfl
  | ok a => simp only [List.mem_map, h.mem_below]

/-- The search goes through the same paths, so it ends at the same ones. -/
theorem mem_follow_alike {directories : Bool} : ∀ (steps : List SearchStep) (p : FilePath),
    q ∈ follow t directories steps p ↔ q ∈ follow t' directories steps p
  -- The cases are those of the search, which takes two steps at once behind an `anywhere`.
  | [], p => by rw [follow, follow, h.isDirectory]
  | .literal name :: steps, p => by
    rw [follow, follow, follows_alike h]
    split
    · exact mem_follow_alike steps _
    · rfl
  | .wild pattern :: steps, p => by
    simp only [follow, List.mem_flatMap, List.mem_append, List.mem_filter,
      mem_childPaths_alike h, dotPaths_alike h, mem_follow_alike steps]
  | [.anywhere], p => by
    simp only [follow, List.mem_filter, mem_pathsBelow_alike h, h.isDirectory]
  | .anywhere :: step :: steps, p => by
    simp only [follow, List.mem_flatMap, List.mem_filter, mem_pathsBelow_alike h,
      mem_follow_alike steps]

end Alike

end FileSearch

end Graft

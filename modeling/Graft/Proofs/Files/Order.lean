import Graft.Command.Collect
import Graft.Proofs.Result

/-!
# The order of paths

Paths are sorted by their parts, one after the other. Two paths that are sorted no later than each
other have the same parts, so that dropping repeated ones leaves a sequence in which every path
comes before all behind it.
-/

namespace Graft

namespace PathPart

variable {a b c : PathPart}

theorem isBefore_name {m n : String} : (name m).isBefore (name n) ↔ m < n := decide_eq_true_iff

theorem isBefore_irrefl (a : PathPart) : ¬ a.isBefore a := by
  cases a with
  | name m => exact mt isBefore_name.mp (String.lt_irrefl m)
  | root | here | parent => decide

theorem isBefore_trans (hab : a.isBefore b) (hbc : b.isBefore c) : a.isBefore c := by
  cases a <;> cases b <;> cases c
  case name.name.name =>
    exact isBefore_name.mpr (String.lt_trans (isBefore_name.mp hab) (isBefore_name.mp hbc))
  all_goals
    first
    | rfl
    | exact absurd hab Bool.false_ne_true
    | exact absurd hbc Bool.false_ne_true

theorem isBefore_or (hne : a ≠ b) : a.isBefore b ∨ b.isBefore a := by
  cases a <;> cases b
  case name.name m n =>
    rcases String.le_total m n with hle | hle
    · refine .inl (isBefore_name.mpr (String.not_le.mp fun hge => hne ?_))
      rw [String.le_antisymm hle hge]
    · refine .inr (isBefore_name.mpr (String.not_le.mp fun hge => hne ?_))
      rw [String.le_antisymm hge hle]
  all_goals first | exact absurd rfl hne | exact .inl rfl | exact .inr rfl

end PathPart

namespace FilePath

theorem partsLe_total (as bs : List PathPart) : partsLe as bs ∨ partsLe bs as := by
  induction as generalizing bs with
  | nil => exact .inl rfl
  | cons a as ih =>
    cases bs with
    | nil => exact .inr rfl
    | cons b bs =>
      by_cases hab : a = b
      · rw [partsLe, partsLe, if_pos hab, if_pos hab.symm]
        exact ih bs
      · rw [partsLe, partsLe, if_neg hab, if_neg (Ne.symm hab)]
        exact PathPart.isBefore_or hab

theorem partsLe_trans {as bs cs : List PathPart} (hab : partsLe as bs) (hbc : partsLe bs cs) :
    partsLe as cs := by
  induction as generalizing bs cs with
  | nil => rfl
  | cons a as ih =>
    cases bs with
    | nil => cases hab
    | cons b bs =>
      cases cs with
      | nil => cases hbc
      | cons c cs =>
        rw [partsLe] at hab hbc ⊢
        split at hab
        next hsame =>
          obtain rfl := hsame
          split at hbc
          next hsame =>
            rw [if_pos hsame]
            exact ih hab hbc
          next hne => rwa [if_neg hne]
        next hne =>
          split at hbc
          next hsame =>
            rw [← hsame, if_neg hne]
            exact hab
          next hne' =>
            have hac : a.isBefore c := PathPart.isBefore_trans hab hbc
            rw [if_neg, hac]
            rintro rfl
            exact PathPart.isBefore_irrefl b (PathPart.isBefore_trans hbc hab)

theorem partsLe_antisymm {as bs : List PathPart} (hab : partsLe as bs) (hba : partsLe bs as) :
    as = bs := by
  induction as generalizing bs with
  | nil =>
    cases bs with
    | nil => rfl
    | cons b bs => cases hba
  | cons a as ih =>
    cases bs with
    | nil => cases hab
    | cons b bs =>
      rw [partsLe] at hab hba
      by_cases heq : a = b
      · rw [if_pos heq] at hab
        rw [if_pos heq.symm] at hba
        rw [heq, ih hab hba]
      · rw [if_neg heq] at hab
        rw [if_neg (Ne.symm heq)] at hba
        exact absurd (PathPart.isBefore_trans hab hba) (PathPart.isBefore_irrefl a)

/-- A path is sorted before another one, of other parts. -/
def Before (p q : FilePath) : Prop := p.le q ∧ ¬ p.same q

end FilePath

namespace Collect

open FilePath

variable {p q : FilePath} {ps : List FilePath}

theorem dropRepeated_subset (ps : List FilePath) : ∀ p ∈ dropRepeated ps, p ∈ ps := by
  induction ps with
  | nil => exact fun p hp => hp
  | cons p ps ih =>
    intro q hq
    rw [dropRepeated] at hq
    split at hq
    next => exact List.mem_cons.mpr (.inl (List.mem_singleton.mp hq))
    next r rs hrest =>
      rw [hrest] at ih
      split at hq
      · rcases List.mem_cons.mp hq with rfl | hq
        · exact List.mem_cons_self
        · exact List.mem_cons_of_mem p (ih q (List.mem_cons_of_mem r hq))
      · rcases List.mem_cons.mp hq with rfl | hq
        · exact List.mem_cons_self
        · exact List.mem_cons_of_mem p (ih q hq)

/-- Of paths that are dropped one with the same parts stays. -/
theorem exists_same_dropRepeated (hp : p ∈ ps) : ∃ q ∈ dropRepeated ps, q.same p := by
  induction ps with
  | nil => cases hp
  | cons r ps ih =>
    have hself : ∀ q : FilePath, q.same q := fun q => by simp [same]
    rw [dropRepeated]
    rcases List.mem_cons.mp hp with rfl | hp
    · split
      · exact ⟨p, List.mem_singleton.mpr rfl, hself p⟩
      · split
        · exact ⟨p, List.mem_cons_self, hself p⟩
        · exact ⟨p, List.mem_cons_self, hself p⟩
    · obtain ⟨q, hq, hsame⟩ := ih hp
      split
      next hnone =>
        rw [hnone] at hq
        cases hq
      next s ss hrest =>
        rw [hrest] at hq
        split
        next hrs =>
          rcases List.mem_cons.mp hq with rfl | hq
          · refine ⟨r, List.mem_cons_self, ?_⟩
            simp only [same, decide_eq_true_eq] at hrs hsame ⊢
            exact hrs.trans hsame
          · exact ⟨q, List.mem_cons_of_mem r hq, hsame⟩
        · exact ⟨q, List.mem_cons_of_mem r hq, hsame⟩

/-- Among sorted paths, each that stays comes before all behind it. -/
theorem dropRepeated_pairwise (h : ps.Pairwise fun p q => p.le q) :
    (dropRepeated ps).Pairwise Before := by
  induction ps with
  | nil => exact .nil
  | cons p ps ih =>
    obtain ⟨hfirst, hrest⟩ := List.pairwise_cons.mp h
    have ih := ih hrest
    have hle : ∀ q ∈ dropRepeated ps, p.le q := fun q hq => hfirst q (dropRepeated_subset ps q hq)
    rw [dropRepeated]
    split
    next => exact List.pairwise_singleton _ _
    next q qs hqs =>
      rw [hqs] at ih hle
      obtain ⟨hq, hlater⟩ := List.pairwise_cons.mp ih
      split
      next hsame =>
        refine List.pairwise_cons.mpr ⟨fun r hr => ⟨hle r (List.mem_cons_of_mem q hr), ?_⟩, hlater⟩
        simp only [same, decide_eq_true_eq] at hsame ⊢
        have hqr := (hq r hr).2
        simp only [same, decide_eq_true_eq] at hqr
        rwa [hsame]
      next hne =>
        refine List.pairwise_cons.mpr ⟨fun r hr => ⟨hle r hr, ?_⟩, ih⟩
        rcases List.mem_cons.mp hr with rfl | hr
        · exact hne
        · -- What is behind `q` has other parts than `q`, so `p`, which comes before `q`, has too.
          intro hsame
          simp only [same, decide_eq_true_eq] at hsame hne
          have hqr := (hq r hr).1
          have hpq : p.le q := hle q List.mem_cons_self
          simp only [le] at hqr hpq
          rw [← hsame] at hqr
          exact hne (partsLe_antisymm hpq hqr)

theorem sorted_mergeSort (ps : List FilePath) :
    (ps.mergeSort FilePath.le).Pairwise fun p q => p.le q := by
  refine @List.pairwise_mergeSort _ FilePath.le (fun p q r => partsLe_trans) (fun p q => ?_) ps
  rw [Bool.or_eq_true]
  exact partsLe_total p.parts q.parts

/-- Sorted lists that hold paths of the same parts hold them in the same order. -/
theorem map_parts_eq {qs : List FilePath} (hps : ps.Pairwise Before) (hqs : qs.Pairwise Before)
    (h : ∀ p, (∃ r ∈ ps, r.same p) ↔ ∃ r ∈ qs, r.same p) : ps.map parts = qs.map parts := by
  simp only [same, decide_eq_true_eq] at h
  have hnodup : ∀ {rs : List FilePath}, rs.Pairwise Before → (rs.map parts).Nodup := fun hrs =>
    List.pairwise_map.mpr (hrs.imp fun hbefore => by simpa [same] using hbefore.2)
  have hordered : ∀ {rs : List FilePath}, rs.Pairwise Before →
      (rs.map parts).Pairwise fun as bs => partsLe as bs := fun hrs =>
    List.pairwise_map.mpr (hrs.imp fun hbefore => hbefore.1)
  have hsubset : ∀ {rs rs' : List FilePath},
      (∀ p : FilePath, (∃ r ∈ rs, r.parts = p.parts) → ∃ r ∈ rs', r.parts = p.parts) →
      ∀ as ∈ rs.map parts, as ∈ rs'.map parts := by
    intro rs rs' hrs as has
    obtain ⟨r, hr, rfl⟩ := List.mem_map.mp has
    exact List.mem_map.mpr (hrs r ⟨r, hr, rfl⟩)
  -- No parts stand twice in a list, so the same members make the lists rearrangements of each
  -- other, of which only one is in order.
  have hperm : (ps.map parts).Perm (qs.map parts) :=
    (List.perm_ext_iff_of_nodup (hnodup hps) (hnodup hqs)).mpr fun as =>
      ⟨hsubset (fun p => (h p).mp) as, hsubset (fun p => (h p).mpr) as⟩
  exact hperm.eq_of_pairwise (fun as bs _ _ => partsLe_antisymm) (hordered hps) (hordered hqs)

/-! ## Putting together what is found -/

/-- All that is found for some things, sorted, each path once. -/
def gather {α : Type} (find : α → Except RunError (List FilePath)) (xs : List α) :
    Except RunError (List FilePath) := do
  let found ← xs.mapM find
  return dropRepeated (found.flatten.mergeSort FilePath.le)

theorem files_eq_gather (s : Settings) (t : FileTree) (arguments : List String) :
    files s t arguments = gather (ofArgument s t) arguments := rfl

/-- The paths `found` are those found for some things, in order. -/
structure Gathered {α : Type} (find : α → Except RunError (List FilePath)) (xs : List α)
    (found : List FilePath) : Prop where
  sorted : found.Pairwise Before
  only : ∀ p ∈ found, ∃ x ∈ xs, ∃ ps, find x = .ok ps ∧ p ∈ ps
  every : ∀ x ∈ xs, ∀ ps, find x = .ok ps → ∀ p ∈ ps, ∃ q ∈ found, q.same p

section Gather

variable {α : Type} {find : α → Except RunError (List FilePath)} {xs : List α}
  {found : List FilePath}

/-- What is found is put together unless one of the searches fails. -/
theorem gather_isOk_iff : (gather find xs).isOk ↔ ∀ x ∈ xs, (find x).isOk := by
  rw [← mapM_isOk_iff, gather]
  cases xs.mapM find <;> rfl

theorem gathered_of_gather (h : gather find xs = .ok found) : Gathered find xs found := by
  obtain ⟨pss, hpss, h⟩ := except_bind_eq_ok h
  obtain rfl : dropRepeated (pss.flatten.mergeSort FilePath.le) = found := Except.ok.inj h
  refine ⟨dropRepeated_pairwise (sorted_mergeSort _), fun p hp => ?_, fun x hx ps hps p hp => ?_⟩
  · have hp := List.mem_mergeSort.mp (dropRepeated_subset _ p hp)
    obtain ⟨ps, hps, hp⟩ := List.mem_flatten.mp hp
    obtain ⟨x, hx, hfound⟩ := exists_of_mem_mapM hpss hps
    exact ⟨x, hx, ps, hfound, hp⟩
  · obtain ⟨ps', hps', hfound⟩ := mem_of_mapM hpss hx
    obtain rfl : ps = ps' := Except.ok.inj (hps.symm.trans hfound)
    exact exists_same_dropRepeated
      (List.mem_mergeSort.mpr (List.mem_flatten.mpr ⟨ps, hps', hp⟩))

/-- A path is among those put together, in some spelling, if it is found for one of the things. -/
theorem Gathered.exists_same_iff (h : Gathered find xs found) :
    (∃ q ∈ found, q.same p) ↔ ∃ x ∈ xs, ∃ ps, find x = .ok ps ∧ ∃ q ∈ ps, q.same p := by
  constructor
  · rintro ⟨q, hq, hsame⟩
    obtain ⟨x, hx, ps, hps, hq⟩ := h.only q hq
    exact ⟨x, hx, ps, hps, q, hq, hsame⟩
  · rintro ⟨x, hx, ps, hps, q, hq, hsame⟩
    obtain ⟨r, hr, hrq⟩ := h.every x hx ps hps q hq
    simp only [same, decide_eq_true_eq] at hrq hsame ⊢
    exact ⟨r, hr, hrq.trans hsame⟩

end Gather

/-- The files that paths of files stand for. -/
theorem files_eq (s : Settings) {t : FileTree} {arguments : List String}
    (h : ∀ argument ∈ arguments, t.isFile ⟨argument⟩) :
    files s t arguments =
      .ok (dropRepeated ((arguments.map FilePath.mk).mergeSort FilePath.le)) := by
  have hfound : arguments.mapM (ofArgument s t) = .ok (arguments.map fun p => [FilePath.mk p]) := by
    refine mapM_eq_ok_iff.mpr (List.forall₂_map_right_iff.mpr (List.forall₂_same.mpr ?_))
    intro argument hargument
    rw [ofArgument, if_pos (h argument hargument)]
    rfl
  have hflatten : (arguments.map fun p => [FilePath.mk p]).flatten = arguments.map FilePath.mk := by
    rw [← List.flatMap_def, List.map_eq_flatMap]
  unfold files
  rw [hfound]
  exact congrArg (fun ps => Except.ok (dropRepeated (ps.mergeSort FilePath.le))) hflatten

end Collect

end Graft

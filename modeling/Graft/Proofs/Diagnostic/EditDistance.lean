import Mathlib.Order.Bounds.Basic
import Graft.Diagnostic.EditDistance

/-!
# The distance counts edits

A single edit inserts, deletes or replaces one character anywhere in a text. The distance of two
texts is the least number of edits that lead from one to the other, and so it is a metric.

The table is filled along the beginnings of both texts, while edits are most easily counted from
the front. As an edit of a text is one of the reversed text too, the cells are counted for reversed
beginnings (`least`).
-/

namespace Graft.EditDistance

variable {as bs cs : List Char} {m n : Nat}

/-! ## Edits -/

/-- The second text is the first with one character inserted, deleted or replaced. -/
inductive Edit : List Char → List Char → Prop where
  | insert (before : List Char) (c : Char) (after : List Char) :
    Edit (before ++ after) (before ++ c :: after)
  | delete (before : List Char) (c : Char) (after : List Char) :
    Edit (before ++ c :: after) (before ++ after)
  | replace (before : List Char) (c d : Char) (after : List Char) :
    Edit (before ++ c :: after) (before ++ d :: after)

/-- So many edits, one after the other, lead from the first text to the second. -/
inductive Edits : Nat → List Char → List Char → Prop where
  | none (as : List Char) : Edits 0 as as
  | more {n : Nat} {as bs cs : List Char} : Edit as bs → Edits n bs cs → Edits (n + 1) as cs

theorem Edit.symm (h : Edit as bs) : Edit bs as := by
  cases h with
  | insert before c after => exact .delete before c after
  | delete before c after => exact .insert before c after
  | replace before c d after => exact .replace before d c after

theorem Edit.cons (c : Char) (h : Edit as bs) : Edit (c :: as) (c :: bs) := by
  cases h with
  | insert before d after => exact .insert (c :: before) d after
  | delete before d after => exact .delete (c :: before) d after
  | replace before d e after => exact .replace (c :: before) d e after

/-- An edit of a text is an edit of the reversed text. -/
theorem Edit.reverse (h : Edit as bs) : Edit as.reverse bs.reverse := by
  cases h with
  | insert before c after => simpa using Edit.insert after.reverse c before.reverse
  | delete before c after => simpa using Edit.delete after.reverse c before.reverse
  | replace before c d after => simpa using Edit.replace after.reverse c d before.reverse

namespace Edits

theorem append (h : Edits m as bs) (h' : Edits n bs cs) : Edits (m + n) as cs := by
  induction h with
  | none => rwa [Nat.zero_add]
  | more hedit _ ih =>
    rw [Nat.add_right_comm]
    exact .more hedit (ih h')

theorem symm (h : Edits n as bs) : Edits n bs as := by
  induction h with
  | none => exact .none _
  | more hedit _ ih => exact ih.append (.more hedit.symm (.none _))

theorem cons (c : Char) (h : Edits n as bs) : Edits n (c :: as) (c :: bs) := by
  induction h with
  | none => exact .none _
  | more hedit _ ih => exact .more (hedit.cons c) ih

theorem reverse (h : Edits n as bs) : Edits n as.reverse bs.reverse := by
  induction h with
  | none => exact .none _
  | more hedit _ ih => exact .more hedit.reverse ih

theorem reverse_iff : Edits n as.reverse bs.reverse ↔ Edits n as bs :=
  ⟨fun h => by simpa using h.reverse, Edits.reverse⟩

theorem eq_of_zero (h : Edits 0 as bs) : as = bs := by
  cases h
  rfl

theorem length_nil (bs : List Char) : Edits bs.length [] bs := by
  induction bs with
  | nil => exact .none []
  | cons b bs ih => exact .more (.insert [] b []) (ih.cons b)

theorem min (h : Edits m as bs) (h' : Edits n as bs) : Edits (min m n) as bs := by
  rcases Nat.le_total m n with hle | hle
  · rwa [Nat.min_eq_left hle]
  · rwa [Nat.min_eq_right hle]

end Edits

/-! ## The least number of edits -/

/-- The least number of edits between two texts, from the front: one of the first characters goes
away, or both do, for one edit unless they are equal. -/
def least : List Char → List Char → Nat
  | [], bs => bs.length
  | as, [] => as.length
  | a :: as, b :: bs =>
    min (min (least as (b :: bs) + 1) (least (a :: as) bs + 1))
      (least as bs + if a = b then 0 else 1)

@[simp] theorem least_nil_left (bs : List Char) : least [] bs = bs.length := by
  rw [least]

@[simp] theorem least_nil_right (as : List Char) : least as [] = as.length := by
  cases as <;> simp [least]

theorem least_cons_cons (a b : Char) (as bs : List Char) : least (a :: as) (b :: bs) =
    min (min (least as (b :: bs) + 1) (least (a :: as) bs + 1))
      (least as bs + if a = b then 0 else 1) := by
  rw [least]

/-- That many edits are enough. -/
theorem edits_least (as bs : List Char) : Edits (least as bs) as bs := by
  induction as, bs using least.induct with
  | case1 bs =>
    rw [least_nil_left]
    exact .length_nil bs
  | case2 as _ =>
    rw [least_nil_right]
    exact (Edits.length_nil as).symm
  | case3 a as b bs ihdelete ihinsert ihboth =>
    have hdelete : Edits (least as (b :: bs) + 1) (a :: as) (b :: bs) :=
      .more (.delete [] a as) ihdelete
    have hinsert : Edits (least (a :: as) bs + 1) (a :: as) (b :: bs) :=
      .more (.insert [] b (a :: as)) (ihinsert.cons b)
    have hboth : Edits (least as bs + if a = b then 0 else 1) (a :: as) (b :: bs) := by
      by_cases hsame : a = b
      · rw [if_pos hsame, hsame]
        exact ihboth.cons b
      · rw [if_neg hsame]
        exact .more (.replace [] a b as) (ihboth.cons b)
    rw [least_cons_cons]
    exact (hdelete.min hinsert).min hboth

/-! One edit of a text changes its count of edits to any other text by at most one. -/

theorem least_cons_le (a : Char) (as cs : List Char) : least (a :: as) cs ≤ least as cs + 1 := by
  cases cs with
  | nil => simp
  | cons c cs => rw [least_cons_cons]; omega

theorem least_le_cons (a : Char) (as cs : List Char) : least as cs ≤ least (a :: as) cs + 1 := by
  induction cs with
  | nil => simp; omega
  | cons c cs ih =>
    have hinsert : least as (c :: cs) ≤ least as cs + 1 := by
      cases as with
      | nil => simp
      | cons a' as => rw [least_cons_cons]; omega
    rw [least_cons_cons]
    omega

theorem least_replace_le (a b : Char) (as cs : List Char) :
    least (a :: as) cs ≤ least (b :: as) cs + 1 := by
  induction cs with
  | nil => simp
  | cons c cs ih =>
    rw [least_cons_cons, least_cons_cons]
    split <;> split <;> omega

theorem least_cons_le_cons (h : ∀ cs, least as cs ≤ least bs cs + 1) (c : Char)
    (cs : List Char) : least (c :: as) cs ≤ least (c :: bs) cs + 1 := by
  induction cs with
  | nil => simpa using h []
  | cons d cs ih =>
    have hwhole := h (d :: cs)
    have hrest := h cs
    rw [least_cons_cons, least_cons_cons]
    omega

theorem Edit.least_le (h : Edit as bs) (cs : List Char) : least as cs ≤ least bs cs + 1 := by
  cases h with
  | insert before c after =>
    induction before generalizing cs with
    | nil => exact least_le_cons c after cs
    | cons d before ih => exact least_cons_le_cons ih d cs
  | delete before c after =>
    induction before generalizing cs with
    | nil => exact least_cons_le c after cs
    | cons d before ih => exact least_cons_le_cons ih d cs
  | replace before c d after =>
    induction before generalizing cs with
    | nil => exact least_replace_le c d after cs
    | cons e before ih => exact least_cons_le_cons ih e cs

/-- Fewer edits are not enough. -/
theorem Edits.least_le (h : Edits n as bs) : least as bs ≤ n := by
  induction h with
  | none as =>
    induction as with
    | nil => simp
    | cons a as ih => rw [least_cons_cons, if_pos rfl]; omega
  | @more n as bs cs hedit _ ih =>
    have hstep := hedit.least_le cs
    omega

/-! ## The table -/

/-- The cells of a row behind the one for `ps`, which holds the characters of the second text so
far, the last first: one cell for each character that follows. -/
def cells (as : List Char) : List Char → List Char → List Nat
  | _, [] => []
  | ps, b :: bs => least as (b :: ps) :: cells as (b :: ps) bs

/-- The row of a first text, whose characters come the last first. -/
def rowOf (as bs : List Char) : List Nat := least as [] :: cells as [] bs

/-- Each cell comes from its neighbours above and to the left. -/
theorem nextRow_cells (c : Char) (as ps bs : List Char) :
    nextRow c (least as ps) (least (c :: as) ps) bs (cells as ps bs) = cells (c :: as) ps bs := by
  induction bs generalizing ps with
  | nil => rfl
  | cons b bs ih =>
    have hcell : min (min (least as (b :: ps) + 1) (least (c :: as) ps + 1))
        (least as ps + if c = b then 0 else 1) = least (c :: as) (b :: ps) :=
      (least_cons_cons c b as ps).symm
    rw [cells, nextRow, hcell, ih, cells]

theorem step_rowOf (as bs : List Char) (c : Char) :
    step bs (rowOf as bs) c = rowOf (c :: as) bs := by
  have hfirst : least as [] + 1 = least (c :: as) [] := by simp
  rw [rowOf, step, hfirst, nextRow_cells, rowOf]

theorem firstRow_eq (bs : List Char) : firstRow bs = rowOf [] bs := by
  have hcells : ∀ ps : List Char,
      cells [] ps bs = (List.range bs.length).map (· + (ps.length + 1)) := by
    induction bs with
    | nil => exact fun _ => rfl
    | cons b bs ih =>
      intro ps
      show _ = (List.range (bs.length + 1)).map _
      rw [cells, ih, List.range_succ_eq_map, List.map_cons, List.map_map]
      simp [Function.comp_def, Nat.add_comm, Nat.add_left_comm]
  rw [firstRow, rowOf, hcells, List.range_succ_eq_map]
  simp

/-- The rows are those of the beginnings of the first text, each reversed. -/
theorem foldl_step (as bs ps : List Char) :
    as.foldl (step bs) (rowOf ps bs) = rowOf (as.reverse ++ ps) bs := by
  induction as generalizing ps with
  | nil => rfl
  | cons a as ih => rw [List.foldl_cons, step_rowOf, ih]; simp

theorem getLast?_rowOf (as bs : List Char) :
    (rowOf as bs).getLast? = some (least as bs.reverse) := by
  have hcells : ∀ ps : List Char, (least as ps :: cells as ps bs).getLast? =
      some (least as (bs.reverse ++ ps)) := by
    induction bs with
    | nil => exact fun _ => rfl
    | cons b bs ih =>
      intro ps
      rw [cells, List.getLast?_cons_cons, ih]
      simp
  rw [rowOf, hcells, List.append_nil]

theorem distance_eq (as bs : List Char) : distance as bs = least as.reverse bs.reverse := by
  rw [distance, firstRow_eq, foldl_step, List.append_nil, getLast?_rowOf, Option.getD_some]

/-! ## The distance -/

theorem edits_distance (as bs : List Char) : Edits (distance as bs) as bs := by
  rw [distance_eq, ← Edits.reverse_iff]
  exact edits_least _ _

theorem Edits.distance_le (h : Edits n as bs) : distance as bs ≤ n := by
  rw [distance_eq]
  exact h.reverse.least_le

/-- **The distance is the least number of edits.** As many edits as the distance says turn one text
into the other, and fewer do not. So the distance is the same in both directions, nothing for equal
texts only, and never longer than the way over a third text. -/
theorem distance_isLeast (s t u : String) :
    IsLeast {n | Edits n s.toList t.toList} (distance s.toList t.toList) ∧
      distance s.toList t.toList = distance t.toList s.toList ∧
      (distance s.toList t.toList = 0 ↔ s = t) ∧
      distance s.toList u.toList ≤ distance s.toList t.toList + distance t.toList u.toList := by
  have hst := edits_distance s.toList t.toList
  have hts := edits_distance t.toList s.toList
  refine ⟨⟨hst, fun n hn => hn.distance_le⟩, ?_, ?_, ?_⟩
  · exact le_antisymm hts.symm.distance_le hst.symm.distance_le
  · constructor
    · intro hzero
      rw [hzero] at hst
      exact String.toList_injective hst.eq_of_zero
    · rintro rfl
      exact Nat.le_zero.mp (Edits.none s.toList).distance_le
  · exact (hst.append (edits_distance t.toList u.toList)).distance_le

end Graft.EditDistance

import Graft.Text.Position

/-!
# Positions behind texts

The place behind a text is told by its line ends and by the characters since the last of them.
Walking through the text, and shifting a place of a text into the file that holds it, both come to
that place.
-/

namespace Graft

namespace Position

/-- The place behind `cs`: a line for each line end, a column for each character since the last. -/
def behind (cs : List Char) : Position :=
  ⟨cs.count '\n' + 1, (cs.reverse.takeWhile (· ≠ '\n')).length⟩

theorem next_behind (cs : List Char) (c : Char) : (behind cs).next c = behind (cs ++ [c]) := by
  have hcount : (cs ++ [c]).count '\n' = cs.count '\n' + [c].count '\n' := List.count_append
  have hreverse : (cs ++ [c]).reverse = c :: cs.reverse := List.reverse_append
  unfold next behind
  rw [hcount, hreverse]
  split
  next hend =>
    rw [hend, List.takeWhile_cons_of_neg (by simp)]
    rfl
  next hother =>
    have hnone : [c].count '\n' = 0 := List.count_eq_zero.mpr (by simpa [eq_comm] using hother)
    rw [List.takeWhile_cons_of_pos (by simpa using hother), hnone]
    rfl

theorem advance_behind (as bs : List Char) : (behind as).advance bs = behind (as ++ bs) := by
  induction bs generalizing as with
  | nil =>
    rw [List.append_nil]
    rfl
  | cons b bs ih =>
    rw [List.append_cons, ← ih, ← next_behind]
    rfl

theorem start_advance (cs : List Char) : start.advance cs = behind cs := advance_behind [] cs

end Position

namespace Location

variable {origin p : Position}

/-- Reading on in a text leads on in the file that holds it: a line end ends the line of both. -/
theorem offset_next (hp : 1 ≤ p.line) (c : Char) :
    (point origin).offset (p.next c) = ((point origin).offset p).next c := by
  simp only [offset, point, ofRange, Position.next]
  split
  next hend =>
    -- Behind a line end the text is past its first line, whose columns alone are shifted.
    rw [if_neg (show ¬ p.line + 1 ≤ 1 by omega)]
    split
    · have hline : origin.line + (p.line + 1) - 1 = origin.line + 1 := by omega
      rw [hline]
    · have hline : origin.line + (p.line + 1) - 1 = origin.line + p.line - 1 + 1 := by omega
      rw [hline]
  next hother =>
    show (if p.line ≤ 1 then _ else _) = _
    split <;> rfl

theorem offset_advance (hp : 1 ≤ p.line) (cs : List Char) :
    (point origin).offset (p.advance cs) = ((point origin).offset p).advance cs := by
  induction cs generalizing p with
  | nil => rfl
  | cons c cs ih =>
    have hnext : 1 ≤ (p.next c).line := by
      unfold Position.next
      split
      · exact Nat.le_add_left 1 p.line
      · exact hp
    show (point origin).offset ((p.next c).advance cs) =
      (((point origin).offset p).next c).advance cs
    rw [ih hnext, offset_next hp]

/-- A place of a text, shifted to where the text stands, is a place of the file. -/
theorem offset_behind (before cs : List Char) :
    (point (.behind before)).offset (.behind cs) = .behind (before ++ cs) := by
  rw [← Position.start_advance cs, offset_advance (Nat.le_refl 1)]
  exact Position.advance_behind before cs

end Location

/-! ## Texts behind whole lines -/

/-- The place `n` lines further down. -/
def Position.down (n : Nat) (p : Position) : Position := ⟨p.line + n, p.column⟩

/-- The location `n` lines further down. -/
def Location.down (n : Nat) (l : Location) : Location :=
  ⟨l.line + n, l.col, l.endLine + n, l.endCol⟩

theorem Location.down_down (m n : Nat) (l : Location) : (l.down m).down n = l.down (m + n) := by
  simp only [down, Nat.add_assoc]

end Graft

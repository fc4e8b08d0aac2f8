import Mathlib.Data.List.Basic
import Graft.Types.HostType

/-!
# Brackets in texts

A place of a text is outside when no bracket is open there. A text is split at the separators that
stand outside; what is in brackets stays together.
-/

namespace Graft

/-- How many brackets of each kind are open. -/
structure Brackets where
  round : Nat
  square : Nat
  deriving DecidableEq, Repr

namespace Brackets

variable {b b' d : Brackets} {c : Char} {cs u v : List Char}

/-- No bracket is open. -/
def closed : Brackets := ⟨0, 0⟩

/-- The brackets open behind a character, unless it closes one that is not open. -/
def next? (b : Brackets) (c : Char) : Option Brackets :=
  if c = '(' then some { b with round := b.round + 1 }
  else if c = '[' then some { b with square := b.square + 1 }
  else if c = ')' then if b.round = 0 then none else some { b with round := b.round - 1 }
  else if c = ']' then if b.square = 0 then none else some { b with square := b.square - 1 }
  else some b

/-- The brackets open behind a text, unless it closes one that is not open. -/
def behind? : Brackets → List Char → Option Brackets
  | b, [] => some b
  | b, c :: cs => (b.next? c).bind (behind? · cs)

/-- More brackets open around a text. -/
def add (b d : Brackets) : Brackets := ⟨b.round + d.round, b.square + d.square⟩

theorem behind?_append (b : Brackets) (u v : List Char) :
    b.behind? (u ++ v) = (b.behind? u).bind (·.behind? v) := by
  induction u generalizing b with
  | nil => rfl
  | cons c u ih =>
    rw [List.cons_append, behind?, behind?, Option.bind_assoc]
    exact congrArg _ (funext ih)

theorem next?_add (h : b.next? c = some b') (d : Brackets) :
    (b.add d).next? c = some (b'.add d) := by
  unfold next? at h ⊢
  grind [add]

/-- What is open around a text stays open in it. -/
theorem behind?_add (h : b.behind? cs = some b') (d : Brackets) :
    (b.add d).behind? cs = some (b'.add d) := by
  induction cs generalizing b with
  | nil =>
    obtain rfl := Option.some.inj h
    rfl
  | cons c cs ih =>
    obtain ⟨e, he, h⟩ := Option.bind_eq_some_iff.mp h
    rw [behind?, next?_add he d]
    exact ih h

theorem exists_behind? (h : (b.behind? (u ++ v)).isSome) : ∃ b', b.behind? u = some b' := by
  rw [behind?_append] at h
  exact Option.isSome_iff_exists.mp (Option.isSome_of_isSome_bind h)

end Brackets

open Brackets (closed)

/-- A text closes the brackets that it opens, and no others. -/
def Balanced (cs : List Char) : Prop := closed.behind? cs = some closed

instance (cs : List Char) : Decidable (Balanced cs) := inferInstanceAs (Decidable (_ = _))

/-- `v` stands outside of brackets in a text. -/
def Outside (cs v : List Char) : Prop := ∃ u, cs = u ++ v ∧ closed.behind? u = some closed

variable {cs p u v : List Char}

theorem Balanced.append (hu : Balanced u) (hv : Balanced v) : Balanced (u ++ v) := by
  rw [Balanced, Brackets.behind?_append, hu]
  exact hv

/-- Inside of parentheses nothing stands outside. -/
theorem behind?_paren (hcs : Balanced (u ++ v)) :
    ∃ b : Brackets, closed.behind? ('(' :: u) = some b ∧ 0 < b.round := by
  obtain ⟨b, hb⟩ := Brackets.exists_behind? (Option.isSome_iff_exists.mpr ⟨_, hcs⟩)
  exact ⟨b.add ⟨1, 0⟩, Brackets.behind?_add hb ⟨1, 0⟩, Nat.succ_pos _⟩

theorem Balanced.parens (hcs : Balanced cs) : Balanced ('(' :: cs ++ [')']) := by
  rw [Balanced, Brackets.behind?_append]
  have hinside : closed.behind? ('(' :: cs) = some (closed.add ⟨1, 0⟩) :=
    Brackets.behind?_add hcs ⟨1, 0⟩
  rw [hinside]
  rfl

/-- Of a text in parentheses only the whole stands outside. -/
theorem Outside.of_parens (hcs : Balanced cs) (h : Outside ('(' :: cs ++ [')']) v) (hv : v ≠ []) :
    v = '(' :: cs ++ [')'] := by
  obtain ⟨u, htext, hu⟩ := h
  cases u with
  | nil => exact htext.symm
  | cons c u =>
    exfalso
    have htail : cs ++ [')'] = u ++ v := (List.cons.inj htext).2
    obtain rfl : '(' = c := (List.cons.inj htext).1
    -- Before the last character of the text one parenthesis is open at least.
    obtain ⟨w, rfl⟩ : u <+: cs := by
      have hlength : 0 < v.length := List.length_pos_iff.mpr hv
      have hsum := congrArg List.length htail
      simp only [List.length_append, List.length_cons, List.length_nil] at hsum
      exact List.prefix_of_prefix_length_le ⟨v, htail.symm⟩ (List.prefix_append _ _) (by omega)
    obtain ⟨b, hb, hround⟩ := behind?_paren hcs
    obtain rfl := Option.some.inj (hu.symm.trans hb)
    exact absurd hround (by decide)

/-! ## Splitting -/

/-- What parts a text: how long the separator at the head of a text is, zero if there is none. No
bracket stays open behind it. -/
structure Separator where
  length : List Char → Nat
  length_le (cs : List Char) : length cs ≤ cs.length
  balanced (cs : List Char) : Balanced (cs.take (length cs))

variable {s : Separator} {b b' : Brackets} {rest : List Char}

/-- The pieces of a text between the separators outside of brackets, with `b` open before it. -/
def splitOutside (s : Separator) (b : Brackets) (cs : List Char) : List (List Char) :=
  match cs with
  | [] => [[]]
  | c :: cs =>
    if b = closed ∧ 0 < s.length (c :: cs) then
      [] :: splitOutside s closed (cs.drop (s.length (c :: cs) - 1))
    else (splitOutside s ((b.next? c).getD b) cs).modifyHead (c :: ·)
termination_by cs.length

theorem splitOutside_ne_nil (s : Separator) (b : Brackets) (cs : List Char) :
    splitOutside s b cs ≠ [] := by
  fun_induction splitOutside s b cs with
  | case1 b => exact List.cons_ne_nil _ _
  | case2 b c cs h ih => exact List.cons_ne_nil _ _
  | case3 b c cs h ih => simpa using ih

theorem modifyHead_append {α : Type} {xs : List α} (hxs : xs ≠ []) (f : α → α) (ys : List α) :
    (xs ++ ys).modifyHead f = xs.modifyHead f ++ ys := by
  cases xs with
  | nil => exact absurd rfl hxs
  | cons x xs => rfl

/-- A separator outside parts what stands before it from what stands behind, if no separator before
it reaches into it. -/
theorem splitOutside_append (sep : List Char) (hp : b.behind? p = some closed) (hne : sep ≠ [])
    (hsep : s.length (sep ++ rest) = sep.length)
    (hapart : ∀ u v, p = u ++ v → v ≠ [] → b.behind? u = some closed →
      s.length (v ++ (sep ++ rest)) = s.length v) :
    splitOutside s b (p ++ (sep ++ rest)) = splitOutside s b p ++ splitOutside s closed rest := by
  fun_induction splitOutside s b p with
  | case1 b =>
    obtain rfl := Option.some.inj hp
    obtain ⟨c, sep, rfl⟩ := List.exists_cons_of_ne_nil hne
    rw [List.nil_append, List.cons_append, splitOutside, ← List.cons_append, hsep,
      if_pos ⟨rfl, Nat.succ_pos _⟩]
    simp
  | case2 b c cs h ih =>
    have hlength := s.length_le (c :: cs)
    have hhere := hapart [] (c :: cs) rfl (List.cons_ne_nil _ _) (by rw [h.1]; rfl)
    rw [List.cons_append] at hhere ⊢
    obtain ⟨rfl, hpos⟩ := h
    -- Behind a separator before, the text is at the outside again.
    have hcut : c :: cs =
        (c :: cs).take (s.length (c :: cs)) ++ cs.drop (s.length (c :: cs) - 1) := by
      obtain ⟨n, hn⟩ := Nat.exists_eq_add_of_le' hpos
      rw [hn, List.take_succ_cons, List.cons_append]
      exact congrArg _ (List.take_append_drop n cs).symm
    have hfirst := s.balanced (c :: cs)
    have hdrop : (cs ++ (sep ++ rest)).drop (s.length (c :: cs) - 1) =
        cs.drop (s.length (c :: cs) - 1) ++ (sep ++ rest) := by
      rw [List.length_cons] at hlength
      exact List.drop_append_of_le_length (by omega)
    rw [splitOutside, hhere, if_pos ⟨rfl, hpos⟩, List.cons_append, hdrop, ih]
    · rw [hcut, Brackets.behind?_append, hfirst] at hp
      exact hp
    · intro u v hcs hv hu
      refine hapart ((c :: cs).take (s.length (c :: cs)) ++ u) v ?_ hv ?_
      · rw [List.append_assoc, ← hcs]
        exact hcut
      · rw [Brackets.behind?_append, hfirst]
        exact hu
  | case3 b c cs h ih =>
    obtain ⟨b', hnext, hp⟩ := Option.bind_eq_some_iff.mp hp
    have hcond : ¬ (b = closed ∧ 0 < s.length (c :: (cs ++ (sep ++ rest)))) := by
      rintro ⟨rfl, hpos⟩
      rw [← List.cons_append, hapart [] (c :: cs) rfl (List.cons_ne_nil _ _) rfl] at hpos
      exact h ⟨rfl, hpos⟩
    rw [hnext, Option.getD_some] at ih ⊢
    rw [List.cons_append, splitOutside, if_neg hcond, hnext, Option.getD_some, ih hp,
      modifyHead_append (splitOutside_ne_nil s b' cs)]
    intro u v hcs hv hu
    refine hapart (c :: u) v (congrArg _ hcs) hv ?_
    rw [Brackets.behind?, hnext]
    exact hu

/-- A text without a separator outside is one piece. -/
theorem splitOutside_eq_self (hp : b.behind? p = some b')
    (hnone : ∀ u v, p = u ++ v → v ≠ [] → b.behind? u = some closed → s.length v = 0) :
    splitOutside s b p = [p] := by
  fun_induction splitOutside s b p with
  | case1 b => rfl
  | case2 b c cs h ih =>
    have hzero := hnone [] (c :: cs) rfl (List.cons_ne_nil _ _) (by rw [h.1]; rfl)
    omega
  | case3 b c cs h ih =>
    obtain ⟨b'', hnext, hp⟩ := Option.bind_eq_some_iff.mp hp
    rw [hnext, Option.getD_some] at ih ⊢
    rw [ih hp, List.modifyHead_cons]
    intro u v hcs hv hu
    refine hnone (c :: u) v (congrArg _ hcs) hv ?_
    rw [Brackets.behind?, hnext]
    exact hu

end Graft

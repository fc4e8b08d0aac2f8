import Graft.Grammar.Parser
import Mathlib.Data.List.Perm.Basic

/-!
# Results of steps that may fail

A sequence of steps succeeds where each of them does, and fails where the first of them fails.
-/

namespace Graft

variable {ε α β : Type}

theorem except_bind_eq_ok {x : Except ε α} {f : α → Except ε β} {b : β}
    (h : x >>= f = .ok b) : ∃ a, x = .ok a ∧ f a = .ok b := by
  cases x with
  | error e => cases h
  | ok a => exact ⟨a, rfl, h⟩

theorem except_bind_eq_error {x : Except ε α} {f : α → Except ε β} {e : ε}
    (h : x >>= f = .error e) : x = .error e ∨ ∃ a, x = .ok a ∧ f a = .error e := by
  cases x with
  | error e' => exact .inl (congrArg _ (Except.error.inj h))
  | ok a => exact .inr ⟨a, rfl, h⟩

theorem except_mapError_eq_ok {ε' : Type} {f : ε → ε'} {x : Except ε α} {a : α}
    (h : x.mapError f = .ok a) : x = .ok a := by
  cases x with
  | error e => cases h
  | ok b => exact congrArg _ (Except.ok.inj h)

theorem except_eq_ok_of_isOk {x : Except ε α} (h : x.isOk) : ∃ a, x = .ok a := by
  cases x with
  | error e => cases h
  | ok a => exact ⟨a, rfl⟩

theorem eq_ok_of_toOption {x : Except ε α} {a : α} (h : x.toOption = some a) : x = .ok a := by
  cases x with
  | error e => cases h
  | ok b => exact congrArg _ (Option.some.inj h)

theorem except_map_eq_ok {f : α → β} {x : Except ε α} {b : β} (h : x.map f = .ok b) :
    ∃ a, x = .ok a ∧ f a = b := by
  cases x with
  | error e => cases h
  | ok a => exact ⟨a, rfl, Except.ok.inj h⟩

theorem except_map_eq_error {f : α → β} {x : Except ε α} {e : ε} (h : x.map f = .error e) :
    x = .error e := by
  cases x with
  | error e' => exact congrArg _ (Except.error.inj h)
  | ok a => cases h

namespace Parser

variable {p : Parser α} {f : α → Parser β} {s : Scope} {c c' d : Cursor}

theorem bind_eq_ok {b : β} (h : (p >>= f) s c = .ok (b, d)) :
    ∃ a c', p s c = .ok (a, c') ∧ f a s c' = .ok (b, d) := by
  rcases hp : p s c with e | ⟨a, c'⟩
  · simp only [bind, hp] at h
    cases h
  · simp only [bind, hp] at h
    exact ⟨a, c', rfl, h⟩

theorem bind_of_ok {a : α} (hp : p s c = .ok (a, c')) : (p >>= f) s c = f a s c' := by
  simp only [bind, hp]

theorem bind_of_error {e : SyntaxError} (hp : p s c = .error e) :
    (p >>= f) s c = .error e := by
  simp only [bind, hp]

end Parser

theorem mapM_eq_ok_iff {f : α → Except ε β} {xs : List α} {ys : List β} :
    xs.mapM f = .ok ys ↔ List.Forall₂ (fun x y => f x = .ok y) xs ys := by
  constructor
  · intro h
    induction xs generalizing ys with
    | nil =>
      rw [List.mapM_nil] at h
      rw [← Except.ok.inj h]
      exact .nil
    | cons x xs ih =>
      rw [List.mapM_cons] at h
      obtain ⟨y, hy, h⟩ := except_bind_eq_ok h
      obtain ⟨rest, hrest, h⟩ := except_bind_eq_ok h
      rw [← Except.ok.inj h]
      exact .cons hy (ih hrest)
  · intro h
    induction h with
    | nil => rfl
    | cons hy _ ih =>
      rw [List.mapM_cons, hy]
      show (List.mapM f _ >>= _) = _
      rw [ih]
      rfl

theorem mapM_isOk_iff {f : α → Except ε β} {xs : List α} :
    (xs.mapM f).isOk ↔ ∀ x ∈ xs, (f x).isOk := by
  induction xs with
  | nil => simp [pure, Except.pure, Except.isOk, Except.toBool]
  | cons x xs ih =>
    rw [List.mapM_cons, List.forall_mem_cons, ← ih]
    cases f x with
    | error e => exact iff_of_false Bool.false_ne_true fun h => Bool.false_ne_true h.1
    | ok y =>
      refine Iff.trans ?_ (and_iff_right rfl).symm
      cases xs.mapM f <;> rfl

theorem exists_of_mem_forall₂ {R : α → β → Prop} {xs : List α} {ys : List β} {y : β}
    (h : List.Forall₂ R xs ys) (hy : y ∈ ys) : ∃ x ∈ xs, R x y := by
  induction h with
  | nil => cases hy
  | @cons x z xs zs hz _ ih =>
    rcases List.mem_cons.mp hy with rfl | hy
    · exact ⟨x, List.mem_cons_self, hz⟩
    · obtain ⟨x', hx', hrelated⟩ := ih hy
      exact ⟨x', List.mem_cons_of_mem x hx', hrelated⟩

theorem exists_of_mem_mapM {f : α → Except ε β} {xs : List α} {ys : List β} {y : β}
    (h : xs.mapM f = .ok ys) (hy : y ∈ ys) : ∃ x ∈ xs, f x = .ok y := by
  obtain ⟨x, hx, hfound⟩ := exists_of_mem_forall₂ (mapM_eq_ok_iff.mp h) hy
  exact ⟨x, hx, hfound⟩

theorem mem_of_mapM {f : α → Except ε β} {xs : List α} {ys : List β} {x : α}
    (h : xs.mapM f = .ok ys) (hx : x ∈ xs) : ∃ y ∈ ys, f x = .ok y := by
  obtain ⟨y, hy, hfound⟩ := exists_of_mem_forall₂ (mapM_eq_ok_iff.mp h).flip hx
  exact ⟨y, hy, hfound⟩

/-- Where a test fails on none of a list, what passes it is kept. -/
theorem filterM_eq_ok {f : α → Except ε Bool} {g : α → Bool} {xs : List α}
    (h : ∀ x ∈ xs, f x = .ok (g x)) : xs.filterM f = .ok (xs.filter g) := by
  have haux : ∀ acc, xs.filterAuxM f acc = .ok ((xs.filter g).reverse ++ acc) := by
    induction xs with
    | nil => exact fun acc => rfl
    | cons x xs ih =>
      intro acc
      rw [List.filterAuxM, h x List.mem_cons_self]
      show xs.filterAuxM f (cond (g x) (x :: acc) acc) = _
      rw [ih fun y hy => h y (List.mem_cons_of_mem x hy), List.filter_cons]
      cases g x <;> simp
  rw [List.filterM, haux]
  simp [bind, Except.bind, pure, Except.pure]

/-- A test that fails on one of a list fails on the list. -/
theorem filterM_isOk_iff {f : α → Except ε Bool} {xs : List α} :
    (xs.filterM f).isOk ↔ ∀ x ∈ xs, (f x).isOk := by
  have haux : ∀ acc, (xs.filterAuxM f acc).isOk ↔ ∀ x ∈ xs, (f x).isOk := by
    induction xs with
    | nil => simp [List.filterAuxM, pure, Except.pure, Except.isOk, Except.toBool]
    | cons x xs ih =>
      intro acc
      rw [List.filterAuxM, List.forall_mem_cons]
      cases f x with
      | error e => exact iff_of_false Bool.false_ne_true fun h => Bool.false_ne_true h.1
      | ok taken => exact (ih (cond taken (x :: acc) acc)).trans (and_iff_right rfl).symm
  rw [← haux [], List.filterM]
  cases xs.filterAuxM f [] <;> rfl

theorem mem_filterM {f : α → Except ε Bool} {xs ys : List α} {x : α} (h : xs.filterM f = .ok ys) :
    x ∈ ys ↔ x ∈ xs ∧ f x = .ok true := by
  have hok : ∀ x ∈ xs, f x = .ok ((f x).toOption.getD false) := by
    intro x hx
    obtain ⟨taken, htaken⟩ := except_eq_ok_of_isOk (filterM_isOk_iff.mp (by rw [h]; rfl) x hx)
    rw [htaken]
    rfl
  obtain rfl := Except.ok.inj (h.symm.trans (filterM_eq_ok hok))
  rw [List.mem_filter]
  refine and_congr_right fun hx => ?_
  rw [hok x hx]
  exact ⟨congrArg _, Except.ok.inj⟩

/-- Where `f` succeeds on all of a list, it does so in any order, with the same results. -/
theorem mapM_perm {f : α → Except ε β} {xs xs' : List α} {ys : List β} (hperm : xs'.Perm xs)
    (h : xs.mapM f = .ok ys) : ∃ ys', xs'.mapM f = .ok ys' ∧ ys'.Perm ys := by
  obtain ⟨ys', hys', hperm'⟩ := List.perm_comp_forall₂ hperm (mapM_eq_ok_iff.mp h)
  exact ⟨ys', mapM_eq_ok_iff.mpr hys', hperm'⟩

/-- What each step of a fold keeps, the fold keeps. -/
theorem foldlM_keeps_of_mem {motive : β → Prop} {f : β → α → Except ε β} {xs : List α} {b b' : β}
    (hstart : motive b) (hstep : ∀ b x b', x ∈ xs → motive b → f b x = .ok b' → motive b')
    (h : xs.foldlM f b = .ok b') : motive b' := by
  induction xs generalizing b with
  | nil => exact Except.ok.inj h ▸ hstart
  | cons x xs ih =>
    rw [List.foldlM_cons] at h
    obtain ⟨c, hc, h⟩ := except_bind_eq_ok h
    exact ih (hstep b x c List.mem_cons_self hstart hc)
      (fun b y b' hy => hstep b y b' (List.mem_cons_of_mem x hy)) h

theorem foldlM_keeps {motive : β → Prop} {f : β → α → Except ε β} {xs : List α} {b b' : β}
    (hstart : motive b) (hstep : ∀ b x b', motive b → f b x = .ok b' → motive b')
    (h : xs.foldlM f b = .ok b') : motive b' :=
  foldlM_keeps_of_mem hstart (fun b x b' _ => hstep b x b') h

end Graft

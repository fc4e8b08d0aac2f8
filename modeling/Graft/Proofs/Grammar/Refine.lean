import Graft.Proofs.Result
import Graft.Proofs.Token.Skips
import Graft.Grammar.Tree

/-!
# Parsers of deeper grammars

A grammar of more levels reads what one of fewer levels reads, in the same way: a parser of the
shallower one fails for want of a level, or does what that of the deeper one does. On the way, what
is written counts no more slashes than what is read. The two are shown together, and what is put
together from parsers has them from its parts.
-/

set_option synthInstance.maxSize 200000

namespace Graft

open Token (skips skipsAll)

/-- Between two cursors, tokens are read from the front, and what is written counts no more than
what is read. -/
structure Cursor.Keeps (c d : Cursor) : Prop where
  suffix : d.rest <:+ c.rest
  total : skipsAll d.written + skipsAll d.rest ≤ skipsAll c.written + skipsAll c.rest

namespace Cursor.Keeps

variable {c d e : Cursor}

theorem refl (c : Cursor) : c.Keeps c := ⟨List.suffix_rfl, Nat.le_refl _⟩

theorem trans (h : c.Keeps d) (h' : d.Keeps e) : c.Keeps e :=
  ⟨h'.suffix.trans h.suffix, h'.total.trans h.total⟩

theorem rest (h : c.Keeps d) : skipsAll d.rest ≤ skipsAll c.rest := by
  obtain ⟨front, hfront⟩ := h.suffix
  rw [← hfront, Token.skipsAll_append]
  exact Nat.le_add_left _ _

/-- What was written on the way may be dropped. -/
theorem undo (h : c.Keeps d) : c.Keeps { d with written := c.written } :=
  ⟨h.suffix, Nat.add_le_add_left h.rest _⟩

end Cursor.Keeps

namespace Parser

variable {α β : Type} {s : Scope} {c d : Cursor}

/-- `p` does what `p'` does, or fails for want of a level. -/
class Below (p p' : Parser α) : Prop where
  eq_or_void (s : Scope) (c : Cursor) : p' s c = p s c ∨ ∃ e, p s c = .error e ∧ e.isVoid

/-- `p` is below `p'`, and writes no more than it reads. -/
class Refines (p p' : Parser α) : Prop extends Below p p' where
  keeps {s : Scope} {c d : Cursor} {a : α} : p s c = .ok (a, d) → c.Keeps d

variable {p p' : Parser α} {f f' : α → Parser β}

namespace Below

instance (priority := low) refl (p : Parser α) : Below p p := ⟨fun _ _ => .inl rfl⟩

theorem elim (p p' : Parser α) [Below p p'] (s : Scope) (c : Cursor) :
    p' s c = p s c ∨ ∃ e, p s c = .error e ∧ e.isVoid :=
  eq_or_void s c

/-- What a parser reads, one that it is below reads in the same way. -/
theorem ok [Below p p'] {a : α} (h : p s c = .ok (a, d)) : p' s c = .ok (a, d) := by
  obtain heq | ⟨e, hvoid, -⟩ := elim p p' s c
  · exact heq.trans h
  · rw [hvoid] at h
    cases h

instance bind [Below p p'] [∀ a, Below (f a) (f' a)] : Below (p >>= f) (p' >>= f') where
  eq_or_void s c := by
    obtain heq | ⟨e, hp, hvoid⟩ := elim p p' s c
    · cases hp : p s c with
      | ok r =>
        rw [bind_of_ok hp, bind_of_ok (heq.trans hp)]
        exact eq_or_void _ _
      | error e => exact .inl ((bind_of_error (heq.trans hp)).trans (bind_of_error hp).symm)
    · exact .inr ⟨e, bind_of_error hp, hvoid⟩

instance ite {c : Prop} [Decidable c] {q q' : Parser α} [Below p p'] [Below q q'] :
    Below (if c then p else q) (if c then p' else q') := by
  split <;> infer_instance

end Below

namespace Refines

theorem self (h : ∀ {s c d a}, p s c = .ok (a, d) → c.Keeps d) : Refines p p := ⟨h⟩

instance pure (a : α) : Refines (Pure.pure a) (Pure.pure a) :=
  self fun h => by cases h; exact .refl _

instance bind [Refines p p'] [∀ a, Refines (f a) (f' a)] : Refines (p >>= f) (p' >>= f') where
  keeps h := by
    obtain ⟨a, c', hp, hf⟩ := bind_eq_ok h
    exact (keeps p' hp).trans (keeps (f' a) hf)

instance ite {c : Prop} [Decidable c] {q q' : Parser α} [Refines p p'] [Refines q q'] :
    Refines (if c then p else q) (if c then p' else q') := by
  split <;> infer_instance

/-- The form of `bind` for a second parser that needs a proof of its own. -/
theorem andThen [Refines p p'] (h : ∀ a, Refines (f a) (f' a)) : Refines (p >>= f) (p' >>= f') :=
  inferInstance

end Refines

/-! ## Looking and failing -/

instance refines_rest : Refines rest rest := .self fun h => by cases h; exact .refl _

instance refines_written : Refines written written := .self fun h => by cases h; exact .refl _

instance refines_isEmpty : Refines isEmpty isEmpty := .self fun h => by cases h; exact .refl _

instance refines_place : Refines place place := .self fun h => by cases h; exact .refl _

instance refines_ahead (test : List Token → Bool) : Refines (ahead test) (ahead test) := by
  unfold ahead
  infer_instance

instance refines_default : Refines (default : Parser α) p where
  eq_or_void s _ := .inr ⟨⟨s.finish, ""⟩, rfl, rfl⟩
  keeps h := by cases h

instance refines_failHere (message : String) :
    Refines (failHere message : Parser α) (failHere message) :=
  .self fun h => by cases h

instance refines_failAt (place : Position) (message : String) :
    Refines (failAt place message : Parser α) (failAt place message) :=
  .self fun h => by cases h

instance refines_fail (message : String) : Refines (fail message : Parser α) (fail message) :=
  .self fun h => by
    unfold fail at h
    split at h <;> cases h

instance refines_expected (things : List String) :
    Refines (expected things : Parser α) (expected things) := by
  unfold expected
  split <;> infer_instance

instance refines_foresee (p : Parser α) : Refines (foresee p) (foresee p) :=
  .self fun h => by
    unfold foresee at h
    split at h <;> cases h <;> exact .refl _

/-- The failure for want of a level is not taken for one of the tokens. -/
instance refines_attempt [Refines p p'] : Refines (attempt p) (attempt p') where
  eq_or_void s c := by
    unfold attempt
    obtain heq | ⟨e, hp, hvoid⟩ := Below.elim p p' s c
    · rw [heq]
      exact .inl rfl
    · rw [hp]
      simp only [hvoid, if_true]
      exact .inr ⟨e, rfl, hvoid⟩
  keeps {s c d a} h := by
    unfold attempt at h
    cases hp : p s c with
    | ok r =>
      rw [hp] at h
      cases h
      exact Refines.keeps p' hp
    | error e =>
      rw [hp] at h
      simp only at h
      split at h <;> cases h
      exact .refl _

/-! ## Repeating -/

section Repeating

variable {step step' : Parser (Option α)} {next next' : α → Parser (Option α)}

theorem many_go_eq_or_void [Below step step'] (s : Scope) (c : Cursor) :
    many.go step' s c = many.go step s c ∨ ∃ e, many.go step s c = .error e ∧ e.isVoid := by
  -- Every step but the last leaves fewer tokens, by which the loop ends.
  induction hlength : c.rest.length using Nat.strongRecOn generalizing c with
  | ind n ih =>
    subst hlength
    rw [many.go, many.go]
    obtain heq | ⟨e, hstep, hvoid⟩ := Below.elim step step' s c
    · rw [heq]
      split
      · exact .inl rfl
      · exact .inl rfl
      next c' _ =>
        split
        next hfewer =>
          obtain heq | ⟨e, hgo, hvoid⟩ := ih _ hfewer c' rfl
          · rw [heq]
            exact .inl rfl
          · rw [hgo]
            exact .inr ⟨e, rfl, hvoid⟩
        next => exact .inl rfl
    · rw [hstep]
      exact .inr ⟨e, rfl, hvoid⟩

theorem many_of_none (h : step s c = .ok (none, c)) :
    many step s c = .ok ([], c) := by
  show many.go step s c = _
  rw [many.go, h]

/-- A step of a loop that gives something, and what the loop gives behind it. -/
theorem many_go_of_some {a : α} (h : step s c = .ok (some a, d)) : many.go step s c =
    if d.rest.length < c.rest.length then (many.go step s d).map (Prod.map (a :: ·) id)
    else .ok ([a], d) := by
  rw [many.go, h]
  dsimp only
  split
  next =>
    cases many.go step s d <;> rfl
  next => rfl

/-- What one step keeps is kept by the steps up to the last. -/
theorem many_induction {P : Cursor → List α → Cursor → Prop} {as : List α}
    (none : ∀ {c d}, step s c = .ok (.none, d) → P c [] d)
    (last : ∀ {c a d}, step s c = .ok (some a, d) → ¬ d.rest.length < c.rest.length → P c [a] d)
    (more : ∀ {c a c' as d}, step s c = .ok (some a, c') → P c' as d → P c (a :: as) d)
    (h : many step s c = .ok (as, d)) : P c as d := by
  have hgo : many.go step s c = .ok (as, d) := h
  clear h
  induction hlength : c.rest.length using Nat.strongRecOn generalizing c as with
  | ind n ih =>
    subst hlength
    rw [many.go] at hgo
    split at hgo
    next => cases hgo
    next hstep =>
      cases hgo
      exact none hstep
    next hstep =>
      split at hgo
      next hfewer =>
        split at hgo
        next => cases hgo
        next hmore =>
          cases hgo
          exact more hstep (ih _ hfewer hmore rfl)
      next hfewer =>
        cases hgo
        exact last hstep hfewer

instance refines_many [Refines step step'] : Refines (many step) (many step') where
  eq_or_void := many_go_eq_or_void
  keeps h := many_induction (P := fun c _ d => c.Keeps d) (Refines.keeps step')
    (fun hstep _ => Refines.keeps step' hstep) (fun hstep hmore => (Refines.keeps step' hstep).trans hmore) h

theorem iterate_go_eq_or_void [∀ a, Below (next a) (next' a)] (s : Scope) (a : α) (c : Cursor) :
    iterate.go next' s a c = iterate.go next s a c ∨
      ∃ e, iterate.go next s a c = .error e ∧ e.isVoid := by
  induction hlength : c.rest.length using Nat.strongRecOn generalizing a c with
  | ind n ih =>
    subst hlength
    rw [iterate.go, iterate.go]
    obtain heq | ⟨e, hnext, hvoid⟩ := Below.elim (next a) (next' a) s c
    · rw [heq]
      split
      · exact .inl rfl
      · exact .inl rfl
      next a' c' _ =>
        split
        next hfewer => exact ih _ hfewer a' c' rfl
        next => exact .inl rfl
    · rw [hnext]
      exact .inr ⟨e, rfl, hvoid⟩

theorem iterate_go_keeps (next' : α → Parser (Option α)) [∀ a, Refines (next a) (next' a)]
    {a b : α}
    (h : iterate.go next s a c = .ok (b, d)) : c.Keeps d := by
  induction hlength : c.rest.length using Nat.strongRecOn generalizing a c with
  | ind n ih =>
    subst hlength
    rw [iterate.go] at h
    split at h
    next => cases h
    next hnext =>
      cases h
      exact Refines.keeps (next' b) hnext
    next hnext =>
      have hkeeps := Refines.keeps (next' a) hnext
      split at h
      next hfewer => exact hkeeps.trans (ih _ hfewer h rfl)
      next =>
        cases h
        exact hkeeps

instance refines_iterate [∀ a, Refines (next a) (next' a)] (a : α) :
    Refines (iterate next a) (iterate next' a) where
  eq_or_void s c := iterate_go_eq_or_void s a c
  keeps h := iterate_go_keeps next' h

end Repeating

theorem whileReading_of_false {step : Parser Bool} (h : step s c = .ok (false, c)) :
    whileReading step s c = .ok (⟨⟩, c) := by
  have hstep : (step >>= fun more => if more then Pure.pure (some ⟨⟩) else
      Pure.pure (none : Option PUnit)) s c = .ok (none, c) := bind_of_ok h
  exact bind_of_ok (many_of_none hstep)

/-- A loop that goes on, goes on from where its first step ends. -/
theorem whileReading_of_true {step : Parser Bool} (h : step s c = .ok (true, d))
    (hfewer : d.rest.length < c.rest.length) : whileReading step s c = whileReading step s d := by
  unfold whileReading
  generalize hnext : (step >>= fun more => if more then Pure.pure (some ⟨⟩) else
      Pure.pure (none : Option PUnit)) = next
  have hstep : next s c = .ok (some ⟨⟩, d) := by
    rw [← hnext]
    exact bind_of_ok h
  have hgo : many next s c = (many next s d).map (Prod.map (⟨⟩ :: ·) id) :=
    (many_go_of_some hstep).trans (if_pos hfewer)
  cases hmany : many next s d with
  | ok r =>
    rw [hmany] at hgo
    rw [bind_of_ok hgo, bind_of_ok hmany]
    rfl
  | error e =>
    rw [hmany] at hgo
    rw [bind_of_error hgo, bind_of_error hmany]

instance refines_whileReading {step step' : Parser Bool} [Refines step step'] :
    Refines (whileReading step) (whileReading step') := by
  unfold whileReading
  infer_instance

instance refines_forIn (xs : List β) (a : α) {f f' : β → α → Parser (ForInStep α)}
    [∀ x a, Refines (f x a) (f' x a)] : Refines (forIn xs a f) (forIn xs a f') := by
  induction xs generalizing a with
  | nil =>
    simp only [List.forIn_nil]
    infer_instance
  | cons x xs ih =>
    simp only [List.forIn_cons]
    refine .andThen fun r => ?_
    cases r <;> infer_instance

/-! ## Words and operators -/

/-- Tokens that count nothing may be written for those that are dropped. -/
theorem refines_write {ts : List Token} (h : skipsAll ts = 0) : Refines (write ts) (write ts) :=
  .self fun {_ c _ _} hw => by
    cases hw
    exact ⟨List.suffix_rfl, by simp [h]⟩

theorem skipsAll_drop_le (n : Nat) (ts : List Token) : skipsAll (ts.drop n) ≤ skipsAll ts := by
  have hsplit := congrArg skipsAll (List.take_append_drop n ts)
  rw [Token.skipsAll_append] at hsplit
  omega

instance refines_drop (n : Nat) : Refines (drop n) (drop n) :=
  .self fun {_ c _ _} h => by
    cases h
    exact ⟨List.drop_suffix n c.rest, Nat.add_le_add_left (skipsAll_drop_le n c.rest) _⟩

/-- An operator counts what the marks count that it is read from. -/
theorem skipsAll_operator {cs : List Char} {ts : List Token} (h : Look.op.go cs ts = true)
    (span : Span) :
    skipsAll (Token.operator.go span cs) + skipsAll (ts.drop cs.length) = skipsAll ts := by
  fun_induction Look.op.go cs ts with
  | case1 c c' spacing span' ts =>
    rw [Bool.and_eq_true, decide_eq_true_iff] at h
    obtain ⟨rfl, -⟩ := h
    simp [Token.operator.go, skips]
  | case2 c cs hcs c' spacing span' ts ih =>
    simp only [Bool.and_eq_true, decide_eq_true_iff] at h
    obtain ⟨⟨rfl, -⟩, h⟩ := h
    obtain ⟨d, cs, rfl⟩ : ∃ d ds, cs = d :: ds := by
      cases cs with
      | nil => simp [Look.op.go] at h
      | cons d ds => exact ⟨d, ds, rfl⟩
    have hrest := ih h
    -- The mark that is written is the one that is dropped.
    simp only [Token.operator.go, Token.skipsAll_cons, List.length_cons, List.drop_succ_cons,
      skips] at hrest ⊢
    omega
  | case3 => cases h

instance refines_op (text : String) : Refines (op text) (op text) :=
  .self fun {s c d _} h => by
    have heq : op text s c = if Look.op text c.rest then
        .ok (⟨⟩, ⟨c.rest.drop text.length,
          (Token.operator text ((c.rest.head?.map Token.span).getD .nowhere)).reverse ++ c.written,
          c.leftover⟩)
      else failHere ("expected `" ++ text ++ "`") s c := by
      unfold op
      rw [bind_of_ok (show rest s c = .ok (c.rest, c) from rfl)]
      split <;> rfl
    rw [heq] at h
    split at h
    next hlook =>
      cases h
      refine ⟨List.drop_suffix _ _, ?_⟩
      simp only [Token.skipsAll_append, Token.skipsAll_reverse]
      have hcount := skipsAll_operator hlook ((c.rest.head?.map Token.span).getD .nowhere)
      rw [String.length_toList] at hcount
      unfold Token.operator
      omega
    next => cases h

instance refines_op? (text : String) : Refines (op? text) (op? text) := by
  unfold op?
  infer_instance

instance refines_token : Refines token token :=
  .self fun {s c d _} h => by
    obtain ⟨rest, written, leftover⟩ := c
    cases rest with
    | nil =>
      cases h
      exact .refl _
    | cons t ts =>
      cases h
      refine ⟨List.suffix_cons _ _, ?_⟩
      simp only [List.reverse_singleton, List.singleton_append, Token.skipsAll_cons]
      omega

instance refines_word (text : String) : Refines (word text) (word text) := by
  unfold word
  infer_instance

instance refines_word? (text : String) : Refines (word? text) (word? text) := by
  unfold word?
  infer_instance

instance refines_name : Refines name name := by
  refine .andThen fun ts => ?_
  split <;> infer_instance

instance refines_anyWord : Refines anyWord anyWord := by
  refine .andThen fun ts => ?_
  split <;> infer_instance

instance refines_lifetime : Refines lifetime lifetime := by
  unfold lifetime
  infer_instance

instance refines_lifetime? : Refines lifetime? lifetime? := by
  unfold lifetime?
  infer_instance

instance refines_literal : Refines literal literal := by
  refine .andThen fun ts => ?_
  have hsign : ∀ span, Refines (write [.punct '-' .alone span]) _ := fun _ => refines_write rfl
  split <;> infer_instance

/-! ## Groups -/

instance below_inside [Below p p'] (d : Delimiter) (inner : List Token) (span : Span) :
    Below (inside d inner span p) (inside d inner span p') where
  eq_or_void s c := by
    unfold inside
    obtain heq | ⟨e, hp, hvoid⟩ :=
      Below.elim p p' ⟨span.closing⟩ ⟨inner, [], c.leftover⟩
    · rw [heq]
      exact .inl rfl
    · rw [hp]
      exact .inr ⟨e, rfl, hvoid⟩

/-- A group counts what its inside counts. -/
theorem inside_keeps (p' : Parser α) [Refines p p'] {dl : Delimiter} {inner ts : List Token}
    {span : Span} {a : α} (hc : c.rest = .group dl inner span :: ts)
    (h : inside dl inner span p s { c with rest := ts } = .ok (a, d)) : c.Keeps d := by
  unfold inside at h
  split at h
  next => cases h
  next c' hp =>
    have hinside := (Refines.keeps p' hp).total
    simp only [Token.skipsAll_nil, Nat.zero_add] at hinside
    cases h
    refine ⟨?_, ?_⟩
    · rw [hc]
      exact List.suffix_cons _ _
    · simp only [hc, Token.skipsAll_cons, skips, Token.skipsAll_append, Token.skipsAll_reverse]
      omega

/-- A group at the head of the tokens is read whole. -/
theorem group_eq_ok {dl : Delimiter} {a : α} (h : group dl p s c = .ok (a, d)) :
    ∃ inner span ts, c.rest = .group dl inner span :: ts ∧
      inside dl inner span p s { c with rest := ts } = .ok (a, d) := by
  obtain ⟨rest, written, leftover⟩ := c
  obtain ⟨ts, c', hrest, h⟩ := bind_eq_ok h
  cases hrest
  simp only at h
  split at h
  next d' inner span ts _ =>
    split at h
    next hd =>
      subst hd
      exact ⟨inner, span, ts, rfl, h⟩
    next =>
      unfold fail at h
      cases h
  next =>
    unfold fail at h
    split at h <;> cases h

instance refines_group [Refines p p'] (dl : Delimiter) : Refines (group dl p) (group dl p') where
  toBelow := by
    unfold group
    refine @Below.bind _ _ _ _ _ _ _ fun ts => ?_
    split <;> infer_instance
  keeps h := by
    obtain ⟨inner, span, ts, hc, hinside⟩ := group_eq_ok h
    exact inside_keeps p' hc hinside

instance refines_parens [Refines p p'] : Refines (parens p) (parens p') := refines_group _

instance refines_brackets [Refines p p'] : Refines (brackets p) (brackets p') := refines_group _

instance refines_braces [Refines p p'] : Refines (braces p) (braces p') := refines_group _

instance refines_everything : Refines everything everything :=
  .self fun h => by
    cases h
    refine ⟨List.nil_suffix, ?_⟩
    simp only [Token.skipsAll_append, Token.skipsAll_reverse, Token.skipsAll_nil]
    omega

/-! ## Lists -/

instance refines_listUntil [Refines p p'] (stop : List Token → Bool) (separator : String) :
    Refines (listUntil stop separator p) (listUntil stop separator p') := by
  unfold listUntil
  infer_instance

instance refines_commaList [Refines p p'] : Refines (commaList p) (commaList p') :=
  refines_listUntil _ _

instance refines_allOf {item item' : Parser PUnit} [Refines item item'] :
    Refines (allOf item) (allOf item') := by
  unfold allOf
  infer_instance

/-! ## What is written elsewhere -/

theorem detached_eq (p : Parser α) (s : Scope) (c : Cursor) :
    detached p s c = (p s { c with written := [] }).map fun (a, d) =>
      ((a, d.written.reverse), { d with written := c.written }) := by
  unfold detached
  rw [bind_of_ok (show written s c = .ok (c.written, c) from rfl),
    bind_of_ok (show setWritten [] s c = .ok (⟨⟩, { c with written := [] }) from rfl)]
  cases hp : p s { c with written := [] } with
  | ok r =>
    rw [bind_of_ok hp]
    rfl
  | error e =>
    rw [bind_of_error hp]
    rfl

theorem detached_eq_ok {a : α} {ts : List Token} (h : detached p s c = .ok ((a, ts), d)) :
    ∃ d', p s { c with written := [] } = .ok (a, d') ∧ ts = d'.written.reverse ∧
      d = { d' with written := c.written } := by
  rw [detached_eq] at h
  cases hp : p s { c with written := [] } with
  | ok r =>
    rw [hp] at h
    cases h
    exact ⟨r.2, rfl, rfl, rfl⟩
  | error e =>
    rw [hp] at h
    cases h

theorem captured_eq (p : Parser α) (s : Scope) (c : Cursor) :
    captured p s c = (p s { c with written := [] }).map fun (a, d) =>
      ((a, d.written.reverse), { d with written := d.written ++ c.written }) := by
  unfold captured
  cases hp : p s { c with written := [] } with
  | ok r =>
    rw [bind_of_ok ((detached_eq p s c).trans (by rw [hp]; rfl))]
    simp [Except.map, bind_of_ok (show write _ s _ = .ok (⟨⟩, _) from rfl)]
    rfl
  | error e =>
    rw [bind_of_error ((detached_eq p s c).trans (by rw [hp]; rfl))]
    rfl

instance refines_detached [Refines p p'] : Refines (detached p) (detached p') where
  toBelow := by
    unfold detached
    infer_instance
  keeps h := by
    obtain ⟨d', hp, -, rfl⟩ := detached_eq_ok h
    have hkeeps := Refines.keeps p' hp
    exact ⟨hkeeps.suffix, Nat.add_le_add_left hkeeps.rest _⟩

instance refines_captured [Refines p p'] : Refines (captured p) (captured p') where
  toBelow := by
    unfold captured
    infer_instance
  keeps {s c d a} h := by
    rw [captured_eq] at h
    cases hp : p s { c with written := [] } with
    | ok r =>
      have hkeeps := Refines.keeps p' hp
      have htotal := hkeeps.total
      rw [hp] at h
      cases h
      refine ⟨hkeeps.suffix, ?_⟩
      simp only [Token.skipsAll_append, Token.skipsAll_nil, Nat.zero_add] at htotal ⊢
      omega
    | error e =>
      rw [hp] at h
      cases h

theorem taken_eq (p : Parser PUnit) (s : Scope) (c : Cursor) :
    taken p s c = (p s { c with written := [] }).map fun (_, d) =>
      (c.rest.take (c.rest.length - d.rest.length), { d with written := c.written }) := by
  unfold taken
  rw [bind_of_ok (show rest s c = .ok (c.rest, c) from rfl)]
  cases hp : p s { c with written := [] } with
  | ok r =>
    rw [bind_of_ok ((detached_eq p s c).trans (by rw [hp]; rfl))]
    rfl
  | error e =>
    rw [bind_of_error ((detached_eq p s c).trans (by rw [hp]; rfl))]
    rfl

instance refines_taken {p p' : Parser PUnit} [Refines p p'] : Refines (taken p) (taken p') := by
  unfold taken
  infer_instance

end Parser

namespace Grammar

open Graft.Parser

/-- Every parser of `g` is below that of `g'`, and writes no more than it reads. -/
class Refines (g g' : Grammar) : Prop where
  type (plus : Bool) : (g.type plus).Refines (g'.type plus)
  bound (capture const : Bool) : (g.bound capture const).Refines (g'.bound capture const)
  expr (structs : Bool) : (g.expr structs).Refines (g'.expr structs)
  operand (structs : Bool) : (g.operand structs).Refines (g'.operand structs)
  operators (left : ExprForm) (structs : Bool) (base : Nat) :
    (g.operators left structs base).Refines (g'.operators left structs base)
  boundary : g.boundary.Refines g'.boundary
  pattern : g.pattern.Refines g'.pattern
  statements : g.statements.Refines g'.statements
  item : g.item.Refines g'.item
  useTree (root : Bool) : (g.useTree root).Refines (g'.useTree root)

attribute [instance] Refines.type Refines.bound Refines.expr Refines.operand Refines.operators
  Refines.boundary Refines.pattern Refines.statements Refines.item Refines.useTree

end Grammar

end Graft

import Graft.Proofs.Grammar.Blind
import Graft.Proofs.Grammar.Kept

/-!
# Parsers before more tokens

A parser that stops before the end of an item does the same, with the same result, where more tokens
follow.
-/

set_option synthInstance.maxSize 200000

namespace Graft

/-- The cursor with more tokens behind those still to read. -/
def Cursor.before (c : Cursor) (more : List Token) : Cursor := { c with rest := c.rest ++ more }

namespace Parser

variable {α β : Type} {more : List Token} {s : Scope} {c d : Cursor}

/-- `p` reads from the front, and where it stops before the end of an item, `p'` does the same
before more tokens. -/
class Steady (more : List Token) (p p' : Parser α) : Prop where
  suffix {s : Scope} {c d : Cursor} {a : α} : p s c = .ok (a, d) → d.rest <:+ c.rest
  ahead {s : Scope} {c d : Cursor} {a : α} : p s c = .ok (a, d) → HoldsEnd d.rest →
    p' s (c.before more) = .ok (a, d.before more)

variable {p p' q q' : Parser α} {f f' : α → Parser β}

namespace Steady

theorem before (p' : Parser α) [Steady more p p'] {a : α} (h : p s c = .ok (a, d))
    (hend : HoldsEnd d.rest) : p' s (c.before more) = .ok (a, d.before more) :=
  ahead h hend

/-- A parser that reads nothing. -/
theorem of_still (h : ∀ {s c d a}, p s c = .ok (a, d) → d.rest = c.rest ∧
    (HoldsEnd c.rest → p' s (c.before more) = .ok (a, d.before more))) : Steady more p p' where
  suffix hp := by
    obtain ⟨hrest, -⟩ := h hp
    exact hrest ▸ List.suffix_rfl
  ahead hp hend := by
    obtain ⟨hrest, hahead⟩ := h hp
    rw [hrest] at hend
    exact hahead hend

/-- A parser that fails. -/
theorem of_fails (h : ∀ s c, ∃ e, p s c = .error e) : Steady more p p' where
  suffix {s c _ _} hp := by
    obtain ⟨e, he⟩ := h s c
    rw [he] at hp
    cases hp
  ahead {s c _ _} hp := by
    obtain ⟨e, he⟩ := h s c
    rw [he] at hp
    cases hp

instance pure (a : α) : Steady more (Pure.pure a) (Pure.pure a) :=
  of_still fun h => by
    cases h
    exact ⟨rfl, fun _ => rfl⟩

instance pureKept {x x' : Bool} [h : Kept x x'] : Steady more (Pure.pure x) (Pure.pure x') := by
  rw [h.eq]
  infer_instance

instance bind [Steady more p p'] [∀ a, Steady more (f a) (f' a)] :
    Steady more (p >>= f) (p' >>= f') where
  suffix h := by
    obtain ⟨a, m, hp, hf⟩ := bind_eq_ok h
    have hfirst := suffix more p' hp
    have hsecond := suffix more (f' a) hf
    exact hsecond.trans hfirst
  ahead h hend := by
    obtain ⟨a, m, hp, hf⟩ := bind_eq_ok h
    -- What is left in between still holds the end that is left at last.
    have hmiddle : HoldsEnd m.rest := hend.of_suffix (suffix more (f' a) hf)
    rw [bind_of_ok (before p' hp hmiddle)]
    exact before (f' a) hf hend

instance pair {γ : Type} {p p' : Parser (α × β)} {f f' : α × β → Parser γ} [Steady more p p']
    [h : ∀ a b, Steady more (f (a, b)) (f' (a, b))] : Steady more (p >>= f) (p' >>= f') := by
  have hpair : ∀ r, Steady more (f r) (f' r) := fun (a, b) => h a b
  exact bind

/-- A parser that looks at the tokens ahead, which go on with `more`. -/
theorem looking {f f' : List Token → Parser β} (hkeeps : Parser.Refines (rest >>= f) (rest >>= f))
    (h : ∀ e : Ending, Steady more (f e.tokens) (f' (e.tokens ++ more))) :
    Steady more (rest >>= f) (rest >>= f') where
  suffix hp := (hkeeps.keeps hp).suffix
  ahead {s c d b} hp hend := by
    have hrest : HoldsEnd c.rest := hend.of_suffix (hkeeps.keeps hp).suffix
    have hsteady := h ⟨c.rest, hrest⟩
    have hrun : f c.rest s c = .ok (b, d) := hp
    show f' (c.rest ++ more) s (c.before more) = .ok (b, d.before more)
    exact hsteady.ahead hrun hend

/-- The form of `looking` for a parser that is only known to read on from the front, whatever the
tokens that it looks at. -/
theorem lookingOn {f f' : List Token → Parser β} (hfront : ∀ ts, Steady more (f ts) (f ts))
    (h : ∀ e : Ending, Steady more (f e.tokens) (f' (e.tokens ++ more))) :
    Steady more (rest >>= f) (rest >>= f') where
  suffix {s c d b} hp := by
    have hrun : f c.rest s c = .ok (b, d) := hp
    exact (hfront c.rest).suffix hrun
  ahead {s c d b} hp hend := by
    have hrun : f c.rest s c = .ok (b, d) := hp
    have hrest : HoldsEnd c.rest := hend.of_suffix ((hfront c.rest).suffix hrun)
    have hsteady := h ⟨c.rest, hrest⟩
    show f' (c.rest ++ more) s (c.before more) = .ok (b, d.before more)
    exact hsteady.ahead hrun hend

instance (priority := high) look {f f' : List Token → Parser β}
    [hkeeps : Parser.Refines (rest >>= f) (rest >>= f)]
    [h : ∀ e : Ending, Steady more (f e.tokens) (f' (e.tokens ++ more))] :
    Steady more (rest >>= f) (rest >>= f') :=
  looking hkeeps h

instance ite {t : Prop} [Decidable t] [Steady more p p'] [Steady more q q'] :
    Steady more (if t then p else q) (if t then p' else q') := by
  split <;> infer_instance

instance iteKept {x x' : Bool} [h : Kept x x'] [Steady more p p'] [Steady more q q'] :
    Steady more (if x = true then p else q) (if x' = true then p' else q') := by
  rw [h.eq]
  infer_instance

/-- The form of `iteKept` for branches that need proofs of their own; the first stands on the
test. -/
theorem ifElse {x x' : Bool} [h : Kept x x'] (hp : x = true → Steady more p p')
    (hq : Steady more q q') :
    Steady more (if x = true then p else q) (if x' = true then p' else q') := by
  rw [h.eq]
  by_cases hx : x = true
  · have hsteady := hp hx
    infer_instance
  · rw [if_neg hx, if_neg hx]
    exact hq

theorem ifSo {x x' : Bool} [Kept x x'] (hp : x = true → Steady more p p') [Steady more q q'] :
    Steady more (if x = true then p else q) (if x' = true then p' else q') :=
  ifElse hp inferInstance

theorem orElse {x x' : Bool} [Kept x x'] [Steady more p p'] (hq : Steady more q q') :
    Steady more (if x = true then p else q) (if x' = true then p' else q') :=
  ifElse (fun _ => inferInstance) hq

/-- The form of `bind` for a first parser that needs a proof of its own. -/
theorem behind (h : Steady more p p') [∀ a, Steady more (f a) (f' a)] :
    Steady more (p >>= f) (p' >>= f') :=
  bind

/-- The form of `bind` for a second parser that needs a proof of its own. -/
theorem andThen [Steady more p p'] (h : ∀ a, Steady more (f a) (f' a)) :
    Steady more (p >>= f) (p' >>= f') :=
  bind

end Steady

/-! ## Looking and failing -/

instance steady_rest_still : Steady more written written :=
  .of_still fun h => by
    cases h
    exact ⟨rfl, fun _ => rfl⟩

instance steady_setWritten (ts : List Token) : Steady more (setWritten ts) (setWritten ts) :=
  .of_still fun h => by
    cases h
    exact ⟨rfl, fun _ => rfl⟩

instance steady_write (ts : List Token) : Steady more (write ts) (write ts) :=
  .of_still fun h => by
    cases h
    exact ⟨rfl, fun _ => rfl⟩

instance steady_isEmpty : Steady more isEmpty isEmpty :=
  .of_still fun {s c d a} h => by
    cases h
    refine ⟨rfl, fun hend => ?_⟩
    have hkept : Kept c.rest.isEmpty (c.rest ++ more).isEmpty := inferInstance
    show Except.ok ((c.rest ++ more).isEmpty, c.before more) = _
    rw [hkept.eq]

theorem head?_before {ts : List Token} (h : HoldsEnd ts) (more : List Token) :
    (ts ++ more).head? = ts.head? := by
  cases ts with
  | nil => exact absurd h not_holdsEnd_nil
  | cons t ts => rfl

instance steady_place : Steady more place place :=
  .of_still fun {s c d a} h => by
    cases h
    refine ⟨rfl, fun hend => ?_⟩
    show Except.ok ((((c.rest ++ more).head?).map fun t => t.span.first).getD s.finish,
      c.before more) = _
    rw [head?_before hend]

theorem length_le_of_holdsEnd {n : Nat} {ts : List Token} (h : HoldsEnd (ts.drop n)) :
    n ≤ ts.length := by
  by_contra hlong
  have hnil : ts.drop n = [] := List.drop_of_length_le (by omega)
  rw [hnil] at h
  exact not_holdsEnd_nil h

instance steady_drop (n : Nat) : Steady more (drop n) (drop n) where
  suffix {s c d a} h := by
    cases h
    exact List.drop_suffix n c.rest
  ahead {s c d a} h hend := by
    cases h
    have hlength : n ≤ c.rest.length := length_le_of_holdsEnd hend
    show Except.ok (PUnit.unit, { c.before more with rest := (c.rest ++ more).drop n }) = _
    rw [List.drop_append_of_le_length hlength]
    rfl

instance steady_ahead (test : List Token → Bool)
    [h : ∀ e : Ending, Kept (test e.tokens) (test (e.tokens ++ more))] :
    Steady more (Parser.ahead test) (Parser.ahead test) := by
  unfold Parser.ahead
  infer_instance

instance steady_failHere (message : String) (q : Parser α) :
    Steady more (failHere message : Parser α) q :=
  .of_fails fun _ _ => ⟨_, rfl⟩

instance steady_failAt (place : Position) (message : String) (q : Parser α) :
    Steady more (failAt place message : Parser α) q :=
  .of_fails fun _ _ => ⟨_, rfl⟩

instance steady_fail (message : String) (q : Parser α) :
    Steady more (fail message : Parser α) q :=
  .of_fails fun s c => by
    obtain ⟨_ | ⟨t, ts⟩, written, leftover⟩ := c <;> exact ⟨_, rfl⟩

instance steady_expected (things : List String) (q : Parser α) :
    Steady more (expected things : Parser α) q := by
  unfold expected
  split <;> infer_instance

instance steady_default (q : Parser α) : Steady more (default : Parser α) q :=
  .of_fails fun s _ => ⟨⟨s.finish, ""⟩, rfl⟩

/-! ## Repeating -/

section Repeating

variable {step step' : Parser (Option α)} {next next' : α → Parser (Option α)}

theorem length_before (c : Cursor) (more : List Token) :
    (c.before more).rest.length = c.rest.length + more.length :=
  List.length_append

theorem many_go_before (more : List Token) (step' : Parser (Option α)) [Steady more step step']
    {as : List α} (h : many.go step s c = .ok (as, d)) : d.rest <:+ c.rest ∧
      (HoldsEnd d.rest → many.go step' s (c.before more) = .ok (as, d.before more)) := by
  -- Every step but the last leaves fewer tokens, by which the loop ends.
  induction hlength : c.rest.length using Nat.strongRecOn generalizing c as with
  | ind n ih =>
    subst hlength
    cases hstep : step s c with
    | error e =>
      rw [many.go, hstep] at h
      cases h
    | ok r =>
      obtain ⟨o, m⟩ := r
      have hsuffix := Steady.suffix more step' hstep
      cases o with
      | none =>
        rw [many.go, hstep] at h
        cases h
        refine ⟨hsuffix, fun hend => ?_⟩
        rw [many.go, Steady.before step' hstep hend]
      | some a =>
        rw [many_go_of_some hstep] at h
        split at h
        next hfewer =>
          cases hmore : many.go step s m with
          | error e =>
            rw [hmore] at h
            cases h
          | ok r =>
            obtain ⟨as', d'⟩ := r
            rw [hmore] at h
            cases h
            obtain ⟨hrest, hahead⟩ := ih _ hfewer hmore rfl
            refine ⟨hrest.trans hsuffix, fun hend => ?_⟩
            have hmiddle : HoldsEnd m.rest := hend.of_suffix hrest
            rw [many_go_of_some (Steady.before step' hstep hmiddle), if_pos, hahead hend]
            · rfl
            · rw [length_before, length_before]
              omega
        next hfewer =>
          cases h
          refine ⟨hsuffix, fun hend => ?_⟩
          rw [many_go_of_some (Steady.before step' hstep hend), if_neg]
          rw [length_before, length_before]
          omega

instance steady_many [Steady more step step'] : Steady more (many step) (many step') where
  suffix h := (many_go_before more step' h).1
  ahead h := (many_go_before more step' h).2

theorem iterate_go_of_some {a a' : α} (h : next a s c = .ok (some a', d)) :
    iterate.go next s a c =
      if d.rest.length < c.rest.length then iterate.go next s a' d else .ok (a', d) := by
  rw [iterate.go, h]

theorem iterate_go_before (more : List Token) (next' : α → Parser (Option α))
    [∀ a, Steady more (next a) (next' a)] {a b : α}
    (h : iterate.go next s a c = .ok (b, d)) : d.rest <:+ c.rest ∧
      (HoldsEnd d.rest → iterate.go next' s a (c.before more) = .ok (b, d.before more)) := by
  induction hlength : c.rest.length using Nat.strongRecOn generalizing a c with
  | ind n ih =>
    subst hlength
    cases hnext : next a s c with
    | error e =>
      rw [iterate.go, hnext] at h
      cases h
    | ok r =>
      obtain ⟨o, m⟩ := r
      have hsuffix := Steady.suffix more (next' a) hnext
      cases o with
      | none =>
        rw [iterate.go, hnext] at h
        cases h
        refine ⟨hsuffix, fun hend => ?_⟩
        rw [iterate.go, Steady.before (next' b) hnext hend]
      | some a' =>
        rw [iterate_go_of_some hnext] at h
        split at h
        next hfewer =>
          obtain ⟨hrest, hahead⟩ := ih _ hfewer h rfl
          refine ⟨hrest.trans hsuffix, fun hend => ?_⟩
          have hmiddle : HoldsEnd m.rest := hend.of_suffix hrest
          rw [iterate_go_of_some (Steady.before (next' a) hnext hmiddle), if_pos, hahead hend]
          rw [length_before, length_before]
          omega
        next hfewer =>
          cases h
          refine ⟨hsuffix, fun hend => ?_⟩
          rw [iterate_go_of_some (Steady.before (next' a) hnext hend), if_neg]
          rw [length_before, length_before]
          omega

instance steady_iterate [∀ a, Steady more (next a) (next' a)] (a : α) :
    Steady more (iterate next a) (iterate next' a) where
  suffix h := (iterate_go_before more next' h).1
  ahead h := (iterate_go_before more next' h).2

/-- The form of `steady_iterate` for a step that needs a proof of its own. -/
theorem Steady.iterating (h : ∀ a, Steady more (next a) (next' a)) (a : α) :
    Steady more (iterate next a) (iterate next' a) :=
  inferInstance

end Repeating

instance steady_whileReading {step step' : Parser Bool} [Steady more step step'] :
    Steady more (whileReading step) (whileReading step') := by
  unfold whileReading
  infer_instance

instance steady_forIn (xs : List β) (a : α) {f f' : β → α → Parser (ForInStep α)}
    [∀ x a, Steady more (f x a) (f' x a)] : Steady more (forIn xs a f) (forIn xs a f') := by
  induction xs generalizing a with
  | nil =>
    simp only [List.forIn_nil]
    infer_instance
  | cons x xs ih =>
    simp only [List.forIn_cons]
    refine .andThen fun r => ?_
    cases r <;> infer_instance

/-! ## Words and operators -/

theorem op_eq (text : String) (s : Scope) (c : Cursor) : op text s c =
    if Look.op text c.rest then
      .ok (⟨⟩, ⟨c.rest.drop text.length,
        (Token.operator text ((c.rest.head?.map Token.span).getD .nowhere)).reverse ++ c.written,
        c.leftover⟩)
    else failHere ("expected `" ++ text ++ "`") s c := by
  unfold op
  rw [bind_of_ok (show rest s c = .ok (c.rest, c) from rfl)]
  split <;> rfl

instance steady_op (text : String) : Steady more (op text) (op text) where
  suffix h := (Refines.keeps (op text) h).suffix
  ahead {s c d a} h hend := by
    have hrest : HoldsEnd c.rest := hend.of_suffix (Refines.keeps (op text) h).suffix
    have hlook : Look.op text (c.rest ++ more) = Look.op text c.rest := (Look.kept_op text).eq
    rw [op_eq] at h ⊢
    split at h
    next hop =>
      cases h
      have hlength : text.length ≤ c.rest.length := length_le_of_holdsEnd hend
      have hhead : (c.rest ++ more).head? = c.rest.head? := head?_before hrest more
      have hdrop : (c.rest ++ more).drop text.length = c.rest.drop text.length ++ more :=
        List.drop_append_of_le_length hlength
      show (if Look.op text (c.rest ++ more) = true then _ else _) = _
      rw [hlook, if_pos hop]
      show Except.ok (PUnit.unit, Cursor.mk ((c.rest ++ more).drop text.length)
        ((Token.operator text (((c.rest ++ more).head?.map Token.span).getD .nowhere)).reverse ++
          c.written) c.leftover) = _
      rw [hhead, hdrop]
      rfl
    next => cases h

instance steady_op? (text : String) : Steady more (op? text) (op? text) := by
  unfold op?
  infer_instance

instance steady_token : Steady more token token where
  suffix {s c d a} h := (Refines.keeps token h).suffix
  ahead {s c d a} h hend := by
    obtain ⟨rest, written, leftover⟩ := c
    cases rest with
    | nil =>
      cases h
      exact absurd hend not_holdsEnd_nil
    | cons t ts =>
      cases h
      rfl

instance steady_word (text : String) : Steady more (word text) (word text) := by
  unfold word
  infer_instance

instance steady_word? (text : String) : Steady more (word? text) (word? text) := by
  unfold word?
  infer_instance

instance steady_name : Steady more name name := by
  refine .looking refines_name fun e => ?_
  obtain ⟨t, ts, hts⟩ := e.exists_cons
  rw [hts]
  cases t <;> dsimp only [List.cons_append] <;> infer_instance

instance steady_anyWord : Steady more anyWord anyWord := by
  refine .looking refines_anyWord fun e => ?_
  obtain ⟨t, ts, hts⟩ := e.exists_cons
  rw [hts]
  cases t <;> dsimp only [List.cons_append] <;> infer_instance

instance steady_lifetime : Steady more lifetime lifetime := by
  unfold lifetime
  infer_instance

instance steady_lifetime? : Steady more lifetime? lifetime? := by
  unfold lifetime?
  infer_instance

instance steady_literal : Steady more literal literal := by
  have hsign : ∀ span, Refines (write [.punct '-' .alone span]) (write [.punct '-' .alone span]) :=
    fun _ => refines_write rfl
  refine .looking refines_literal fun e => ?_
  obtain ⟨t, ts, hts⟩ := e.exists_cons
  rw [hts]
  cases t <;> dsimp only [List.cons_append] <;> infer_instance

/-! ## Groups -/

theorem inside_rest {a : α} {dl : Delimiter} {inner : List Token} {span : Span}
    (h : inside dl inner span p s c = .ok (a, d)) : d.rest = c.rest := by
  unfold inside at h
  split at h <;> cases h
  rfl

/-- What stands behind a group does not change how its inside is read. -/
theorem inside_before (more : List Token) (dl : Delimiter) (inner : List Token) (span : Span)
    (p : Parser α) (s : Scope) (c : Cursor) : inside dl inner span p s (c.before more) =
      (inside dl inner span p s c).map (Prod.map id (·.before more)) := by
  unfold inside
  dsimp only [Cursor.before]
  cases p ⟨span.closing⟩ ⟨inner, [], c.leftover⟩ <;> rfl

theorem group_before (more : List Token) (dl : Delimiter) (p : Parser α) (s : Scope)
    (hc : HoldsEnd c.rest) :
    group dl p s (c.before more) = (group dl p s c).map (Prod.map id (·.before more)) := by
  obtain ⟨_ | ⟨t, ts⟩, written, leftover⟩ := c
  · exact absurd hc not_holdsEnd_nil
  cases t with
  | group dl' inner span =>
    show (if dl = dl' then drop 1 >>= fun _ => inside dl inner span p else _) s _ =
      ((if dl = dl' then drop 1 >>= fun _ => inside dl inner span p else _) s _).map _
    split
    · exact inside_before more dl inner span p s ⟨ts, written, leftover⟩
    · rfl
  | _ => rfl

theorem group_suffix {a : α} {dl : Delimiter} (h : group dl p s c = .ok (a, d)) :
    d.rest <:+ c.rest := by
  obtain ⟨inner, span, ts, hc, hinside⟩ := group_eq_ok h
  rw [hc, inside_rest hinside]
  exact List.suffix_cons _ _

instance steady_group (dl : Delimiter) (p : Parser α) :
    Steady more (group dl p) (group dl p) where
  suffix h := group_suffix h
  ahead h hend := by
    rw [group_before more dl p _ (hend.of_suffix (group_suffix h)), h]
    rfl

instance steady_parens (p : Parser α) : Steady more (parens p) (parens p) := steady_group _ p

instance steady_brackets (p : Parser α) : Steady more (brackets p) (brackets p) :=
  steady_group _ p

instance steady_braces (p : Parser α) : Steady more (braces p) (braces p) := steady_group _ p

instance steady_listUntil [Steady more p p'] (stop : List Token → Bool)
    [∀ e : Ending, Kept (stop e.tokens) (stop (e.tokens ++ more))] (separator : String) :
    Steady more (listUntil stop separator p) (listUntil stop separator p') := by
  unfold listUntil
  infer_instance

/-! ## What is written elsewhere -/

instance steady_detached [Steady more p p'] : Steady more (detached p) (detached p') := by
  unfold detached
  infer_instance

instance steady_captured [Steady more p p'] : Steady more (captured p) (captured p') := by
  unfold captured
  infer_instance

/-! ## What is seen ahead -/

/-- A parser that reads marks if they are there: it never fails, and reads no end of an item. -/
class ReadsMarks (p : Parser α) : Prop where
  runs (s : Scope) (c : Cursor) : ∃ a d, p s c = .ok (a, d) ∧ (HoldsEnd c.rest → HoldsEnd d.rest)

namespace ReadsMarks

theorem andThen [ReadsMarks p] (h : ∀ a, ReadsMarks (f a)) : ReadsMarks (p >>= f) where
  runs s c := by
    obtain ⟨a, m, hp, hm⟩ := @runs _ p _ s c
    obtain ⟨b, d, hf, hd⟩ := (h a).runs s m
    exact ⟨b, d, by rw [bind_of_ok hp, hf], hd ∘ hm⟩

instance bind [ReadsMarks p] [h : ∀ a, ReadsMarks (f a)] : ReadsMarks (p >>= f) := andThen h

instance pure (a : α) : ReadsMarks (Pure.pure a) := ⟨fun _ c => ⟨a, c, rfl, id⟩⟩

instance ite {t : Prop} [Decidable t] [ReadsMarks p] [ReadsMarks q] :
    ReadsMarks (if t then p else q) := by
  split <;> infer_instance

instance ahead (test : List Token → Bool) : ReadsMarks (ahead test) :=
  ⟨fun _ c => ⟨test c.rest, c, rfl, id⟩⟩

instance word? (text : String) : ReadsMarks (word? text) where
  runs s c := by
    obtain ⟨rest, written, leftover⟩ := c
    rcases rest with _ | ⟨⟨name, span⟩ | _ | _ | _, ts⟩
    case cons.ident =>
      show ∃ a d, (if decide (text = name) then token >>= fun _ => Pure.pure true
        else Pure.pure false) s _ = .ok (a, d) ∧ _
      split
      · exact ⟨_, _, rfl, fun h => h.tail rfl⟩
      · exact ⟨_, _, rfl, id⟩
    all_goals exact ⟨_, _, rfl, id⟩

end ReadsMarks

/-- Marks that are seen ahead are seen before more tokens. -/
instance steady_foresee [Steady more p p'] [ReadsMarks p] :
    Steady more (foresee p) (foresee p') :=
  .of_still fun {s c d a} h => by
    obtain ⟨b, m, hp, hm⟩ := @ReadsMarks.runs _ p _ s { c with leftover := none }
    unfold foresee at h ⊢
    rw [hp] at h
    cases h
    refine ⟨rfl, fun hend => ?_⟩
    have hbefore : p' s (Cursor.before { c with leftover := none } more) =
        .ok (b, m.before more) := Steady.before p' hp (hm hend)
    show (match p' s (Cursor.before { c with leftover := none } more) with
      | .ok (a, _) => Except.ok (some a, c.before more)
      | .error _ => .ok (none, c.before more)) = _
    rw [hbefore]

/-- A group that is seen ahead is seen before more tokens. -/
instance steady_foreseeParens (p : Parser α) :
    Steady more (foresee (parens p)) (foresee (parens p)) :=
  .of_still fun {s c d a} h => by
    have hd : d = c := by
      unfold foresee at h
      split at h <;> cases h <;> rfl
    subst hd
    refine ⟨rfl, fun hend => ?_⟩
    have hbefore := @group_before α { d with leftover := none } more .parenthesis p s hend
    unfold foresee parens at h ⊢
    show (match group .parenthesis p s (Cursor.before { d with leftover := none } more) with
      | .ok (a, _) => Except.ok (some a, d.before more)
      | .error _ => .ok (none, d.before more)) = _
    rw [hbefore]
    split at h
    next hp =>
      cases h
      rw [hp]
      rfl
    next hp =>
      cases h
      rw [hp]
      rfl

end Parser

namespace Grammar

open Graft.Parser

/-- The parsers of `g` that may stand outside of all groups of an item are steady. -/
class Steady (more : List Token) (g : Grammar) : Prop where
  type (plus : Bool) : Parser.Steady more (g.type plus) (g.type plus)
  bound (capture const : Bool) : Parser.Steady more (g.bound capture const) (g.bound capture const)
  expr (structs : Bool) : Parser.Steady more (g.expr structs) (g.expr structs)
  operand (structs : Bool) : Parser.Steady more (g.operand structs) (g.operand structs)
  operators (left : ExprForm) (structs : Bool) (base : Nat) :
    Parser.Steady more (g.operators left structs base) (g.operators left structs base)
  pattern : Parser.Steady more g.pattern g.pattern
  useTree (root : Bool) : Parser.Steady more (g.useTree root) (g.useTree root)

attribute [instance] Steady.type Steady.bound Steady.expr Steady.operand Steady.operators
  Steady.pattern Steady.useTree

end Grammar

end Graft

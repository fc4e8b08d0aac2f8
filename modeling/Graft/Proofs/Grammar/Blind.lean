import Graft.Proofs.Grammar.Alike
import Graft.Proofs.Grammar.Refine

/-!
# Parsers blind to places and blanks

Where tokens stand decides nothing about what is read, and of the blanks between them only those
that part or join the marks of an operator do. On tokens that differ in nothing else a parser gives
the same messages where it fails, and where it does not, values and written tokens that are alike.
-/

set_option synthInstance.maxSize 200000

namespace Graft

open Spaced (unspaced)
open Token (Respaced IsOperator AreOperators)

/-! ## Cursors and results -/

instance : Spaced SyntaxError := ⟨fun e => ⟨.start, e.message⟩⟩

instance alike_error {message message' : String} [h : Alike message message'] (p p' : Position) :
    Alike (SyntaxError.mk p message) ⟨p', message'⟩ :=
  ⟨congrArg (SyntaxError.mk .start) h.eq⟩

/-- Two values that are alike, as one value that a search for instances can name. -/
structure Twins (α : Type) [Spaced α] where
  left : α
  right : α
  alike : Alike left right

/-- Two token sequences that differ in blanks, as one value that a search for instances can name. -/
structure Respacing where
  left : List Token
  right : List Token
  respaced : Token.Respaced left right

attribute [instance] Twins.alike Respacing.respaced

/-- The tokens to read have other blanks between them, and all else is alike. -/
structure Cursor.Respaced (c c' : Cursor) : Prop where
  rest : Token.Respaced c.rest c'.rest
  written : Alike c.written c'.written
  leftover : Alike c.leftover c'.leftover

namespace Parser

variable {α β : Type} [Spaced α] [Spaced β] {s s' : Scope} {c c' d d' : Cursor}

/-- What a parser gives is alike. -/
inductive Agree : Except SyntaxError (α × Cursor) → Except SyntaxError (α × Cursor) → Prop where
  | ok {a a' : α} {d d' : Cursor} : Alike a a' → d.Respaced d' → Agree (.ok (a, d)) (.ok (a', d'))
  | error {e e' : SyntaxError} : Alike e e' → Agree (.error e) (.error e')

/-- On tokens with other blanks between them `p'` does what `p` does. -/
class Blind (p p' : Parser α) : Prop where
  agree (s s' : Scope) {c c' : Cursor} : c.Respaced c' → Agree (p s c) (p' s' c')

variable {p p' : Parser α} {f f' : α → Parser β}

theorem Agree.cases {x x' : Except SyntaxError (α × Cursor)} (h : Agree x x') :
    (∃ a a' d d', x = .ok (a, d) ∧ x' = .ok (a', d') ∧ Alike a a' ∧ d.Respaced d') ∨
      ∃ e e', x = .error e ∧ x' = .error e' ∧ Alike e e' := by
  cases h with
  | ok ha hd => exact .inl ⟨_, _, _, _, rfl, rfl, ha, hd⟩
  | error he => exact .inr ⟨_, _, rfl, rfl, he⟩

namespace Blind

theorem cases (p p' : Parser α) [Blind p p'] (s s' : Scope) (h : c.Respaced c') :
    (∃ a a' d d', p s c = .ok (a, d) ∧ p' s' c' = .ok (a', d') ∧ Alike a a' ∧ d.Respaced d') ∨
      ∃ e e', p s c = .error e ∧ p' s' c' = .error e' ∧ Alike e e' :=
  (agree s s' h).cases

/-- The form of `bind` for a second parser that needs a proof of its own. -/
theorem seq [Blind p p'] (hf : ∀ a a', Alike a a' → Blind (f a) (f' a')) :
    Blind (p >>= f) (p' >>= f') where
  agree s s' c c' h := by
    obtain ⟨a, a', d, d', hp, hp', ha, hd⟩ | ⟨e, e', hp, hp', he⟩ := cases p p' s s' h
    · rw [bind_of_ok hp, bind_of_ok hp']
      exact (hf a a' ha).agree s s' hd
    · rw [bind_of_error hp, bind_of_error hp']
      exact .error he

instance bind [Blind p p'] [hf : ∀ r : Twins α, Blind (f r.left) (f' r.right)] :
    Blind (p >>= f) (p' >>= f') :=
  seq fun a a' h => hf ⟨a, a', h⟩

instance pair {γ : Type} [Spaced γ] {p p' : Parser (α × β)} {f f' : α × β → Parser γ} [Blind p p']
    [hf : ∀ (r : Twins α) (q : Twins β), Blind (f (r.left, q.left)) (f' (r.right, q.right))] :
    Blind (p >>= f) (p' >>= f') :=
  seq fun (a, b) (a', b') h =>
    hf ⟨a, a', ⟨congrArg Prod.fst h.eq⟩⟩ ⟨b, b', ⟨congrArg Prod.snd h.eq⟩⟩

/-- The form of `andThen` for a second parser that needs a proof of its own. -/
theorem step [Spaceless α] [Blind p p'] (hf : ∀ a, Blind (f a) (f' a)) :
    Blind (p >>= f) (p' >>= f') :=
  seq fun a _ h => h.eq_of_spaceless ▸ hf a

/-- The form of `bind` for what holds neither places nor blanks. -/
instance (priority := high) andThen [Spaceless α] [Blind p p'] [hf : ∀ a, Blind (f a) (f' a)] :
    Blind (p >>= f) (p' >>= f') :=
  step hf

/-- The form of `look` for a parser that needs a proof of its own. -/
theorem looking {f f' : List Token → Parser β}
    (hf : ∀ ts ts', Respaced ts ts' → Blind (f ts) (f' ts')) :
    Blind (rest >>= f) (rest >>= f') where
  agree s s' c c' h := (hf c.rest c'.rest h.rest).agree s s' h

/-- A parser that looks at the tokens ahead. -/
instance (priority := 10001) look {f f' : List Token → Parser β}
    [hf : ∀ r : Respacing, Blind (f r.left) (f' r.right)] : Blind (rest >>= f) (rest >>= f') :=
  looking fun ts ts' h => hf ⟨ts, ts', h⟩

instance pure {a a' : α} [h : Alike a a'] : Blind (Pure.pure a : Parser α) (Pure.pure a') :=
  ⟨fun _ _ _ _ hc => .ok h hc⟩

instance ite {t t' : Prop} [Decidable t] [Decidable t'] {q q' : Parser α} [ht : SameTest t t']
    [Blind p p'] [Blind q q'] : Blind (if t then p else q) (if t' then p' else q') := by
  by_cases hyes : t
  · rw [if_pos hyes, if_pos (ht.iff.mp hyes)]
    infer_instance
  · rw [if_neg hyes, if_neg fun hyes' => hyes (ht.iff.mpr hyes')]
    infer_instance

/-- The form of `ite` for a first branch that needs a proof of its own. -/
theorem ifSo {t t' : Prop} [Decidable t] [Decidable t'] {q q' : Parser α} [SameTest t t']
    (h : Blind p p') [Blind q q'] : Blind (if t then p else q) (if t' then p' else q') :=
  inferInstance

/-- The form of `ite` for a second branch that needs a proof of its own. -/
theorem orElse {t t' : Prop} [Decidable t] [Decidable t'] {q q' : Parser α} [SameTest t t']
    [Blind p p'] (h : Blind q q') : Blind (if t then p else q) (if t' then p' else q') :=
  inferInstance

end Blind

variable {ts ts' : List Token}

/-! ## Looking and failing -/

instance blind_written : Blind written written := ⟨fun _ _ _ _ h => .ok h.written h⟩

instance blind_setWritten [h : Alike ts ts'] : Blind (setWritten ts) (setWritten ts') :=
  ⟨fun _ _ _ _ hc => .ok ⟨rfl⟩ { hc with written := h }⟩

instance blind_write [h : Alike ts ts'] : Blind (write ts) (write ts') :=
  ⟨fun _ _ _ _ hc => .ok ⟨rfl⟩ { hc with written := @Alike.append _ _ _ _ _ _ h.reverse hc.written }⟩

instance blind_drop (n : Nat) : Blind (drop n) (drop n) :=
  ⟨fun _ _ _ _ h => .ok ⟨rfl⟩ { h with rest := h.rest.drop n }⟩

instance blind_isEmpty : Blind isEmpty isEmpty :=
  ⟨fun _ _ _ _ h => .ok (@Alike.isEmpty _ _ _ _ h.rest.alike) h⟩

instance blind_next? : Blind next? next? :=
  ⟨fun _ _ ⟨rest, written, leftover⟩ ⟨rest', written', leftover'⟩ ⟨hrest, hwritten, hleftover⟩ => by
    have halike : Alike rest rest' := hrest.alike
    cases rest <;> cases rest'
    · exact .ok ⟨rfl⟩ ⟨hrest, hwritten, hleftover⟩
    · cases hrest
    · cases hrest
    · exact .ok ⟨congrArg some (List.cons.inj halike.eq).1⟩ ⟨hrest.tail, hwritten, hleftover⟩⟩

instance blind_place : Blind place place := ⟨fun _ _ _ _ h => .ok ⟨rfl⟩ h⟩

instance blind_ahead (test test' : List Token → Bool)
    [∀ r : Respacing, Alike (test r.left) (test' r.right)] : Blind (ahead test) (ahead test') := by
  unfold ahead
  infer_instance

instance blind_failHere {message message' : String} [h : Alike message message'] :
    Blind (failHere message : Parser α) (failHere message') :=
  ⟨fun _ _ _ _ _ => .error inferInstance⟩

instance blind_failAt {place place' : Position} {message message' : String}
    [h : Alike message message'] :
    Blind (failAt place message : Parser α) (failAt place' message') :=
  ⟨fun _ _ _ _ _ => .error inferInstance⟩

instance blind_fail {message message' : String} [h : Alike message message'] :
    Blind (fail message : Parser α) (fail message') :=
  ⟨fun s s' ⟨rest, _, _⟩ ⟨rest', _, _⟩ ⟨hrest, _, _⟩ => by
    obtain rfl := h.eq_of_spaceless
    cases rest <;> cases rest'
    · exact .error ⟨rfl⟩
    · cases hrest
    · cases hrest
    · exact .error ⟨rfl⟩⟩

instance blind_expected {things things' : List String} [h : Alike things things'] :
    Blind (expected things : Parser α) (expected things') := by
  obtain rfl := h.eq_of_spaceless
  unfold expected
  split <;> infer_instance

instance blind_default : Blind (default : Parser α) default := ⟨fun _ _ _ _ _ => .error ⟨rfl⟩⟩

instance blind_foresee [Blind p p'] : Blind (foresee p) (foresee p') where
  agree s s' c c' h := by
    have hclear : Cursor.Respaced { c with leftover := none } { c' with leftover := none } :=
      { h with leftover := .refl _ }
    unfold foresee
    obtain ⟨a, a', d, d', hp, hp', ha, -⟩ | ⟨e, e', hp, hp', -⟩ := Blind.cases p p' s s' hclear
    · rw [hp, hp']
      exact .ok inferInstance h
    · rw [hp, hp']
      exact .ok ⟨rfl⟩ h

instance blind_attempt [Blind p p'] : Blind (attempt p) (attempt p') where
  agree s s' c c' h := by
    unfold attempt
    obtain ⟨a, a', d, d', hp, hp', ha, hd⟩ | ⟨e, e', hp, hp', he⟩ := Blind.cases p p' s s' h
    · rw [hp, hp']
      exact .ok inferInstance hd
    · have hmessage : (unspaced e).message = (unspaced e').message := congrArg _ he.eq
      have hvoid : e.isVoid = e'.isVoid := congrArg String.isEmpty hmessage
      rw [hp, hp']
      dsimp only
      rw [hvoid]
      split
      · exact .error he
      · exact .ok ⟨rfl⟩ h

/-! ## Repeating -/

section Repeating

variable {step step' : Parser (Option α)} {next next' : α → Parser (Option α)}

theorem agree_many_go [Blind step step'] (s s' : Scope) (h : c.Respaced c') :
    Agree (many.go step s c) (many.go step' s' c') := by
  -- Every step but the last leaves fewer tokens, by which the loop ends.
  induction hlength : c.rest.length using Nat.strongRecOn generalizing c c' with
  | ind n ih =>
    subst hlength
    obtain ⟨o, o', d, d', hstep, hstep', ho, hd⟩ | ⟨e, e', hstep, hstep', he⟩ :=
      Blind.cases step step' s s' h
    · obtain ⟨rfl, rfl⟩ | ⟨a, a', rfl, rfl, ha⟩ := ho.option
      · rw [many.go, many.go, hstep, hstep']
        exact .ok ⟨rfl⟩ hd
      · rw [many_go_of_some hstep, many_go_of_some hstep', ← h.rest.length_eq, ← hd.rest.length_eq]
        split
        next hfewer =>
          obtain ⟨as, as', m, m', hgo, hgo', has, hm⟩ | ⟨e, e', hgo, hgo', he⟩ :=
            (ih _ hfewer hd rfl).cases
          · rw [hgo, hgo']
            exact .ok inferInstance hm
          · rw [hgo, hgo']
            exact .error he
        next => exact .ok inferInstance hd
    · rw [many.go, many.go, hstep, hstep']
      exact .error he

instance blind_many [Blind step step'] : Blind (many step) (many step') :=
  ⟨fun s s' _ _ => agree_many_go s s'⟩

theorem agree_iterate_go [∀ r : Twins α, Blind (next r.left) (next' r.right)] (s s' : Scope)
    {a a' : α} (ha : Alike a a') (h : c.Respaced c') :
    Agree (iterate.go next s a c) (iterate.go next' s' a' c') := by
  induction hlength : c.rest.length using Nat.strongRecOn generalizing a a' c c' with
  | ind n ih =>
    subst hlength
    have hnext : Blind (next a) (next' a') := inferInstanceAs
      (Blind (next (Twins.mk a a' ha).left) (next' (Twins.mk a a' ha).right))
    rw [iterate.go, iterate.go]
    obtain ⟨o, o', d, d', hstep, hstep', ho, hd⟩ | ⟨e, e', hstep, hstep', he⟩ :=
      Blind.cases (next a) (next' a') s s' h
    · obtain ⟨rfl, rfl⟩ | ⟨b, b', rfl, rfl, hb⟩ := ho.option
      · rw [hstep, hstep']
        exact .ok ha hd
      · rw [hstep, hstep']
        dsimp only
        rw [← h.rest.length_eq, ← hd.rest.length_eq]
        split
        next hfewer => exact ih _ hfewer hb hd rfl
        next => exact .ok hb hd
    · rw [hstep, hstep']
      exact .error he

instance blind_iterate [Spaceless α] [hnext : ∀ a, Blind (next a) (next' a)] {a a' : α}
    [h : Alike a a'] : Blind (iterate next a) (iterate next' a') := by
  have hsame : ∀ r : Twins α, Blind (next r.left) (next' r.right) := fun r =>
    r.alike.eq_of_spaceless ▸ hnext r.left
  exact ⟨fun s s' _ _ => agree_iterate_go s s' h⟩

end Repeating

instance blind_whileReading {step step' : Parser Bool} [Blind step step'] :
    Blind (whileReading step) (whileReading step') := by
  unfold whileReading
  infer_instance

omit [Spaced β] in
/-- Each pass of a loop over known values does the same. -/
theorem blind_forIn_of_mem [Spaceless α] {xs : List β} (a : α) {f f' : β → α → Parser (ForInStep α)}
    (hf : ∀ x ∈ xs, ∀ a, Blind (f x a) (f' x a)) : Blind (forIn xs a f) (forIn xs a f') := by
  induction xs generalizing a with
  | nil =>
    simp only [List.forIn_nil]
    infer_instance
  | cons x xs ih =>
    simp only [List.forIn_cons]
    have hfirst := hf x List.mem_cons_self a
    refine .step fun r => ?_
    cases r with
    | done a => infer_instance
    | yield a => exact ih a fun y hy => hf y (List.mem_cons_of_mem x hy)

omit [Spaced β] in
instance blind_forIn [Spaceless α] (xs : List β) (a : α) {f f' : β → α → Parser (ForInStep α)}
    [hf : ∀ x a, Blind (f x a) (f' x a)] : Blind (forIn xs a f) (forIn xs a f') :=
  blind_forIn_of_mem a fun x _ => hf x

/-! ## Words and operators -/

instance alike_operator (op : String) (span span' : Span) :
    Alike (Token.operator op span) (Token.operator op span') := by
  have hgo : ∀ cs,
      unspaced (Token.operator.go span cs) = unspaced (Token.operator.go span' cs) := by
    intro cs
    induction cs with
    | nil => rfl
    | cons c cs ih =>
      cases cs with
      | nil => rfl
      | cons d cs => exact congrArg (Token.punct c .alone .nowhere :: ·) ih
  exact ⟨hgo op.toList⟩

instance blind_op (text : String) [IsOperator text] : Blind (op text) (op text) := by
  unfold op
  infer_instance

instance blind_op? (text : String) [IsOperator text] : Blind (op? text) (op? text) := by
  unfold op?
  infer_instance

instance blind_token : Blind token token := by
  refine .seq fun t t' ht => ?_
  obtain ⟨rfl, rfl⟩ | ⟨t, t', rfl, rfl, ht⟩ := ht.option
  · exact inferInstanceAs (Blind (Pure.pure _) (Pure.pure _))
  · exact inferInstanceAs (Blind (write [t]) (write [t']))

instance blind_word (text : String) : Blind (word text) (word text) := by
  unfold word
  infer_instance

instance blind_word? (text : String) : Blind (word? text) (word? text) := by
  unfold word?
  infer_instance

instance blind_name : Blind name name := by
  refine .looking fun ts ts' hts => ?_
  cases hts <;> dsimp only <;> infer_instance

instance blind_anyWord : Blind anyWord anyWord := by
  refine .looking fun ts ts' hts => ?_
  cases hts <;> dsimp only <;> infer_instance

instance blind_lifetime : Blind lifetime lifetime := by
  unfold lifetime
  infer_instance

instance blind_lifetime? : Blind lifetime? lifetime? := by
  unfold lifetime?
  infer_instance

instance blind_literal : Blind literal literal := by
  refine .looking fun ts ts' hts => ?_
  cases hts <;> dsimp only <;> infer_instance

/-! ## Groups -/

/-- What is said of a token left unread does not depend on where it stands. -/
theorem alike_leftover {o o' : Option SyntaxError} (h : Alike o o') (hts : Respaced ts ts')
    (message : String) :
    Alike (o <|> ts.head?.map fun t => (⟨t.span.first, message⟩ : SyntaxError))
      (o' <|> ts'.head?.map fun t => (⟨t.span.first, message⟩ : SyntaxError)) := by
  obtain ⟨rfl, rfl⟩ | ⟨e, e', rfl, rfl, he⟩ := h.option
  · cases hts <;> exact ⟨rfl⟩
  · exact inferInstanceAs (Alike (some e) (some e'))

instance blind_inside [Blind p p'] (dl : Delimiter) (span span' : Span) [h : Respaced ts ts'] :
    Blind (inside dl ts span p) (inside dl ts' span' p') where
  agree s s' c c' hc := by
    have hinner : Cursor.Respaced ⟨ts, [], c.leftover⟩ ⟨ts', [], c'.leftover⟩ :=
      ⟨h, .refl _, hc.leftover⟩
    unfold inside
    obtain ⟨a, a', d, d', hp, hp', ha, hd⟩ | ⟨e, e', hp, hp', he⟩ :=
      Blind.cases p p' ⟨span.closing⟩ ⟨span'.closing⟩ hinner
    · rw [hp, hp']
      have hinside := @Alike.append _ _ _ _ _ _ hd.written.reverse hd.rest.alike
      have hgroup : Alike (Token.group dl (d.written.reverse ++ d.rest) span)
          (.group dl (d'.written.reverse ++ d'.rest) span') := inferInstance
      exact .ok ha ⟨hc.rest, @Alike.cons _ _ _ _ _ _ hgroup hc.written,
        alike_leftover hd.leftover hd.rest _⟩
    · rw [hp, hp']
      exact .error he

instance blind_group [Blind p p'] (dl : Delimiter) : Blind (group dl p) (group dl p') := by
  refine .looking fun ts ts' hts => ?_
  cases hts <;> dsimp only <;> infer_instance

instance blind_parens [Blind p p'] : Blind (parens p) (parens p') := blind_group _

instance blind_brackets [Blind p p'] : Blind (brackets p) (brackets p') := blind_group _

instance blind_braces [Blind p p'] : Blind (braces p) (braces p') := blind_group _

instance blind_everything : Blind everything everything :=
  ⟨fun _ _ _ _ h => .ok ⟨rfl⟩
    ⟨.nil, @Alike.append _ _ _ _ _ _ h.rest.alike.reverse h.written, h.leftover⟩⟩

/-! ## Lists -/

instance blind_listUntil [Blind p p'] (stop : List Token → Bool)
    [∀ r : Respacing, Alike (stop r.left) (stop r.right)] (separator : String)
    [IsOperator separator] : Blind (listUntil stop separator p) (listUntil stop separator p') := by
  unfold listUntil
  infer_instance

instance blind_commaList [Blind p p'] : Blind (commaList p) (commaList p') :=
  blind_listUntil _ _

instance blind_allOf {item item' : Parser PUnit} [Blind item item'] :
    Blind (allOf item) (allOf item') := by
  unfold allOf
  infer_instance

/-! ## What is written elsewhere -/

instance blind_detached [Blind p p'] : Blind (detached p) (detached p') where
  agree s s' c c' h := by
    have hclear : Cursor.Respaced { c with written := [] } { c' with written := [] } :=
      { h with written := .refl _ }
    rw [detached_eq, detached_eq]
    obtain ⟨a, a', d, d', hp, hp', ha, hd⟩ | ⟨e, e', hp, hp', he⟩ := Blind.cases p p' s s' hclear
    · rw [hp, hp']
      exact .ok (@Alike.pair _ _ _ _ _ _ _ _ ha hd.written.reverse) { hd with written := h.written }
    · rw [hp, hp']
      exact .error he

instance blind_captured [Blind p p'] : Blind (captured p) (captured p') := by
  unfold captured
  infer_instance

instance blind_taken {p p' : Parser PUnit} [Blind p p'] : Blind (taken p) (taken p') where
  agree s s' c c' h := by
    have hclear : Cursor.Respaced { c with written := [] } { c' with written := [] } :=
      { h with written := .refl _ }
    rw [taken_eq, taken_eq]
    obtain ⟨a, a', d, d', hp, hp', -, hd⟩ | ⟨e, e', hp, hp', he⟩ := Blind.cases p p' s s' hclear
    · rw [hp, hp']
      have htaken : Alike (c.rest.take (c.rest.length - d.rest.length))
          (c'.rest.take (c'.rest.length - d'.rest.length)) := by
        rw [h.rest.length_eq, hd.rest.length_eq]
        exact h.rest.alike.take _
      exact .ok htaken { hd with written := h.written }
    · rw [hp, hp']
      exact .error he

/-- On tokens with other blanks a parser of all tokens gives what is alike. -/
theorem run_respaced (p p' : Parser α) [Blind p p'] (h : Respaced ts ts') :
    (∃ a a', run p ts = .ok a ∧ run p' ts' = .ok a' ∧ Alike a a') ∨
      ∃ e e', run p ts = .error e ∧ run p' ts' = .error e' := by
  have hstart : Cursor.Respaced ⟨ts, [], none⟩ ⟨ts', [], none⟩ := ⟨h, .refl _, .refl _⟩
  unfold run
  obtain ⟨a, a', ⟨rest, written, leftover⟩, ⟨rest', written', leftover'⟩, hp, hp', ha, hrest, -,
    hleftover⟩ | ⟨e, e', hp, hp', -⟩ := Blind.cases p p' ⟨.start⟩ ⟨.start⟩ hstart
  · rw [hp, hp']
    obtain ⟨rfl, rfl⟩ | ⟨e, e', rfl, rfl, -⟩ := hleftover.option
    · cases hrest with
      | nil => exact .inl ⟨a, a', rfl, rfl, ha⟩
      | _ => exact .inr ⟨_, _, rfl, rfl⟩
    · exact .inr ⟨e, e', rfl, rfl⟩
  · rw [hp, hp']
    exact .inr ⟨e, e', rfl, rfl⟩

end Parser

namespace Grammar

open Graft.Parser

/-- Every parser of `g'` does on tokens with other blanks what that of `g` does. -/
class Blind (g g' : Grammar) : Prop where
  type (plus : Bool) : (g.type plus).Blind (g'.type plus)
  bound (capture const : Bool) : (g.bound capture const).Blind (g'.bound capture const)
  expr (structs : Bool) : (g.expr structs).Blind (g'.expr structs)
  operand (structs : Bool) : (g.operand structs).Blind (g'.operand structs)
  operators (left : ExprForm) (structs : Bool) (base : Nat) :
    (g.operators left structs base).Blind (g'.operators left structs base)
  boundary : g.boundary.Blind g'.boundary
  pattern : g.pattern.Blind g'.pattern
  statements : g.statements.Blind g'.statements
  item : g.item.Blind g'.item
  useTree (root : Bool) : (g.useTree root).Blind (g'.useTree root)

attribute [instance] Blind.type Blind.bound Blind.expr Blind.operand Blind.operators Blind.boundary
  Blind.pattern Blind.statements Blind.item Blind.useTree

end Grammar

end Graft

import Graft.Proofs.Grammar.RefineItem

/-!
# Types in parentheses and behind the marks of a pointer

What is read as a type is read as that type inside parentheses. Behind the marks of a pointer no sum
of bounds is read; a type that is read there is the type that is read alone.
-/

namespace Graft

open Token (skipsAll)

/-- A type in parentheses. -/
def TypeTree.inParens (t : TypeTree) : TypeTree :=
  .mk [.group .parenthesis t.tokens .nowhere] (.paren t)

/-- A pointer to a type; `kind` is `const` or `mut`. -/
def TypeTree.pointer (kind : String) (t : TypeTree) : TypeTree :=
  .mk (Token.mark '*' :: Token.word kind :: t.tokens) (.pointer t)

/-- Whether a type is put together from others. -/
def TypeShape.IsFormed {α : Type} : TypeShape α → Prop
  | .paren _ | .pointer _ | .function .. => True
  | _ => False

namespace Grammar

open Graft.Parser

variable {g g' : Grammar} {plus : Bool} {ts : List Token} {t u : TypeTree} {s : Scope}
  {c d : Cursor} {shape : TypeShape TypeTree}

/-! ## Reading all of the tokens -/

/-- All of the tokens are read as the type, by a grammar whose parts `g` reads. -/
def ReadsType (g : Grammar) (plus : Bool) (ts : List Token) (t : TypeTree) : Prop :=
  g.typeShape plus ⟨.start⟩ ⟨ts, [], none⟩ = .ok (t.shape, ⟨[], t.tokens.reverse, none⟩)

theorem typeTree_eq (g : Grammar) (plus : Bool) (s : Scope) (c : Cursor) : g.typeTree plus s c =
    (g.typeShape plus s { c with written := [] }).map fun (shape, d) =>
      (.mk d.written.reverse shape, { d with written := d.written ++ c.written }) := by
  unfold typeTree
  cases h : g.typeShape plus s { c with written := [] } with
  | ok r => rw [bind_of_ok ((captured_eq _ s c).trans (by rw [h]; rfl))]; rfl
  | error e => rw [bind_of_error ((captured_eq _ s c).trans (by rw [h]; rfl))]; rfl

theorem ReadsType.typeTree (h : ReadsType g plus ts t) (written : List Token) :
    g.typeTree plus ⟨.start⟩ ⟨ts, written, none⟩ =
      .ok (t, ⟨[], t.tokens.reverse ++ written, none⟩) := by
  rw [typeTree_eq, show g.typeShape plus ⟨.start⟩ ⟨ts, [], none⟩ = _ from h]
  simp only [Except.map, List.reverse_reverse]
  cases t
  rfl

theorem readsType_of_typeTree {written before : List Token}
    (h : g.typeTree plus ⟨.start⟩ ⟨ts, before, none⟩ = .ok (t, ⟨[], written, none⟩)) :
    ReadsType g plus ts t ∧ written = t.tokens.reverse ++ before := by
  rw [typeTree_eq] at h
  cases hshape : g.typeShape plus ⟨.start⟩ ⟨ts, [], none⟩ with
  | ok r =>
    obtain ⟨shape, ⟨rest, tokens, leftover⟩⟩ := r
    rw [hshape] at h
    simp only [Except.map, Except.ok.injEq, Prod.mk.injEq, Cursor.mk.injEq] at h
    obtain ⟨rfl, rfl, rfl, rfl⟩ := h
    refine ⟨?_, by rw [TypeTree.tokens, List.reverse_reverse]⟩
    rw [ReadsType, hshape, TypeTree.tokens, List.reverse_reverse]
    rfl
  | error e =>
    rw [hshape] at h
    cases h

/-- A type is read by the grammar of a depth that grows with the number of its tokens. -/
theorem ofTokens_eq_ok_iff : TypeTree.ofTokens ts = .ok t ↔
    ReadsType (level (6 * Token.sizeAll ts + 5)) true ts t := by
  have hrun : TypeTree.ofTokens ts =
      run ((level (6 * Token.sizeAll ts + 5)).typeTree true) ts := rfl
  rw [hrun, run]
  constructor
  · intro h
    split at h
    · cases h
    next u d hread =>
      obtain ⟨rest, written, leftover⟩ := d
      cases leftover with
      | some e => cases h
      | none =>
        cases rest with
        | cons t rest => cases h
        | nil =>
          obtain rfl := Except.ok.inj h
          exact (readsType_of_typeTree hread).1
  · intro h
    rw [h.typeTree]

/-- More levels read the same type. -/
theorem ReadsType.deeper {m n : Nat} (hmn : m ≤ n) (h : ReadsType (level m) plus ts t) :
    ReadsType (level n) plus ts t := by
  have := refines_level hmn
  exact Below.ok h

theorem ReadsType.unique {m n : Nat} (h : ReadsType (level m) plus ts t)
    (h' : ReadsType (level n) plus ts u) : t = u := by
  have hsame := (h.deeper (Nat.le_add_right m n)).symm.trans (h'.deeper (Nat.le_add_left n m))
  simp only [Except.ok.injEq, Prod.mk.injEq, Cursor.mk.injEq, List.reverse_inj] at hsame
  obtain ⟨tokens, shape⟩ := t
  obtain ⟨tokens', shape'⟩ := u
  obtain ⟨hshape, -, htokens, -⟩ := hsame
  exact congrArg₂ TypeTree.mk htokens hshape

/-- What a type is written with counts no more than what it is read from. -/
theorem ReadsType.skips_le {n : Nat} (h : ReadsType (level n) plus ts t) :
    skipsAll t.tokens ≤ skipsAll ts := by
  have := refines_level (Nat.le_refl n)
  have hkeeps := (Refines.keeps ((level n).typeShape plus) h).total
  simpa using hkeeps

/-! ## In parentheses -/

theorem parens_eq (p : Parser ParenContent) (ts : List Token) (s : Scope) :
    parens p s ⟨[.group .parenthesis ts .nowhere], [], none⟩ =
      inside .parenthesis ts .nowhere p s ⟨[], [], none⟩ := rfl

/-- A sum of bounds that starts with a lifetime. -/
def lifetimeSum (g : Grammar) : Parser PUnit := do g.traitSum (← place) true

theorem lifetime_eq (hts : Look.lifetime ts = true) : ∃ span name span' more,
    ts = .punct '\'' .joint span :: .ident name span' :: more := by
  unfold Look.lifetime at hts
  split at hts
  next => exact ⟨_, _, _, _, rfl⟩
  next => cases hts

theorem typeShape_lifetime (hts : Look.lifetime c.rest = true) :
    g.typeShape plus s c =
      (g.lifetimeSum >>= fun _ => Pure.pure (TypeShape.bareBounds false)) s c := by
  obtain ⟨rest, written, leftover⟩ := c
  obtain ⟨span, name, span', more, rfl⟩ := lifetime_eq hts
  rfl

theorem parenContent_of_lifetime (hts : Look.lifetime c.rest = true) :
    g.parenContent s c = (captured g.lifetimeSum >>= fun (_, read) =>
      Pure.pure (ParenContent.bounds (.mk read (.bareBounds false)))) s c := by
  obtain ⟨rest, written, leftover⟩ := c
  obtain ⟨span, name, span', more, rfl⟩ := lifetime_eq hts
  rfl

theorem ReadsType.ne_nil (h : ReadsType g plus ts t) : ts ≠ [] := by
  rintro rfl
  cases h

theorem ReadsType.not_maybe (h : ReadsType g plus ts t) : Look.op "?" ts = false := by
  by_contra hmaybe
  rw [Bool.not_eq_false] at hmaybe
  cases ts with
  | nil => cases hmaybe
  | cons first more =>
    cases first with
    | punct mark spacing span =>
      obtain rfl : mark = '?' := by simpa [Look.op, Look.op.go, eq_comm] using hmaybe
      cases h
    | _ => cases hmaybe

instance refines_lifetimeSum [Refines g g'] : g.lifetimeSum.Refines g'.lifetimeSum := by
  unfold lifetimeSum
  infer_instance

/-- What is read alone is read between parentheses. -/
theorem ReadsType.parenContent {n : Nat} (h : ReadsType (level n) true ts t) :
    ∃ content, (level (n + 1)).parenContent ⟨.start⟩ ⟨ts, [], none⟩ =
      .ok (content, ⟨[], t.tokens.reverse, none⟩) ∧ (content = .bounds t ∨ content = .type t) := by
  by_cases hlifetime : Look.lifetime ts = true
  · -- A lifetime starts a sum of bounds in either place.
    have hrefines := refines_level (Nat.le_succ n)
    rw [ReadsType, typeShape_lifetime hlifetime] at h
    obtain ⟨_, d, hsum, hd⟩ := bind_eq_ok h
    obtain ⟨hshape, rfl⟩ := Prod.mk.inj (Except.ok.inj hd)
    have hdeeper : (level (n + 1)).lifetimeSum ⟨.start⟩ ⟨ts, [], none⟩ = _ := Below.ok hsum
    have hcaptured := captured_eq (level (n + 1)).lifetimeSum ⟨.start⟩ ⟨ts, [], none⟩
    rw [hdeeper] at hcaptured
    obtain ⟨tokens, shape⟩ := t
    obtain rfl : TypeShape.bareBounds false = shape := hshape
    refine ⟨.bounds (.mk tokens (.bareBounds false)), ?_, .inl rfl⟩
    rw [parenContent_of_lifetime hlifetime, bind_of_ok hcaptured]
    simp only [List.append_nil, TypeTree.tokens, List.reverse_reverse]
    rfl
  · have hempty : ts.isEmpty = false := by simpa using h.ne_nil
    have htype := h.typeTree []
    rw [List.append_nil] at htype
    refine ⟨.type t, ?_, .inr rfl⟩
    unfold Grammar.parenContent
    rw [bind_of_ok (show rest _ _ = .ok (ts, _) from rfl)]
    simp only [hempty, hlifetime, h.not_maybe, Bool.false_eq_true, if_false]
    exact bind_of_ok htype

theorem ReadsType.inParens {n : Nat} (h : ReadsType (level n) true ts t) (plus : Bool) :
    ReadsType (level (n + 1)) plus [.group .parenthesis ts .nowhere] t.inParens := by
  obtain ⟨content, hread, hcontent⟩ := h.parenContent
  have hparens : parens (level (n + 1)).parenContent ⟨.start⟩
      ⟨[.group .parenthesis ts .nowhere], [], none⟩ =
      .ok (content, ⟨[], t.inParens.tokens.reverse, none⟩) := by
    rw [parens_eq, inside, show (⟨Span.nowhere.closing⟩ : Scope) = ⟨.start⟩ from rfl, hread]
    simp only [List.append_nil, List.reverse_reverse]
    rfl
  have hshape : (level (n + 1)).typeShape plus ⟨.start⟩
      ⟨[.group .parenthesis ts .nowhere], [], none⟩ =
      (level (n + 1)).parenType plus ⟨.start⟩ ⟨[.group .parenthesis ts .nowhere], [], none⟩ := rfl
  rw [ReadsType, hshape, parenType, bind_of_ok hparens]
  rcases hcontent with rfl | rfl
  · rfl
  · cases plus
    · rfl
    · cases hsum : startsSum t <;> simp only [hsum] <;> rfl

/-! ## Behind the marks of a pointer -/

theorem typeShape_pointer {kind : String} (hkind : kind = "const" ∨ kind = "mut") (g : Grammar)
    (plus : Bool) (ts : List Token) :
    g.typeShape plus ⟨.start⟩ ⟨Token.mark '*' :: Token.word kind :: ts, [], none⟩ =
      (g.type false >>= fun t => Pure.pure (TypeShape.pointer t)) ⟨.start⟩
        ⟨ts, [Token.word kind, Token.mark '*'], none⟩ := by
  rcases hkind with rfl | rfl <;> rfl

theorem ReadsType.pointer {n : Nat} {kind : String} (h : ReadsType (level n) false ts t)
    (hkind : kind = "const" ∨ kind = "mut") (plus : Bool) :
    ReadsType (level (n + 1)) plus (Token.mark '*' :: Token.word kind :: ts) (t.pointer kind) := by
  have htype : (level (n + 1)).type false ⟨.start⟩ ⟨ts, [Token.word kind, Token.mark '*'], none⟩ =
    _ := h.typeTree _
  rw [ReadsType, typeShape_pointer hkind, bind_of_ok htype]
  simp only [TypeTree.pointer, TypeTree.tokens, TypeTree.shape, List.reverse_cons,
    List.append_assoc, List.cons_append, List.nil_append]
  rfl

/-- What is read behind the marks of a pointer is a pointer to what is read there. -/
theorem ReadsType.pointee {n : Nat} {kind : String}
    (h : ReadsType (level (n + 1)) plus (Token.mark '*' :: Token.word kind :: ts) u)
    (hkind : kind = "const" ∨ kind = "mut") :
    ∃ t, ReadsType (level n) false ts t ∧ u = t.pointer kind := by
  rw [ReadsType, typeShape_pointer hkind] at h
  obtain ⟨t, d, htype, hd⟩ := bind_eq_ok h
  obtain ⟨hshape, rfl⟩ := Prod.mk.inj (Except.ok.inj hd)
  obtain ⟨hreads, hwritten⟩ := readsType_of_typeTree htype
  refine ⟨t, hreads, ?_⟩
  obtain ⟨tokens, shape⟩ := u
  obtain rfl : TypeShape.pointer t = shape := hshape
  rw [← List.reverse_inj, TypeTree.tokens, List.reverse_reverse] at hwritten
  rw [hwritten]
  simp [TypeTree.pointer]

end Grammar

/-! ## At the end of the tokens -/

namespace Parser

variable {α β : Type} {p p' : Parser α} {f f' : α → Parser β}

/-- Where `p` reads all of the tokens, `p'` reads them in the same way. -/
class AtEnd (p p' : Parser α) : Prop where
  same {s : Scope} {c d : Cursor} {a : α} : p s c = .ok (a, d) → d.rest = [] →
    p' s c = .ok (a, d)

/-- A parser that reads nothing. -/
class Still (p : Parser α) : Prop where
  rest {s : Scope} {c d : Cursor} {a : α} : p s c = .ok (a, d) → d.rest = c.rest

namespace Still

instance pure (a : α) : Still (Pure.pure a) := ⟨fun h => by cases h; rfl⟩

instance failAt (place : Position) (message : String) : Still (failAt place message : Parser α) :=
  ⟨fun h => by cases h⟩

instance bind [Still p] [∀ a, Still (f a)] : Still (p >>= f) where
  rest h := by
    obtain ⟨a, c', hp, hf⟩ := bind_eq_ok h
    exact (Still.rest hf).trans (Still.rest hp)

instance ite {c : Prop} [Decidable c] {q : Parser α} [Still p] [Still q] :
    Still (if c then p else q) := by
  split <;> infer_instance

end Still

namespace AtEnd

instance (priority := low) refl (p : Parser α) : AtEnd p p := ⟨fun h _ => h⟩

instance bind [∀ a, AtEnd (f a) (f' a)] : AtEnd (p >>= f) (p >>= f') where
  same h hd := by
    obtain ⟨a, c', hp, hf⟩ := bind_eq_ok h
    exact (bind_of_ok hp).trans (same hf hd)

/-- What is behind the last token reads nothing. -/
instance before [AtEnd p p'] [∀ a, Still (f a)] : AtEnd (p >>= f) (p' >>= f) where
  same h hd := by
    obtain ⟨a, c', hp, hf⟩ := bind_eq_ok h
    exact (bind_of_ok (same hp ((Still.rest hf).symm.trans hd))).trans hf

instance ite {c : Prop} [Decidable c] {q q' : Parser α} [AtEnd p p'] [AtEnd q q'] :
    AtEnd (if c then p else q) (if c then p' else q') := by
  split <;> infer_instance

theorem ofRest {f f' : List Token → Parser β}
    (h : ∀ {s c d b}, f c.rest s c = .ok (b, d) → d.rest = [] → f' c.rest s c = .ok (b, d)) :
    AtEnd (rest >>= f) (rest >>= f') where
  same := h

end AtEnd

end Parser

namespace Grammar

open Graft.Parser

variable {g : Grammar} {plus : Bool} {ts : List Token} {t : TypeTree} {s : Scope} {c d : Cursor}
  {shape : TypeShape TypeTree}

/-! ## Sums of bounds -/

/-- The further bounds of a sum. -/
def moreSum (g : Grammar) (plus capture const : Bool) : Parser (List BoundForm) :=
  many do
    if plus && (← ahead (Look.op "+")) then
      op "+"
      if ← ahead (startsBound const) then return some (← g.bound capture const) else return none
    else return none

theorem moreSum_false {capture const : Bool} :
    g.moreSum false capture const s c = .ok ([], c) :=
  many_of_none rfl

theorem moreSum_nil {capture const : Bool} (hc : c.rest = []) :
    g.moreSum plus capture const s c = .ok ([], c) := by
  obtain ⟨rest, written, leftover⟩ := c
  obtain rfl : rest = [] := hc
  cases plus <;> exact many_of_none rfl

instance atEnd_moreSum (capture const : Bool) :
    (g.moreSum false capture const).AtEnd (g.moreSum true capture const) where
  same h hd := by
    rw [moreSum_false] at h
    obtain ⟨rfl, rfl⟩ := Prod.mk.inj (Except.ok.inj h)
    exact moreSum_nil hd

instance atEnd_boundSum (capture const : Bool) :
    (g.boundSum false capture const).AtEnd (g.boundSum true capture const) := by
  have hsum : ∀ plus, g.boundSum plus capture const = (do
      let first ← g.bound capture const
      let others ← g.moreSum plus capture const
      return first :: others) := fun _ => rfl
  rw [hsum, hsum]
  infer_instance

instance atEnd_traitSum (start : Position) :
    (g.traitSum start false).AtEnd (g.traitSum start true) := by
  unfold traitSum
  infer_instance

instance atEnd_implType : (g.implType false).AtEnd (g.implType true) := by
  unfold implType
  infer_instance

theorem moreBounds_nil (hc : c.rest = []) : g.moreBounds s c = .ok (false, c) := by
  obtain ⟨rest, written, leftover⟩ := c
  obtain rfl : rest = [] := hc
  exact bind_of_ok (whileReading_of_false rfl)

instance atEnd_pathType (bound : Bool) :
    (g.pathType false bound).AtEnd (g.pathType true bound) := by
  unfold pathType
  refine @AtEnd.bind _ _ _ _ _ fun found => ?_
  cases found with
  | none => infer_instance
  | some p =>
    refine AtEnd.ofRest fun {s c d b} h hd => ?_
    split at h
    next hmacro => rw [if_pos hmacro, h]
    next hmacro =>
      rw [if_neg hmacro]
      -- At the end of the tokens no `+` is there to go on with.
      cases bound with
      | true =>
        obtain ⟨rfl, rfl⟩ := Prod.mk.inj (Except.ok.inj h)
        exact bind_of_ok (moreBounds_nil hd)
      | false =>
        obtain ⟨rfl, rfl⟩ := Prod.mk.inj (Except.ok.inj h)
        rw [hd]
        rfl

instance atEnd_parenType : (g.parenType false).AtEnd (g.parenType true) := by
  unfold parenType
  refine @AtEnd.bind _ _ _ _ _ fun content => ?_
  cases content with
  | type t =>
    refine ⟨fun {s c d a} h hd => ?_⟩
    obtain ⟨rfl, rfl⟩ := Prod.mk.inj (Except.ok.inj h)
    have hahead : ahead (Look.op "+") s c = .ok (false, c) := by
      show Except.ok (Look.op "+" c.rest, c) = _
      rw [hd]
      rfl
    refine (bind_of_ok hahead).trans ?_
    rw [Bool.and_false]
    rfl
  | _ => infer_instance

instance atEnd_boundType : (g.boundType false).AtEnd (g.boundType true) := by
  unfold boundType
  infer_instance

instance atEnd_typeShape : (g.typeShape false).AtEnd (g.typeShape true) := by
  unfold typeShape
  infer_instance

/-- A type that is read where no sum of bounds is allowed is read where one is. -/
theorem ReadsType.of_single (h : ReadsType g false ts t) : ReadsType g true ts t :=
  AtEnd.same h rfl

end Grammar

/-! ## Types put together from others -/

namespace Parser

variable {α : Type}

/-- A parser of types that are put together from no others. -/
class Unformed (p : Parser (TypeShape TypeTree)) : Prop where
  not_formed {s : Scope} {c d : Cursor} {shape : TypeShape TypeTree} :
    p s c = .ok (shape, d) → ¬ shape.IsFormed

/-- What `p` reads as a type put together from others, `p'` reads in the same way. -/
class Forms (p p' : Parser (TypeShape TypeTree)) : Prop where
  same {s : Scope} {c d : Cursor} {shape : TypeShape TypeTree} : p s c = .ok (shape, d) →
    shape.IsFormed → p' s c = .ok (shape, d)

namespace Unformed

theorem of_pure {shape : TypeShape TypeTree} (h : ¬ shape.IsFormed) : Unformed (pure shape) where
  not_formed heq := by
    cases heq
    exact h

instance other : Unformed (pure .other) := of_pure id

instance path (qualified single : Bool) : Unformed (pure (.path qualified single)) := of_pure id

instance bareBounds (single : Bool) : Unformed (pure (.bareBounds single)) := of_pure id

instance bind {p : Parser α} {f : α → Parser (TypeShape TypeTree)} [∀ a, Unformed (f a)] :
    Unformed (p >>= f) where
  not_formed h := by
    obtain ⟨a, c', -, hf⟩ := bind_eq_ok h
    exact not_formed hf

instance ite {c : Prop} [Decidable c] {p q : Parser (TypeShape TypeTree)} [Unformed p]
    [Unformed q] : Unformed (if c then p else q) := by
  split <;> infer_instance

end Unformed

namespace Forms

instance (priority := low) refl (p : Parser (TypeShape TypeTree)) : Forms p p := ⟨fun h _ => h⟩

instance (priority := low) of_unformed (p p' : Parser (TypeShape TypeTree)) [Unformed p] :
    Forms p p' :=
  ⟨fun h hshape => absurd hshape (Unformed.not_formed h)⟩

instance bind {p : Parser α} {f f' : α → Parser (TypeShape TypeTree)} [∀ a, Forms (f a) (f' a)] :
    Forms (p >>= f) (p >>= f') where
  same h hshape := by
    obtain ⟨a, c', hp, hf⟩ := bind_eq_ok h
    exact (bind_of_ok hp).trans (same hf hshape)

instance ite {c : Prop} [Decidable c] {p p' q q' : Parser (TypeShape TypeTree)} [Forms p p']
    [Forms q q'] : Forms (if c then p else q) (if c then p' else q') := by
  split <;> infer_instance

end Forms

end Parser

namespace Grammar

open Graft.Parser

variable {g : Grammar} {ts : List Token} {t : TypeTree}

instance unformed_pathType (plus bound : Bool) : (g.pathType plus bound).Unformed := by
  unfold pathType
  refine @Unformed.bind _ _ _ fun found => ?_
  cases found <;> infer_instance

instance unformed_implType (plus : Bool) : (g.implType plus).Unformed := by
  unfold implType
  infer_instance

instance forms_parenType : (g.parenType true).Forms (g.parenType false) := by
  unfold parenType
  refine @Forms.bind _ _ _ _ fun content => ?_
  cases content with
  | type t =>
    refine ⟨fun {s c d shape} h hshape => ?_⟩
    obtain ⟨found, c', hahead, h⟩ := bind_eq_ok h
    obtain ⟨-, rfl⟩ := Prod.mk.inj (Except.ok.inj hahead)
    -- A sum is put together from no types, so there was none.
    split at h
    next => exact absurd hshape (Unformed.not_formed h)
    next => exact h
  | _ => infer_instance

instance forms_boundType : (g.boundType true).Forms (g.boundType false) := by
  unfold boundType
  infer_instance

instance forms_typeShape : (g.typeShape true).Forms (g.typeShape false) := by
  unfold typeShape
  infer_instance

/-- A type put together from others is read where no sum of bounds is allowed. -/
theorem ReadsType.single (h : ReadsType g true ts t) (hshape : t.shape.IsFormed) :
    ReadsType g false ts t :=
  Forms.same h hshape

end Grammar

end Graft

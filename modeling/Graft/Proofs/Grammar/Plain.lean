import Graft.Grammar.Path
import Graft.Proofs.Grammar.Takes
import Graft.Proofs.Types.Plain

/-!
# Reading plain types

The grammar reads the tokens of a plain type as that type, whatever stands behind them that may end
a type. The one exception is a name directly before a path that starts with `::`.
-/

namespace Graft

open Token (Word Whole Bare Sign Written)

/-! ## What stands at the head of a type -/

theorem PathWord.ne (n : PathWord) {text : String}
    (h : (!reservedWords.contains text ||
      ["super", "self", "Self", "crate"].contains text) = false) : n.text ≠ text := by
  rintro rfl
  rw [n.names] at h
  cases h

def Name.pathWord (n : Name) : PathWord := ⟨n.toWord, by rw [n.free]; rfl⟩

theorem Name.ne (n : Name) {text : String} (h : reservedWords.contains text = true) :
    n.text ≠ text := by
  rintro rfl
  rw [n.free] at h
  cases h

theorem ParamName.ne (n : ParamName) {text : String}
    (h : (!reservedWords.contains text || text = "_") = false) : n.text ≠ text := by
  rintro rfl
  rw [n.names] at h
  cases h

def Segment.name : Segment → PathWord
  | plain n => n
  | generic n _ _ => n.pathWord

theorem Segment.head {s : Segment} {ts : List Token} (h : Written s.bare ts) :
    ∃ span us, ts = .ident s.name.text span :: us := by
  cases s with
  | plain n =>
    cases h with
    | word _ span _ => exact ⟨span, _, rfl⟩
  | generic n turbofish args =>
    cases h with
    | word _ span _ => exact ⟨span, _, rfl⟩

theorem PlainType.path_head {first : Segment} {more : List Segment} {ts : List Token}
    (h : Written (PlainType.path false first more).bare ts) :
    ∃ span us, ts = .ident first.name.text span :: us := by
  have hnames : Written (first.bare ++ Segment.bareMore more) ts := h
  obtain ⟨us, us', rfl, hus, -⟩ := hnames.split
  obtain ⟨span, us, rfl⟩ := Segment.head hus
  exact ⟨span, us ++ us', rfl⟩

/-- The words that a function type may start with. -/
theorem PlainType.function_head {binder : Option (Commas Word)} {unchecked : Bool}
    {params : Commas Param} {result : Option PlainType} {ts : List Token}
    (h : Written (PlainType.function binder unchecked params result).bare ts) :
    ∃ w span us, ts = .ident w span :: us ∧ w ∈ ["for", "unsafe", "extern"] := by
  rw [PlainType.bare] at h
  cases binder with
  | some names =>
    cases h with
    | word w span _ => exact ⟨_, span, _, rfl, by decide⟩
  | none =>
    cases unchecked with
    | true =>
      cases h with
      | word w span _ => exact ⟨_, span, _, rfl, by decide⟩
    | false =>
      cases h with
      | word w span _ => exact ⟨_, span, _, rfl, by decide⟩

/-- Tokens that a type may start with. -/
inductive Opens : List Token → Prop where
  | word (text : String) (span : Span) (ts : List Token) :
      text ∉ ["mut", "true", "false"] → Opens (.ident text span :: ts)
  | mark (c : Char) (spacing : Spacing) (span : Span) (ts : List Token) :
      c ∈ ['&', '*', ':'] → Opens (.punct c spacing span :: ts)
  | group (d : Delimiter) (inner : List Token) (span : Span) (ts : List Token) :
      d ≠ .brace → Opens (.group d inner span :: ts)

namespace Opens

variable {ts : List Token}

theorem append (h : Opens ts) (tail : List Token) : Opens (ts ++ tail) := by
  cases h with
  | word text span ts hne => exact .word text span _ hne
  | mark c spacing span ts hc => exact .mark c spacing span _ hc
  | group d inner span ts hd => exact .group d inner span _ hd

theorem ne_nil (h : Opens ts) : ts ≠ [] := by
  rintro rfl
  cases h

theorem go_eq_false (h : Opens ts) {c : Char} (hc : c ∉ ['&', '*', ':']) (marks : List Char) :
    Look.op.go (c :: marks) ts = false := by
  cases h with
  | mark d spacing span ts hd =>
    have hne : c ≠ d := fun heq => hc (heq ▸ hd)
    cases marks <;> simp [Look.op.go, hne]
  | word text span ts hne => cases marks <;> rfl
  | group d inner span ts hd => cases marks <;> rfl

theorem op_eq_false (h : Opens ts) {text : String} {c : Char} (htext : text.toList.head? = some c)
    (hc : c ∉ ['&', '*', ':']) : Look.op text ts = false := by
  obtain ⟨marks, hmarks⟩ := List.head?_eq_some_iff.mp htext
  rw [Look.op, hmarks]
  exact h.go_eq_false hc marks

theorem word_eq_false (h : Opens ts) {text : String} (htext : text ∈ ["mut", "true", "false"]) :
    Look.word text ts = false := by
  cases h with
  | word text' span ts hne => exact decide_eq_false fun heq => hne (heq ▸ htext)
  | _ => rfl

theorem lifetime_eq_false (h : Opens ts) : Look.lifetime ts = false := by
  cases h with
  | mark c spacing span ts hc =>
    simp only [List.mem_cons, List.not_mem_nil, or_false] at hc
    rcases hc with rfl | rfl | rfl <;> rfl
  | _ => rfl

theorem literal_eq_false (h : Opens ts) : Look.literal ts = false := by
  cases h with
  | word text span ts hne =>
    have htrue : text ≠ "true" := fun heq => hne (by rw [heq]; decide)
    have hfalse : text ≠ "false" := fun heq => hne (by rw [heq]; decide)
    simp [Look.literal, htrue, hfalse]
  | mark c spacing span ts hc =>
    simp only [List.mem_cons, List.not_mem_nil, or_false] at hc
    rcases hc with rfl | rfl | rfl <;> rfl
  | group d inner span ts hd => rfl

theorem braces_eq_false (h : Opens ts) : Look.braces ts = false := by
  cases h with
  | group d inner span ts hd => exact decide_eq_false (fun heq => hd heq.symm)
  | _ => rfl

end Opens

theorem Opens.lifetime_mutable {mutable : Bool} {ts us : List Token}
    (hts : Written (if mutable then [.word .mutable] else []) ts) (hus : Opens us) :
    Look.lifetime (ts ++ us) = false := by
  cases mutable with
  | false =>
    cases hts
    exact hus.lifetime_eq_false
  | true => cases hts with
    | word _ _ _ => rfl

theorem PlainType.opens (t : PlainType) {ts : List Token} (h : Written t.bare ts) : Opens ts := by
  cases t with
  | path rooted first more =>
    cases rooted with
    | true =>
      cases h with
      | colons spacing span span' _ => exact .mark ':' _ _ _ (by decide)
    | false =>
      obtain ⟨span, us, rfl⟩ := PlainType.path_head h
      refine .word _ _ _ ?_
      simp only [List.mem_cons, List.not_mem_nil, or_false, not_or]
      exact ⟨first.name.ne (by decide), first.name.ne (by decide), first.name.ne (by decide)⟩
  | reference lifetime mutable target =>
    cases h with
    | sign _ spacing span _ => exact .mark '&' _ _ _ (by decide)
  | pointer mutable pointee =>
    cases h with
    | sign _ spacing span _ => exact .mark '*' _ _ _ (by decide)
  | function binder unchecked params result =>
    obtain ⟨w, span, us, rfl, hw⟩ := PlainType.function_head h
    have hwords : ∀ w ∈ ["for", "unsafe", "extern"], w ∉ ["mut", "true", "false"] := by decide
    exact .word w span us (hwords w hw)
  | _ =>
    cases h with
    | group _ span _ _ => exact .group _ _ _ _ (by decide)

theorem Param.opens (p : Param) {ts : List Token} (h : Written p.bare ts) : Opens ts := by
  cases p with
  | mk name t =>
    cases name with
    | none => exact t.opens h
    | some name =>
      cases h with
      | word _ span _ =>
        refine .word _ _ _ ?_
        simp only [List.mem_cons, List.not_mem_nil, or_false, not_or]
        exact ⟨name.ne (by decide), name.ne (by decide), name.ne (by decide)⟩

/-! ## What stands behind a type -/

/-- Tokens that a type may stand before. -/
inductive Stops : List Token → Prop where
  | nil : Stops []
  | sign (s : Sign) (spacing : Spacing) (span : Span) (ts : List Token) :
      s ∈ [.comma, .greater, .semicolon] → Stops (.punct s.char spacing span :: ts)

namespace Stops

variable {ts : List Token}

theorem mark {c : Char} {spacing : Spacing} {span : Span}
    (h : Stops (.punct c spacing span :: ts)) : c ∈ [',', '>', ';'] := by
  have hchars : ∀ s ∈ [Sign.comma, .greater, .semicolon], s.char ∈ [',', '>', ';'] := by decide
  cases h with
  | sign s _ _ _ hs => exact hchars s hs

theorem go_eq_false (h : Stops ts) {c : Char} (hc : c ∉ [',', '>', ';']) (marks : List Char) :
    Look.op.go (c :: marks) ts = false := by
  cases ts with
  | nil => cases marks <;> rfl
  | cons t ts =>
    cases t with
    | punct d spacing span =>
      have hne : c ≠ d := fun heq => hc (heq ▸ h.mark)
      cases marks <;> simp [Look.op.go, hne]
    | _ => cases marks <;> rfl

theorem op_eq_false (h : Stops ts) {text : String} {c : Char} (htext : text.toList.head? = some c)
    (hc : c ∉ [',', '>', ';']) : Look.op text ts = false := by
  obtain ⟨marks, hmarks⟩ := List.head?_eq_some_iff.mp htext
  rw [Look.op, hmarks]
  exact h.go_eq_false hc marks

end Stops

/-! ## Types as read -/

/-- The outermost shape of a plain type, with parts of the same bare tokens. -/
def PlainType.HasShape (t : PlainType) (shape : TypeShape TypeTree) : Prop :=
  match t with
  | .pointer _ pointee => ∃ tree, shape = .pointer tree ∧ Written pointee.bare tree.tokens
  | .function _ _ params result => ∃ trees tree?, shape = .function (some "C") trees false tree? ∧
      List.Forall₂ (fun p tree => Written p.type.bare tree.tokens) params.toList trees ∧
        Option.Rel (fun t tree => Written t.bare tree.tokens) result tree?
  | _ => shape = .other ∨ ∃ qualified single, shape = .path qualified single

/-- The tree is that of the type. -/
structure PlainType.IsTree (t : PlainType) (tree : TypeTree) : Prop where
  tokens : Written t.bare tree.tokens
  shape : t.HasShape tree.shape

namespace Grammar

open Graft.Parser

variable {g : Grammar} {ts tail : List Token}

/-- The grammar reads the type as what it is, before all that it may stand before. -/
def TakesType (g : Grammar) (t : PlainType) : Prop :=
  ∀ plus ts tail, Written t.bare ts → Stops tail → Takes (g.type plus) ts tail t.bare t.IsTree

/-! ## Lists -/

section Lists

variable {α β : Type} {f : α → List Bare} {item : Parser β} {stop : List Token → Bool}
  {xs : Commas α}

/-- An item of a list behind the one before it, if there is one. -/
def nextItem? (stop : List Token → Bool) (item : Parser β) : Parser (Option β) := do
  if ← ahead stop then return none
  op ","
  if ← ahead stop then return none
  return some (← item)

theorem listUntil_eq : listUntil stop "," item = (do
    if ← ahead stop then return []
    let first ← item
    let others ← many (nextItem? stop item)
    return first :: others) := rfl

/-- A list reads its items, each before a comma or before what ends the list. -/
structure TakesItems (f : α → List Bare) (item : Parser β) (stop : List Token → Bool)
    (tail : List Token) (xs : Commas α) : Prop where
  last : ∀ a ∈ xs.toList, ∀ us, Written (f a) us → Takes item us tail (f a) fun _ => True
  comma : ∀ a ∈ xs.toList, ∀ us spacing span more, Written (f a) us →
    Takes item us (.punct ',' spacing span :: more) (f a) fun _ => True
  starts : ∀ a ∈ xs.toList, ∀ us more, Written (f a) us → stop (us ++ more) = false
  goesOn : ∀ spacing span more, stop (.punct ',' spacing span :: more) = false
  ends : stop tail = true

theorem TakesItems.rest {a : α} (h : TakesItems f item stop tail (.cons a xs)) :
    TakesItems f item stop tail xs where
  last b hb := h.last b (List.mem_cons_of_mem _ hb)
  comma b hb := h.comma b (List.mem_cons_of_mem _ hb)
  starts b hb := h.starts b (List.mem_cons_of_mem _ hb)
  goesOn := h.goesOn
  ends := h.ends

theorem takes_nextItem?_stop (spacing : Spacing) (span : Span)
    (hgoesOn : stop (.punct ',' spacing span :: tail) = false) (hends : stop tail = true) :
    Takes (nextItem? stop item) [.punct ',' spacing span] tail [.sign .comma] (· = none) := by
  refine (takes_ahead _).look ?_
  rw [List.singleton_append, hgoesOn, if_neg Bool.false_ne_true]
  refine (takes_sign .comma spacing span).last fun _ _ => (takes_ahead _).look ?_
  rw [List.nil_append, hends, if_pos rfl]
  exact .pure rfl

theorem takes_nextItem?_some {us : List Token} {bs : List Bare} (spacing : Spacing) (span : Span)
    (hgoesOn : stop (.punct ',' spacing span :: us ++ tail) = false)
    (hstarts : stop (us ++ tail) = false) (hitem : Takes item us tail bs fun _ => True) :
    Takes (nextItem? stop item) (.punct ',' spacing span :: us) tail (.sign .comma :: bs)
      fun o => ∃ b, o = some b ∧ True := by
  refine (takes_ahead _).look ?_
  rw [hgoesOn, if_neg Bool.false_ne_true]
  show Takes _ ([.punct ',' spacing span] ++ us) _ ([.sign .comma] ++ bs) _
  refine (takes_sign .comma spacing span).bind fun _ _ => (takes_ahead _).look ?_
  rw [hstarts, if_neg Bool.false_ne_true]
  exact hitem.last fun b _ => .pure ⟨b, rfl, trivial⟩

theorem takes_nextItems (h : TakesItems f item stop tail xs)
    (hts : Written (.sign .comma :: xs.bare f) ts) :
    Takes (many (nextItem? stop item)) ts tail (.sign .comma :: xs.bare f) fun _ => True := by
  induction xs generalizing ts with
  | none =>
    cases hts with
    | sign _ spacing span hts =>
      cases hts
      -- The comma behind the last item is read before the list is seen to end.
      refine (takes_many_nil ?_).mono fun _ _ => trivial
      exact takes_nextItem?_stop spacing span (h.goesOn ..) h.ends
  | last a =>
    cases hts with
    | sign _ spacing span hts =>
      have hmem := List.mem_cons_self (a := a) (l := [])
      have hend : Takes (nextItem? stop item) [] tail [] (· = none) := by
        refine (takes_ahead _).look ?_
        rw [List.nil_append, h.ends, if_pos rfl]
        exact .pure rfl
      have hitem := takes_nextItem?_some spacing span (h.goesOn ..) (h.starts a hmem _ tail hts)
        (h.last a hmem _ hts)
      exact (takes_many_last (List.cons_ne_nil _ _) hitem hend).mono fun _ _ => trivial
  | cons a rest ih =>
    cases hts with
    | sign _ spacing span hts =>
      obtain ⟨us, us', rfl, hus, hus'⟩ := hts.split
      have hmem := List.mem_cons_self (a := a) (l := rest.toList)
      have hmore := ih h.rest hus'
      -- What stands behind the item is the comma that the rest starts with.
      cases hus' with
      | @sign _ vs _ spacing' span' hus' =>
        have hitem := takes_nextItem?_some spacing span (h.goesOn ..) (h.starts a hmem _ _ hus)
          (h.comma a hmem _ spacing' span' (vs ++ tail) hus)
        exact (takes_many_cons (List.cons_ne_nil _ _) hitem hmore).mono fun _ _ => trivial

theorem takes_listUntil (h : TakesItems f item stop tail xs) (hts : Written (xs.bare f) ts) :
    Takes (listUntil stop "," item) ts tail (xs.bare f) fun _ => True := by
  rw [listUntil_eq]
  refine (takes_ahead _).look ?_
  cases xs with
  | none =>
    cases hts
    rw [List.nil_append, h.ends, if_pos rfl]
    exact .pure trivial
  | last a =>
    have hmem := List.mem_cons_self (a := a) (l := [])
    rw [h.starts a hmem _ _ hts, if_neg Bool.false_ne_true]
    refine (h.last a hmem _ hts).last fun _ _ => ?_
    refine (takes_many_nil ?_).look (.pure trivial)
    refine (takes_ahead _).look ?_
    rw [List.nil_append, List.nil_append, h.ends, if_pos rfl]
    exact .pure rfl
  | cons a rest =>
    obtain ⟨us, us', rfl, hus, hus'⟩ := hts.split
    have hmem := List.mem_cons_self (a := a) (l := rest.toList)
    have hmore := takes_nextItems h.rest hus'
    rw [List.append_assoc, h.starts a hmem _ _ hus, if_neg Bool.false_ne_true]
    cases hus' with
    | sign _ spacing span hus' =>
      refine (h.comma a hmem _ spacing span _ hus).bind fun _ _ => ?_
      exact hmore.last fun _ _ => .pure trivial

end Lists

end Grammar

end Graft

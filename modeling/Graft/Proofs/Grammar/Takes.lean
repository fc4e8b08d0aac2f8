import Graft.Proofs.Token.Bare
import Graft.Grammar.Look

/-!
# What parsers take

A parser takes the tokens `ts` before `tail` where it reads all of `ts` and none of `tail`, and
writes them in their printed form. A sequence of parsers takes what its parts take one after the
other.
-/

namespace Graft.Parser

open Token (Word Whole Bare Sign Written)

variable {α β : Type}

/-- Before `tail`, the parser reads `ts`, writes the bare tokens `bs` and gives a result with
`P`. -/
def Takes (p : Parser α) (ts tail : List Token) (bs : List Bare) (P : α → Prop) : Prop :=
  ∀ s w l, ∃ a out, p s ⟨ts ++ tail, w, l⟩ = .ok (a, ⟨tail, out.reverse ++ w, l⟩) ∧
    Written bs out ∧ P a

namespace Takes

variable {p : Parser α} {f : α → Parser β} {ts us tail : List Token} {bs bs' : List Bare}
  {P P' : α → Prop} {Q : β → Prop}

theorem mono (h : Takes p ts tail bs P) (hP : ∀ a, P a → P' a) : Takes p ts tail bs P' := by
  intro s w l
  obtain ⟨a, out, hrun, hout, ha⟩ := h s w l
  exact ⟨a, out, hrun, hout, hP a ha⟩

theorem pure {a : α} (ha : P a) : Takes (pure a) [] tail [] P :=
  fun _ _ _ => ⟨a, [], rfl, .nil, ha⟩

theorem bind (h : Takes p ts (us ++ tail) bs P) (hf : ∀ a, P a → Takes (f a) us tail bs' Q) :
    Takes (p >>= f) (ts ++ us) tail (bs ++ bs') Q := by
  intro s w l
  obtain ⟨a, out, hrun, hout, ha⟩ := h s w l
  obtain ⟨b, out', hrun', hout', hb⟩ := hf a ha s (out.reverse ++ w) l
  refine ⟨b, out ++ out', ?_, hout.append hout', hb⟩
  simp only [Bind.bind, List.append_assoc, hrun, List.reverse_append]
  exact hrun'

/-- A parser that only looks, and another behind it. -/
theorem look {a : α} (h : Takes p [] (ts ++ tail) [] (· = a)) (hf : Takes (f a) ts tail bs Q) :
    Takes (p >>= f) ts tail bs Q :=
  h.bind fun _ ha => ha ▸ hf

/-- A parser that the rest of a sequence takes nothing behind. -/
theorem last (h : Takes p ts tail bs P) (hf : ∀ a, P a → Takes (f a) [] tail [] Q) :
    Takes (p >>= f) ts tail bs Q := by
  have hbind : Takes (p >>= f) (ts ++ []) tail (bs ++ []) Q := h.bind hf
  rw [List.append_nil, List.append_nil] at hbind
  exact hbind

/-- A parser that writes nothing, and one behind it that reads nothing. -/
theorem silent (h : Takes p ts tail [] P) (hf : ∀ a, P a → Takes (f a) [] tail bs Q) :
    Takes (p >>= f) ts tail bs Q := by
  have hbind : Takes (p >>= f) (ts ++ []) tail bs Q := h.bind hf
  rw [List.append_nil] at hbind
  exact hbind

end Takes

/-! ## Looking ahead -/

variable {ts us tail : List Token} {bs inner : List Bare} {P : α → Prop}

theorem takes_rest (ts : List Token) : Takes rest [] ts [] (· = ts) :=
  fun _ _ _ => ⟨ts, [], rfl, .nil, rfl⟩

theorem takes_written : Takes written [] tail [] fun _ => True :=
  fun _ w _ => ⟨w, [], rfl, .nil, trivial⟩

theorem takes_place : Takes place [] tail [] fun _ => True :=
  fun _ _ _ => ⟨_, [], rfl, .nil, trivial⟩

theorem takes_isEmpty : Takes isEmpty [] tail [] (· = tail.isEmpty) :=
  fun _ _ _ => ⟨_, [], rfl, .nil, rfl⟩

theorem takes_ahead (test : List Token → Bool) : Takes (ahead test) [] tail [] (· = test tail) :=
  fun _ _ _ => ⟨_, [], rfl, .nil, rfl⟩

theorem takes_write {out : List Token} (h : Written bs out) :
    Takes (write out) [] tail bs fun _ => True :=
  fun _ _ _ => ⟨_, out, rfl, h, trivial⟩

theorem takes_token {t : Token} (h : Written bs [t]) : Takes token [t] tail bs fun _ => True :=
  fun _ _ _ => ⟨_, [t], rfl, h, trivial⟩

/-! ## Operators and words -/

theorem takes_drop (ts : List Token) : Takes (drop ts.length) ts tail [] fun _ => True := by
  intro s w l
  refine ⟨⟨⟩, [], ?_, .nil, trivial⟩
  show Except.ok (_, Cursor.mk ((ts ++ tail).drop ts.length) w l) = _
  rw [List.drop_left]
  rfl

theorem takes_op {text : String} (hlook : Look.op text (ts ++ tail) = true)
    (hlength : ts.length = text.length)
    (hwritten : ∀ span, Written bs (Token.operator text span)) :
    Takes (op text) ts tail bs fun _ => True := by
  refine (takes_rest _).look ?_
  rw [if_pos hlook, ← hlength]
  refine (takes_rest _).look ?_
  exact (takes_drop ts).silent fun _ _ => takes_write (hwritten _)

theorem takes_op? {text : String} (hlook : Look.op text (ts ++ tail) = true)
    (hop : Takes (op text) ts tail bs fun _ => True) :
    Takes (op? text) ts tail bs (· = true) := by
  refine (takes_rest _).look ?_
  rw [if_pos hlook]
  exact hop.last fun _ _ => .pure rfl

theorem takes_op?_of_not {text : String} (hlook : Look.op text tail = false) :
    Takes (op? text) [] tail [] (· = false) := by
  refine (takes_rest _).look ?_
  rw [List.nil_append, hlook]
  exact .pure rfl

/-- The operator that a mark is. -/
def signText : Sign → String
  | .colon => ":"
  | .comma => ","
  | .semicolon => ";"
  | .less => "<"
  | .greater => ">"
  | .ampersand => "&"
  | .star => "*"

theorem look_sign (s : Sign) (spacing : Spacing) (span : Span) (ts : List Token) :
    Look.op (signText s) (.punct s.char spacing span :: ts) = true := by
  cases s <;> rfl

theorem takes_sign (s : Sign) (spacing : Spacing) (span : Span) :
    Takes (op (signText s)) [.punct s.char spacing span] tail [.sign s] fun _ => True := by
  refine takes_op (look_sign s spacing span tail) (by cases s <;> rfl) fun span' => ?_
  cases s <;> exact .sign _ _ _ .nil

theorem takes_sign? (s : Sign) (spacing : Spacing) (span : Span) :
    Takes (op? (signText s)) [.punct s.char spacing span] tail [.sign s] (· = true) :=
  takes_op? (look_sign s spacing span tail) (takes_sign s spacing span)

theorem takes_colons (spacing : Spacing) (span span' : Span) :
    Takes (op "::") [.punct ':' .joint span, .punct ':' spacing span'] tail [.colons]
      fun _ => True :=
  takes_op rfl rfl fun _ => .colons _ _ _ .nil

theorem takes_colons? (spacing : Spacing) (span span' : Span) :
    Takes (op? "::") [.punct ':' .joint span, .punct ':' spacing span'] tail [.colons] (· = true) :=
  takes_op? rfl (takes_colons spacing span span')

theorem takes_arrow? (spacing : Spacing) (span span' : Span) :
    Takes (op? "->") [.punct '-' .joint span, .punct '>' spacing span'] tail [.arrow] (· = true) :=
  takes_op? rfl (takes_op rfl rfl fun _ => .arrow _ _ _ .nil)

theorem takes_word (w : Word) (span : Span) :
    Takes (word w.text) [.ident w.text span] tail [.word w] fun _ => True := by
  refine (takes_rest _).look ?_
  have hlook : Look.word w.text ([Token.ident w.text span] ++ tail) = true := decide_eq_true rfl
  rw [if_pos hlook]
  exact takes_token (.word w span .nil)

theorem takes_word? (w : Word) (span : Span) :
    Takes (word? w.text) [.ident w.text span] tail [.word w] (· = true) := by
  refine (takes_rest _).look ?_
  have hlook : Look.word w.text ([Token.ident w.text span] ++ tail) = true := decide_eq_true rfl
  rw [if_pos hlook]
  exact (takes_token (.word w span .nil)).last fun _ _ => .pure rfl

theorem takes_word?_of_not {text : String} (hlook : Look.word text tail = false) :
    Takes (word? text) [] tail [] (· = false) := by
  refine (takes_rest _).look ?_
  rw [List.nil_append, hlook]
  exact .pure rfl

theorem takes_word?_if {w : Word} {present : Bool}
    (hts : Written (if present then [.word w] else []) ts) (htail : Look.word w.text tail = false) :
    Takes (word? w.text) ts tail (if present then [.word w] else []) (· = present) := by
  cases present with
  | false =>
    cases hts
    exact takes_word?_of_not htail
  | true =>
    cases hts with
    | word _ span hts =>
      cases hts
      exact takes_word? w span

theorem takes_anyWord (w : Word) (span : Span) :
    Takes anyWord [.ident w.text span] tail [.word w] fun _ => True := by
  refine (takes_rest _).look ?_
  exact takes_token (.word w span .nil)

theorem takes_name (w : Word) (span : Span) (hfree : reservedWords.contains w.text = false) :
    Takes name [.ident w.text span] tail [.word w] fun _ => True := by
  refine (takes_rest _).look ?_
  show Takes (if reservedWords.contains w.text = true then _ else _) _ _ _ _
  rw [hfree]
  exact (takes_token (.word w span .nil)).last fun _ _ => .pure trivial

theorem takes_lifetime (w : Word) (span span' : Span) :
    Takes lifetime [.punct '\'' .joint span, .ident w.text span'] tail [.lifetime w]
      fun _ => True := by
  intro s c l
  exact ⟨_, _, rfl, .lifetime w span span' .nil, trivial⟩

theorem takes_lifetime? (w : Word) (span span' : Span) :
    Takes lifetime? [.punct '\'' .joint span, .ident w.text span'] tail [.lifetime w]
      (· = true) := by
  refine (takes_rest _).look ?_
  have hlook : Look.lifetime ([Token.punct '\'' .joint span, .ident w.text span'] ++ tail) = true :=
    rfl
  rw [if_pos hlook]
  exact (takes_lifetime w span span').last fun _ _ => .pure rfl

theorem takes_lifetime?_of_not (hlook : Look.lifetime tail = false) :
    Takes lifetime? [] tail [] (· = false) := by
  refine (takes_rest _).look ?_
  rw [List.nil_append, hlook]
  exact .pure rfl

/-! ## Groups and loops -/

theorem takes_inside {p : Parser α} (d : Delimiter) (span : Span) (h : Takes p ts [] inner P) :
    Takes (inside d ts span p) [] tail [.group d inner] P := by
  intro s w l
  obtain ⟨a, out, hrun, hout, ha⟩ := h ⟨span.closing⟩ [] l
  rw [List.append_nil, List.append_nil] at hrun
  refine ⟨a, [.group d out span], ?_, .group d span hout .nil, ha⟩
  have hleftover : (l <|> (none : Option SyntaxError)) = l := by cases l <;> rfl
  rw [inside, hrun]
  simp only [List.reverse_reverse, List.append_nil, List.head?_nil, Option.map_none, hleftover]
  rfl

theorem takes_group {p : Parser α} (d : Delimiter) (span : Span) (h : Takes p ts [] inner P) :
    Takes (group d p) [.group d ts span] tail [.group d inner] P := by
  refine (takes_rest _).look ?_
  show Takes (if d = d then drop 1 >>= fun _ => inside d ts span p else _) _ _ _ _
  rw [if_pos rfl]
  exact (takes_drop [.group d ts span]).silent fun _ _ => takes_inside d span h

theorem takes_detached {p : Parser α} (h : Takes p ts tail bs P) :
    Takes (detached p) ts tail [] fun r => P r.1 ∧ Written bs r.2 := by
  intro s w l
  obtain ⟨a, out, hrun, hout, ha⟩ := h s [] l
  rw [List.append_nil] at hrun
  refine ⟨(a, out), [], ?_, .nil, ha, hout⟩
  simp only [detached, Bind.bind, Pure.pure, written, setWritten, hrun, List.reverse_reverse]
  rfl

theorem takes_captured {p : Parser α} (h : Takes p ts tail bs P) :
    Takes (captured p) ts tail bs fun r => P r.1 ∧ Written bs r.2 := by
  refine (takes_detached h).silent fun r hr => ?_
  exact (takes_write hr.2).last fun _ _ => .pure hr

/-- The step that ends a loop may still read. -/
theorem takes_many_nil {step : Parser (Option α)} (h : Takes step ts tail bs (· = none)) :
    Takes (many step) ts tail bs (· = []) := by
  intro s w l
  obtain ⟨a, out, hrun, hout, rfl⟩ := h s w l
  refine ⟨[], out, ?_, hout, rfl⟩
  show many.go step s ⟨ts ++ tail, w, l⟩ = _
  rw [many.go, hrun]

theorem takes_many_cons {step : Parser (Option α)} {bs' : List Bare} {Q : List α → Prop}
    (hts : ts ≠ []) (h : Takes step ts (us ++ tail) bs fun o => ∃ a, o = some a ∧ P a)
    (hmore : Takes (many step) us tail bs' Q) :
    Takes (many step) (ts ++ us) tail (bs ++ bs') fun as => ∃ a more, as = a :: more ∧ P a ∧
      Q more := by
  intro s w l
  obtain ⟨o, out, hrun, hout, a, rfl, ha⟩ := h s w l
  obtain ⟨as, out', hrun', hout', has⟩ := hmore s (out.reverse ++ w) l
  refine ⟨a :: as, out ++ out', ?_, hout.append hout', a, as, rfl, ha, has⟩
  have hshorter : (us ++ tail).length < (ts ++ us ++ tail).length := by
    have := List.length_pos_iff.mpr hts
    simp only [List.length_append]
    omega
  rw [← List.append_assoc] at hrun
  show many.go step s ⟨ts ++ us ++ tail, w, l⟩ = _
  rw [many.go, hrun]
  simp only [hshorter, if_true]
  rw [show many.go step s ⟨us ++ tail, out.reverse ++ w, l⟩ = _ from hrun']
  simp

theorem takes_many_last {step : Parser (Option α)} (hts : ts ≠ [])
    (h : Takes step ts tail bs fun o => ∃ a, o = some a ∧ P a)
    (hend : Takes step [] tail [] (· = none)) :
    Takes (many step) ts tail bs fun as => ∃ a, as = [a] ∧ P a := by
  have hmany : Takes (many step) (ts ++ []) tail (bs ++ []) _ :=
    takes_many_cons hts h (takes_many_nil hend)
  rw [List.append_nil, List.append_nil] at hmany
  refine hmany.mono ?_
  rintro _ ⟨a, _, rfl, ha, rfl⟩
  exact ⟨a, rfl, ha⟩

theorem takes_iterate {step : α → Parser (Option α)} {a : α}
    (h : Takes (step a) [] tail [] (· = none)) : Takes (iterate step a) [] tail [] (· = a) := by
  intro s w l
  obtain ⟨o, out, hrun, hout, rfl⟩ := h s w l
  refine ⟨a, out, ?_, hout, rfl⟩
  show iterate.go step s a ⟨[] ++ tail, w, l⟩ = _
  rw [iterate.go, hrun]

end Graft.Parser

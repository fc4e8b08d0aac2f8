import Graft.Proofs.Grammar.BlindItem
import Graft.Proofs.Grammar.Enclosed
import Graft.Proofs.Grammar.Takes
import Graft.Proofs.Snippet.Defect
import Graft.Proofs.Token.Ahead
import Graft.Proofs.Types.Plain

/-!
# Types in snippets

A type stands in two places of a snippet: before the body, which is cut off at the first braces, and
in a placeholder, whose parentheses hold nothing else. Both take what is read as a type alone, and
know it by the same key, except that braces outside all other groups end the first and a byte order
mark does not start the second.
-/

namespace Graft

open Token (unplacedAll)

variable {ts us new : List Token} {t u : TypeTree}

/-! ## Tokens that stand elsewhere -/

namespace Token

theorem any_isGroup_unplacedAll (d : Delimiter) (ts : List Token) :
    (unplacedAll ts).any (isGroup d) = ts.any (isGroup d) := by
  rw [unplacedAll_eq_map, List.any_map]
  congr 1
  funext t
  cases t <;> rfl

/-- Whether a text has a group in braces outside all other groups. -/
def hasBraces (text : List Char) : Bool :=
  match read text with
  | .ok ts => ts.any (isGroup .brace)
  | .error _ => false

end Token

namespace TypeTree

/-- What is read as a type is read as the same type wherever it stands. -/
theorem ofTokens_elsewhere (hsame : unplacedAll us = unplacedAll ts) (ht : ofTokens ts = .ok t) :
    ∃ u, ofTokens us = .ok u ∧ ForeignType.ofTree u = ForeignType.ofTree t := by
  obtain ⟨u, hu, halike⟩ := ofTokens_respaced (.of_unplacedAll_eq hsame.symm) ht
  exact ⟨u, hu, congrArg ForeignType.mk halike.spelling_eq.symm⟩

theorem ne_nil_of_ofTokens (ht : ofTokens ts = .ok t) : ts ≠ [] :=
  (Grammar.ofTokens_eq_ok_iff.mp ht).ne_nil

end TypeTree

theorem ForeignType.read_eq_ok {text : String} {key : ForeignType} (h : read text = .ok key) :
    ∃ ts t, Token.read text.toList = .ok ts ∧ TypeTree.ofTokens ts = .ok t ∧ ofTree t = key := by
  unfold read TypeTree.read at h
  cases hts : Token.read text.toList with
  | error place =>
    rw [hts] at h
    cases h
  | ok ts =>
    rw [hts] at h
    cases ht : TypeTree.ofTokens ts with
    | error e =>
      simp only [ht] at h
      cases h
    | ok t =>
      simp only [ht] at h
      exact ⟨ts, t, rfl, ht, Except.ok.inj h⟩

/-! ## Placeholders -/

namespace Placeholder

open Graft.Parser (bind_of_ok)

/-- A name, a colon and a type are the declaration of the name with that type. -/
theorem Declaration.ofTokens_type (name : Name) (span colon : Span) (spacing : Spacing)
    (hu : TypeTree.ofTokens us = .ok u) :
    ofTokens (.ident name.text span :: .punct ':' spacing colon :: us) = .ok ⟨name.text, u⟩ := by
  have hname : Parser.name ⟨.start⟩
      ⟨.ident name.text span :: .punct ':' spacing colon :: us, [], none⟩ =
        .ok (name.text, ⟨.punct ':' spacing colon :: us, [.ident name.text span], none⟩) := by
    show (if reservedWords.contains name.text then _ else _ : Parser String) _ _ = _
    rw [name.free]
    rfl
  have htakes : Parser.Takes (Parser.op ":") [.punct ':' spacing colon] us _ _ :=
    Parser.takes_sign .colon spacing colon
  obtain ⟨_, out, hcolon, -, -⟩ := htakes ⟨.start⟩ [.ident name.text span] none
  have hdeeper := (Grammar.ofTokens_eq_ok_iff.mp hu).deeper
    (n := 6 * (1 + (1 + Token.sizeAll us)) + 5) (by omega)
  have htype : (Grammar.reading (.ident name.text span :: .punct ':' spacing colon :: us)).type true
      ⟨.start⟩ ⟨us, out.reverse ++ [.ident name.text span], none⟩ = _ := hdeeper.typeTree _
  have hcolon' : Parser.op ":" ⟨.start⟩
      ⟨.punct ':' spacing colon :: us, [.ident name.text span], none⟩ = _ := hcolon
  unfold ofTokens Parser.run
  rw [bind_of_ok hname, bind_of_ok hcolon', bind_of_ok htype]
  rfl

end Placeholder

/-- The slot holds the name, a colon and the tokens that the text is read as alone. -/
def Slot.Holds (s : Slot) (name : Name) (type : String) : Prop :=
  ∃ ts us span spacing colon, Token.read type.toList = .ok ts ∧ unplacedAll us = unplacedAll ts ∧
    s.inner = .ident name.text span :: .punct ':' spacing colon :: us

/-! ## Texts -/

namespace Token

variable {groups : List OpenGroup} {done : List Token} {p : Position} {cs text : List Char}

/-- The end of a body. -/
theorem readFrom_closeBody (done inner : List Token) (start p : Position) :
    ∃ span, readFrom [⟨.brace, done, start⟩] inner p ['\x7d'] =
      .ok (done.reverse ++ [.group .brace inner.reverse span]) := by
  have hclosing : readFrom [⟨.brace, done, start⟩] inner p ['\x7d'] = _ := readFrom_closing
  rw [hclosing, readFrom_nil, List.reverse_cons]
  exact ⟨_, rfl⟩

/-- An empty body behind other tokens. -/
theorem readFrom_emptyBody (done : List Token) (p : Position) :
    ∃ span, readFrom [] done p [' ', '\x7b', ' ', '\x7d'] =
      .ok (done.reverse ++ [.group .brace [] span]) := by
  have hopening : readFrom [] done (p.next ' ') ['\x7b', ' ', '\x7d'] = _ :=
    readFrom_opening .brace (by decide)
  rw [readFrom_blank, hopening, readFrom_blank]
  exact readFrom_closeBody ..

/-- A body that starts with a placeholder. -/
theorem readFrom_openPlaceholder (done : List Token) (p : Position) (hcs : cs.head? ≠ some '/') :
    ∃ dollar spacing start start' q, readFrom [] done p (' ' :: '\x7b' :: ' ' :: '$' :: '(' :: cs) =
      readFrom [⟨.parenthesis, [.punct '$' spacing dollar], start⟩, ⟨.brace, done, start'⟩] [] q
        cs := by
  have hbrace : readFrom [] done (p.next ' ') ('\x7b' :: ' ' :: '$' :: '(' :: cs) = _ :=
    readFrom_opening .brace (by simp)
  rw [readFrom_blank, hbrace, readFrom_blank, readFrom_mark (by decide)]
  exact ⟨_, _, _, _, _, readFrom_opening .parenthesis hcs⟩

/-- A name and a colon in front of other text. -/
theorem readFrom_name (name : Name) (groups : List OpenGroup) (p : Position) (cs : List Char) :
    ∃ span colon spacing q, readFrom groups [] p (name.text.toList ++ ':' :: ' ' :: cs) =
      readFrom groups [.punct ':' spacing colon, .ident name.text span] q cs := by
  obtain ⟨ts, q, hts, hname⟩ :=
    name.toWord.readsAs (.cons (c := ':') (by decide) (' ' :: cs)) groups [] p
  cases hts with
  | word _ span hnil =>
    cases hnil
    rw [hname, readFrom_mark (by decide), readFrom_blank]
    exact ⟨span, _, _, _, rfl⟩

/-- The end of a placeholder and of the body around it. -/
theorem readFrom_closePlaceholder (before done inner : List Token) (start start' p : Position) :
    ∃ span span', readFrom [⟨.parenthesis, before, start⟩, ⟨.brace, done, start'⟩] inner p
        [')', ' ', '\x7d'] =
      .ok (done.reverse ++
        [.group .brace (before.reverse ++ [.group .parenthesis inner.reverse span]) span']) := by
  have hparens : readFrom [⟨.parenthesis, before, start⟩, ⟨.brace, done, start'⟩] inner p
      [')', ' ', '\x7d'] = _ := readFrom_closing
  rw [hparens, readFrom_blank]
  obtain ⟨span', hbody⟩ := readFrom_closeBody done
    (.group .parenthesis inner.reverse ⟨start, p.next ')'⟩ :: before) start' ((p.next ')').next ' ')
  rw [List.reverse_cons] at hbody
  exact ⟨_, span', hbody⟩

end Token

namespace Snippet

variable {origin : Location} {text : String} {before body : List Token} {span : Span}

/-- Tokens that are a type, then a group in braces, are a snippet if its body can be filled. -/
theorem read_of_tokens
    (htokens : Token.read text.toList = .ok (before ++ [.group .brace body span]))
    (hbefore : before.any (Token.isGroup .brace) = false) (ht : TypeTree.ofTokens before = .ok t) :
    read text origin = (fill origin [] body).map fun filled => ⟨t, filled.1, filled.2, origin⟩ := by
  obtain ⟨htake, hdrop⟩ := head_of_split (by simpa using hbefore) body span []
  obtain ⟨first, more, rfl⟩ := List.exists_cons_of_ne_nil (TypeTree.ne_nil_of_ofTokens ht)
  unfold head at htake
  unfold behind at hdrop
  unfold read
  simp only [htokens, htake, hdrop, ht, bind, Except.bind, pure, Except.pure, List.head?_cons,
    List.head?_nil]
  cases fill origin [] body <;> rfl

/-! ## Texts of types -/

/-- The text is read alone as a type with the given key, and text behind it is not part of a
comment. -/
structure IsTypeText (text : String) (key : ForeignType) : Prop where
  reads : ForeignType.read text = .ok key
  closed : Token.endsInComment text.toList = false

namespace IsTypeText

variable {key : ForeignType} {rest : List Char}

/-- Tokens that are those of the text but for their places. -/
def Tokens (text : String) (key : ForeignType) (new : List Token) : Prop :=
  (∃ u, TypeTree.ofTokens new = .ok u ∧ ForeignType.ofTree u = key) ∧
    new.any (Token.isGroup .brace) = Token.hasBraces text.toList

theorem tokens {ts new : List Token} (h : IsTypeText text key)
    (hread : Token.read text.toList = .ok ts) (hsame : unplacedAll new = unplacedAll ts) :
    Tokens text key new := by
  obtain ⟨ts', t, hread', ht, rfl⟩ := ForeignType.read_eq_ok h.reads
  obtain rfl : ts = ts' := Except.ok.inj (hread.symm.trans hread')
  refine ⟨TypeTree.ofTokens_elsewhere hsame ht, ?_⟩
  rw [Token.hasBraces, hread, ← Token.any_isGroup_unplacedAll, hsame, Token.any_isGroup_unplacedAll]

/-- At the start of a snippet the text is read as it is read alone. -/
theorem ahead (h : IsTypeText text key) (hrest : Breaks rest) :
    ∃ new q, Tokens text key new ∧
      Token.read (text.toList ++ rest) = Token.readFrom [] new.reverse q rest := by
  obtain ⟨ts, t, hread, ht, -⟩ := ForeignType.read_eq_ok h.reads
  have hne : text.toList ≠ [] := by
    intro hempty
    rw [hempty] at hread
    exact TypeTree.ne_nil_of_ofTokens ht (Except.ok.inj hread).symm
  obtain ⟨new, q, hsame, hahead⟩ := Token.read_ahead hrest hne hread h.closed
  exact ⟨new, q, h.tokens hread hsame, hahead⟩

/-- Inside of a snippet the text is read as it is read alone. -/
theorem inside (h : IsTypeText text key) (hmark : Token.startsWithOrderMark text.toList = false)
    (hrest : Breaks rest) (outer : List Token.OpenGroup) (before : List Token) (p : Position) :
    ∃ new q, Tokens text key new ∧
      Token.readFrom outer before p (text.toList ++ rest) =
        Token.readFrom outer (new.reverse ++ before) q rest := by
  obtain ⟨ts, t, hread, -, -⟩ := ForeignType.read_eq_ok h.reads
  obtain ⟨new, q, hsame, hinside⟩ :=
    Token.readFrom_inside hrest hmark hread h.closed outer before p
  exact ⟨new, q, h.tokens hread hsame, hinside⟩

/-- Before an empty body the text is the return type of a snippet, unless it has braces. -/
theorem result (h : IsTypeText text key) (origin : Location) :
    (Token.hasBraces text.toList = false → ∃ s, read (text ++ " \x7b \x7d") origin = .ok s ∧
      s.resultKey = key ∧ s.body = [] ∧ s.params = []) ∧
    (Token.hasBraces text.toList = true → ∃ d, read (text ++ " \x7b \x7d") origin = .error d) := by
  have hrest : Breaks [' ', '\x7b', ' ', '\x7d'] := .blank _
  obtain ⟨new, q, ⟨⟨u, hu, hkey⟩, hbraces⟩, hahead⟩ := h.ahead hrest
  obtain ⟨span, hbody⟩ := Token.readFrom_emptyBody new.reverse q
  have htokens : Token.read (text ++ " \x7b \x7d").toList =
      .ok (new ++ [.group .brace [] span]) := by
    rw [String.toList_append, ← List.reverse_reverse new, ← hbody]
    exact hahead
  rw [← hbraces]
  constructor
  · intro hnone
    exact ⟨_, read_of_tokens htokens hnone hu, hkey, rfl, rfl⟩
  · intro hsome
    cases hread : read (text ++ " \x7b \x7d") origin with
    | error d => exact ⟨d, rfl⟩
    | ok s =>
      -- What is read has no braces before its body.
      obtain ⟨-, before, body, span', htokens', hbefore, -⟩ := read_eq_ok hread
      obtain ⟨rfl, -⟩ := List.append_inj' (Except.ok.inj (htokens.symm.trans htokens')) rfl
      obtain ⟨t, ht, hbrace⟩ := List.any_eq_true.mp hsome
      rw [hbefore t ht] at hbrace
      cases hbrace

/-- A body that is a placeholder with the text as its type. -/
theorem readFrom_body (h : IsTypeText text key)
    (hmark : Token.startsWithOrderMark text.toList = false) (name : Name) (done : List Token)
    (p : Position) :
    ∃ spacing dollar declaration parens braces d,
      Token.readFrom [] done p (' ' :: '\x7b' :: ' ' :: '$' :: '(' ::
        (name.text.toList ++ ':' :: ' ' :: (text.toList ++ [')', ' ', '\x7d']))) =
      .ok (done.reverse ++ [.group .brace [.punct '$' spacing dollar,
        .group .parenthesis declaration parens] braces]) ∧
      Placeholder.Declaration.ofTokens declaration = .ok d ∧ d.name = name.text ∧ d.key = key := by
  have hhead : (name.text.toList ++ ':' :: ' ' :: (text.toList ++ [')', ' ', '\x7d'])).head? ≠
      some '/' := by
    obtain ⟨c, more, hname, hsolid, -⟩ := name.toWord.head
    rw [hname]
    exact fun heq => hsolid.slash (Option.some.inj heq)
  -- The reader goes through the opening, the name, the type and the two closing delimiters.
  obtain ⟨dollar, spacing, start, start', q, hopen⟩ :=
    Token.readFrom_openPlaceholder done p hhead
  obtain ⟨span, colon, spacing', q', hname⟩ := Token.readFrom_name name
    [⟨.parenthesis, [.punct '$' spacing dollar], start⟩, ⟨.brace, done, start'⟩] q
    (text.toList ++ [')', ' ', '\x7d'])
  have hrest : Breaks [')', ' ', '\x7d'] := .closing _
  obtain ⟨new, q'', ⟨⟨u, hu, hkey⟩, -⟩, hinside⟩ := h.inside hmark hrest
    [⟨.parenthesis, [.punct '$' spacing dollar], start⟩, ⟨.brace, done, start'⟩]
    [.punct ':' spacing' colon, .ident name.text span] q'
  obtain ⟨parens, braces, hclose⟩ := Token.readFrom_closePlaceholder
    [.punct '$' spacing dollar] done
    (new.reverse ++ [.punct ':' spacing' colon, .ident name.text span]) start start' q''
  rw [List.reverse_append, List.reverse_reverse] at hclose
  exact ⟨spacing, dollar, _, parens, braces, _, hopen.trans (hname.trans (hinside.trans hclose)),
    Placeholder.Declaration.ofTokens_type name span colon spacing' hu, rfl, hkey⟩

/-- In a placeholder the text is the type of a parameter. -/
theorem placeholder {other : String} {result : ForeignType} (h : IsTypeText text key)
    (hmark : Token.startsWithOrderMark text.toList = false) (hother : IsTypeText other result)
    (hbraces : Token.hasBraces other.toList = false) (name : Name) (origin : Location) :
    ∃ s, read (other ++ " \x7b $(" ++ name.text ++ ": " ++ text ++ ") \x7d") origin = .ok s ∧
      s.resultKey = result ∧ s.paramNames = [name.text] ∧ s.paramKeys = [key] := by
  obtain ⟨before, q, ⟨⟨t, ht, hresult⟩, hbefore⟩, hahead⟩ := hother.ahead
    (.blank ('\x7b' :: ' ' :: '$' :: '(' ::
      (name.text.toList ++ ':' :: ' ' :: (text.toList ++ [')', ' ', '\x7d']))))
  obtain ⟨spacing, dollar, declaration, parens, braces, d, hbody, hd, hname, hkey⟩ :=
    h.readFrom_body hmark name before.reverse q
  have htokens : Token.read
      (other ++ " \x7b $(" ++ name.text ++ ": " ++ text ++ ") \x7d").toList =
      .ok (before ++ [.group .brace [.punct '$' spacing dollar,
        .group .parenthesis declaration parens] braces]) := by
    rw [← List.reverse_reverse before, ← hbody, ← hahead]
    simp [String.toList_append]
  have hfill : fill origin [] [.punct '$' spacing dollar, .group .parenthesis declaration parens] =
      .ok ([.ident d.name parens], [Occurrence.param origin ⟨dollar, d.name, d.type⟩]) :=
    fill_of_fills (.placeholder hd .nil) (.first rfl (.nil _))
  have hread : read _ origin = _ := read_of_tokens htokens (hbefore.trans hbraces) ht
  rw [hfill] at hread
  exact ⟨_, hread, hresult, congrArg (fun s => [s]) hname, congrArg (fun k => [k]) hkey⟩

end IsTypeText

/-! ## Placeholders wherever they stand -/

variable {s : Snippet} {tokens body : List Token} {slot : Slot} {d : Placeholder.Declaration}

/-- Filling goes through every slot of a body and takes what the slot declares. -/
theorem Fills.mem_of_slot {ts ts' : List Token} {os : List Occurrence} (h : Fills ts ts' os)
    (hslot : slot ∈ Slot.ofTokens ts) (hd : Placeholder.Declaration.ofTokens slot.inner = .ok d) :
    ⟨slot.dollar, d.name, d.type⟩ ∈ os := by
  induction h with
  | nil => simp [Slot.ofTokens] at hslot
  | placeholder hinner _ ih =>
    rw [Slot.ofTokens_placeholder] at hslot
    rcases List.mem_cons.mp hslot with rfl | hslot
    · obtain rfl := Except.ok.inj (hinner.symm.trans hd)
      exact List.mem_cons_self
    · exact List.mem_cons_of_mem _ (ih hslot)
  | group _ _ ihinner ih =>
    rw [Slot.ofTokens_group] at hslot
    rcases List.mem_append.mp hslot with hslot | hslot
    · exact List.mem_append_left _ (ihinner hslot)
    · exact List.mem_append_right _ (ih hslot)
  | leaf hleaf hdollar _ ih =>
    rw [Slot.ofTokens_leaf hleaf hdollar] at hslot
    exact ih hslot

/-- Of a snippet that is read, every slot declares a parameter. -/
theorem param_of_slot (h : read text origin = .ok s) (htokens : Token.read text.toList = .ok tokens)
    (hslot : slot ∈ slots tokens) (hd : Placeholder.Declaration.ofTokens slot.inner = .ok d) :
    ∃ p ∈ s.params, p.name = d.name ∧ p.key = d.key := by
  obtain ⟨before, body, span, os, htokens', hbefore, hfills, -, hgathers, -⟩ := read_fills h
  obtain rfl := Except.ok.inj (htokens'.symm.trans htokens)
  rw [slots, (head_of_split hbefore body span []).2] at hslot
  have hmem := hfills.mem_of_slot hslot hd
  obtain ⟨p, hp, hname⟩ := List.mem_map.mp (hgathers.mem_names.mp (List.mem_map_of_mem hmem))
  exact ⟨p, hp, hname, (hgathers.key p hp _ hmem hname.symm).symm⟩

/-- **One language of types.** What is read alone as a type has the same key before a body and in a
placeholder, at whatever depth of a body that stands. Only a type with braces outside of all other
groups is refused before a body, as the first of them are taken for the body, and only a byte order
mark at its start may keep it out of a placeholder. -/
theorem read_takes_types {type : String} {key : ForeignType} (h : IsTypeText type key)
    (origin : Location) :
    (Token.hasBraces type.toList = false → ∃ s, read (type ++ " \x7b \x7d") origin = .ok s ∧
      s.resultKey = key ∧ s.body = [] ∧ s.params = []) ∧
    (Token.hasBraces type.toList = true → ∃ d, read (type ++ " \x7b \x7d") origin = .error d) ∧
    (∀ text s tokens slot (name : Name), read text origin = .ok s →
      Token.read text.toList = .ok tokens → slot ∈ slots tokens → slot.Holds name type →
      ∃ p ∈ s.params, p.name = name.text ∧ p.key = key) ∧
    ∀ other result (name : Name), Token.startsWithOrderMark type.toList = false →
      IsTypeText other result → Token.hasBraces other.toList = false →
      ∃ s, read (other ++ " \x7b $(" ++ name.text ++ ": " ++ type ++ ") \x7d") origin = .ok s ∧
        s.resultKey = result ∧ s.paramNames = [name.text] ∧ s.paramKeys = [key] := by
  refine ⟨(h.result origin).1, (h.result origin).2, ?_, ?_⟩
  · intro text s tokens slot name hread htokens hslot hholds
    obtain ⟨ts, us, span, spacing, colon, hts, hus, hinner⟩ := hholds
    obtain ⟨⟨u, hu, rfl⟩, -⟩ := h.tokens hts hus
    have hd := Placeholder.Declaration.ofTokens_type name span colon spacing hu
    rw [← hinner] at hd
    exact param_of_slot hread htokens hslot hd
  · intro other result name hmark hother hbraces
    exact h.placeholder hmark hother hbraces name origin

/-- Braces inside brackets are part of the type in both places. -/
theorem read_takes_types_array :
    let type := "[u8; \x7b 1 \x7d]"
    (∃ s, read (type ++ " \x7b \x7d") .none = .ok s ∧ s.resultKey = ⟨"[u8; \x7b1\x7d]"⟩ ∧
      s.body = [] ∧ s.params = []) ∧
    ∃ s, read ("()" ++ " \x7b $(" ++ "x" ++ ": " ++ type ++ ") \x7d") .none = .ok s ∧
      s.resultKey = .nothing ∧ s.paramNames = ["x"] ∧ s.paramKeys = [⟨"[u8; \x7b1\x7d]"⟩] := by
  intro type
  have htype : IsTypeText type ⟨"[u8; \x7b1\x7d]"⟩ := ⟨by decide +kernel, by decide +kernel⟩
  have hunit : IsTypeText "()" .nothing := ⟨by decide +kernel, by decide +kernel⟩
  obtain ⟨hresult, -, -, hparam⟩ := read_takes_types htype .none
  let name : Name := ⟨⟨"x", by decide +kernel⟩, by decide +kernel⟩
  exact ⟨hresult (by decide +kernel),
    hparam "()" .nothing name (by decide +kernel) hunit (by decide +kernel)⟩

/-- The braces of an argument are taken for the body, though a placeholder takes the same type. -/
theorem read_takes_types_braces :
    let type := "Foo<\x7b3\x7d>"
    ForeignType.read type = .ok ⟨"Foo<\x7b3\x7d>"⟩ ∧ Token.endsInComment type.toList = false ∧
      (¬ ∃ s, read (type ++ " \x7b \x7d") .none = .ok s ∧ s.resultKey = ⟨"Foo<\x7b3\x7d>"⟩) ∧
      (read ("() \x7b $(x: " ++ type ++ ") \x7d") .none).toOption.map paramKeys =
        some [⟨"Foo<\x7b3\x7d>"⟩] := by
  intro type
  refine ⟨by decide +kernel, by decide +kernel, ?_, by decide +kernel⟩
  rintro ⟨s, hread, -⟩
  have herror : (read (type ++ " \x7b \x7d") .none).toOption.isNone = true := by decide +kernel
  rw [hread] at herror
  cases herror

end Snippet

end Graft

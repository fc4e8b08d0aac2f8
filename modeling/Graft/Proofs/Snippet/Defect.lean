import Mathlib.Data.List.Induction
import Graft.Proofs.Snippet.Read

/-!
# Texts that are no snippets

A text follows the grammar of snippets, or there is something wrong with it. What is wrong with a
text is a list, each entry found on its own: of all that is wrong, a reading reports the first.
-/

namespace Graft

/-! ## Slots -/

/-- A dollar sign with parentheses behind it, where a placeholder belongs. -/
structure Slot where
  dollar : Span
  inner : List Token

def Placeholder.Declaration.key (d : Declaration) : ForeignType := .ofTree d.type

namespace Slot

mutual

/-- The slots inside a token. -/
def ofToken : Token → List Slot
  | .group _ inner _ => ofTokens inner
  | _ => []

/-- The slots among tokens, at every depth, in the order of the text. What stands in the parentheses
of a slot is not looked into. -/
def ofTokens : List Token → List Slot
  | .punct '$' _ dollar :: .group .parenthesis inner _ :: ts => ⟨dollar, inner⟩ :: ofTokens ts
  | t :: ts => ofToken t ++ ofTokens ts
  | [] => []

end

def declaration? (s : Slot) : Option Placeholder.Declaration :=
  (Placeholder.Declaration.ofTokens s.inner).toOption

/-- The first declaration of a name among slots. -/
def first? (slots : List Slot) (name : String) : Option Placeholder.Declaration :=
  (slots.filterMap declaration?).find? (·.name = name)

/-- What is wrong with a slot that stands behind `earlier` ones: it holds no declaration, or the
first declaration of its name has another type. -/
def fault? (earlier : List Slot) (s : Slot) : Option Fault :=
  match Placeholder.Declaration.ofTokens s.inner with
  | .error e => some (.malformedPlaceholder (Token.displayAll s.inner) e.message)
  | .ok d => (first? earlier d.name).bind fun d₀ =>
    if d₀.key = d.key then none
    else some (.conflictingPlaceholder d.name d₀.key.spelling d.key.spelling)

/-- What is wrong with slots that stand behind `earlier` ones, in their order. -/
def defects (origin : Location) (earlier : List Slot) : List Slot → List Diagnostic
  | [] => []
  | s :: ss =>
    ((s.fault? earlier).map fun fault => .ofFault fault (Snippet.locate origin s.dollar)).toList ++
      defects origin (earlier ++ [s]) ss

variable {origin : Location} {earlier slots slots' : List Slot} {s : Slot} {inner ts : List Token}
  {d : Placeholder.Declaration} {dollar : Span}

theorem ofTokens_placeholder {spacing : Spacing} {span : Span} :
    ofTokens (.punct '$' spacing dollar :: .group .parenthesis inner span :: ts) =
      ⟨dollar, inner⟩ :: ofTokens ts :=
  ofTokens.eq_1 ..

theorem ofTokens_group {d : Delimiter} {span : Span} :
    ofTokens (.group d inner span :: ts) = ofTokens inner ++ ofTokens ts := by
  rw [ofTokens.eq_2 _ _ (by rintro _ _ _ _ _ ⟨⟩), ofToken.eq_1]

theorem ofTokens_leaf {t : Token} (hleaf : t.IsLeaf)
    (hdollar : ∀ dollar inner, ¬ OpensPlaceholder dollar inner (t :: ts)) :
    ofTokens (t :: ts) = ofTokens ts := by
  have hno : ∀ spacing dollar inner span rest, t = .punct '$' spacing dollar →
      ts = .group .parenthesis inner span :: rest → False := by
    rintro spacing dollar inner span rest rfl rfl
    exact hdollar dollar inner ⟨spacing, span, rest, rfl⟩
  rw [ofTokens.eq_2 _ _ hno, ofToken.eq_2 _ hleaf, List.nil_append]

/-- A dollar sign with parentheses behind it stands in `ts`, at some depth. -/
def Opened (dollar : Span) (inner ts : List Token) : Prop :=
  ∃ level suffix, Token.Within level ts ∧ suffix <:+ level ∧ OpensPlaceholder dollar inner suffix

theorem opened_nil : ¬ Opened dollar inner [] := by
  rintro ⟨level, suffix, hlevel, hsuffix, spacing, span, rest, rfl⟩
  cases hlevel with
  | here => simp at hsuffix
  | inside hmem _ => simp at hmem

/-- What is opened among tokens is opened by the first of them, inside of it or behind it. -/
theorem opened_cons {t : Token} : Opened dollar inner (t :: ts) ↔
    OpensPlaceholder dollar inner (t :: ts) ∨
      (∃ d inner' span, t = .group d inner' span ∧ Opened dollar inner inner') ∨
      Opened dollar inner ts := by
  constructor
  · rintro ⟨level, suffix, hlevel, hsuffix, hopens⟩
    rcases hlevel.of_cons with rfl | ⟨d, inner', span, ht, hinner⟩ | hrest
    · rcases List.suffix_cons_iff.mp hsuffix with rfl | hsuffix
      · exact .inl hopens
      · exact .inr (.inr ⟨ts, suffix, .here, hsuffix, hopens⟩)
    · exact .inr (.inl ⟨d, inner', span, ht, level, suffix, hinner, hsuffix, hopens⟩)
    · exact .inr (.inr ⟨level, suffix, hrest, hsuffix, hopens⟩)
  · rintro (hopens | ⟨d, inner', span, rfl, level, suffix, hlevel, hrest⟩ |
      ⟨level, suffix, hlevel, hsuffix, hopens⟩)
    · exact ⟨t :: ts, t :: ts, .here, List.suffix_rfl, hopens⟩
    · exact ⟨level, suffix, .inside List.mem_cons_self hlevel, hrest⟩
    · cases hlevel with
      | here => exact ⟨t :: ts, suffix, .here, hsuffix.trans (List.suffix_cons t ts), hopens⟩
      | inside hmem hlevel =>
        exact ⟨level, suffix, .inside (List.mem_cons_of_mem _ hmem) hlevel, hsuffix, hopens⟩

/-- Dollar signs with parentheses behind them are the slots and those inside of slots. -/
theorem opened_iff {ts : List Token} : Opened dollar inner ts ↔
    ⟨dollar, inner⟩ ∈ ofTokens ts ∨ ∃ s ∈ ofTokens ts, Opened dollar inner s.inner := by
  induction ts using Snippet.fill_induction with
  | nil => simp [opened_nil, ofTokens]
  -- The sign and its group are one slot, and the group opens no other.
  | placeholder spacing dollar' inner' span ts ih =>
    have hopens : OpensPlaceholder dollar inner
        (.punct '$' spacing dollar' :: .group .parenthesis inner' span :: ts) ↔
        (⟨dollar, inner⟩ : Slot) = ⟨dollar', inner'⟩ := by
      constructor
      · rintro ⟨_, _, _, heq⟩
        cases heq
        rfl
      · intro heq
        cases heq
        exact ⟨spacing, span, ts, rfl⟩
    have hgroup : ¬ OpensPlaceholder dollar inner (.group .parenthesis inner' span :: ts) := by
      rintro ⟨_, _, _, ⟨⟩⟩
    rw [ofTokens_placeholder, opened_cons, opened_cons, hopens, ih]
    simp only [hgroup, reduceCtorEq, false_and, exists_false, Token.group.injEq, false_or,
      List.mem_cons, exists_eq_or_imp]
    constructor
    · rintro (h | ⟨_, _, _, ⟨rfl, rfl, rfl⟩, h⟩ | h | h)
      · exact .inl (.inl h)
      · exact .inr (.inl h)
      · exact .inl (.inr h)
      · exact .inr (.inr h)
    · rintro ((h | h) | h | h)
      · exact .inl h
      · exact .inr (.inr (.inl h))
      · exact .inr (.inl ⟨_, _, _, ⟨rfl, rfl, rfl⟩, h⟩)
      · exact .inr (.inr (.inr h))
  -- The slots of another group count as those of the tokens around it.
  | group d inner' span ts ihinner ih =>
    have hgroup : ¬ OpensPlaceholder dollar inner (.group d inner' span :: ts) := by
      rintro ⟨_, _, _, ⟨⟩⟩
    rw [ofTokens_group, opened_cons, ih]
    simp only [hgroup, false_or, List.mem_append, or_and_right, exists_or]
    constructor
    · rintro (⟨_, _, _, heq, h⟩ | h | h)
      · cases heq
        rcases ihinner.mp h with h | h
        · exact .inl (.inl h)
        · exact .inr (.inl h)
      · exact .inl (.inr h)
      · exact .inr (.inr h)
    · rintro ((h | h) | h | h)
      · exact .inl ⟨_, _, _, rfl, ihinner.mpr (.inl h)⟩
      · exact .inr (.inl h)
      · exact .inl ⟨_, _, _, rfl, ihinner.mpr (.inr h)⟩
      · exact .inr (.inr h)
  | leaf t ts hleaf hdollar ih =>
    have hinside : ¬ ∃ d inner' span, t = .group d inner' span ∧ Opened dollar inner inner' := by
      rintro ⟨d, inner', span, ht, -⟩
      exact hleaf d inner' span ht
    rw [ofTokens_leaf hleaf hdollar, opened_cons, ih]
    simp only [hdollar dollar inner, hinside, false_or]

/-! ## What is wrong with slots -/

theorem declaration?_eq_some : s.declaration? = some d ↔
    Placeholder.Declaration.ofTokens s.inner = .ok d := by
  unfold declaration?
  cases Placeholder.Declaration.ofTokens s.inner <;> simp [Except.toOption]

theorem defects_append : defects origin earlier (slots ++ slots') =
    defects origin earlier slots ++ defects origin (earlier ++ slots) slots' := by
  induction slots generalizing earlier with
  | nil => simp [defects]
  | cons s slots ih => simp [defects, ih, List.append_assoc]

theorem defects_singleton : defects origin earlier [s] =
    ((s.fault? earlier).map fun fault => .ofFault fault (Snippet.locate origin s.dollar)).toList :=
  List.append_nil _

theorem first?_append_declared (earlier : List Slot) (hd : s.declaration? = some d)
    (name : String) :
    first? (earlier ++ [s]) name =
      (first? earlier name <|> if d.name = name then some d else none) := by
  simp only [first?, List.filterMap_append, List.filterMap_cons, hd, List.filterMap_nil,
    List.find?_append, List.find?_cons, List.find?_nil]
  by_cases hname : d.name = name <;> simp [hname]

/-- The parameters `found` are the first declarations of their names among slots. -/
def Known (found : List Placeholder) (slots : List Slot) : Prop :=
  ∀ name, (found.find? (·.name = name)).map (·.key) = (first? slots name).map (·.key)

theorem known_nil : Known [] [] := fun _ => rfl

/-- A result is as the slots gone through have it: the first of what is wrong with them, or else the
first declarations of their names. -/
def Reports {α : Type} (origin : Location) (earlier slots : List Slot) :
    Except Diagnostic (α × List Placeholder) → Prop
  | .error d => (defects origin earlier slots).head? = some d
  | .ok (_, found) => defects origin earlier slots = [] ∧ Known found (earlier ++ slots)

namespace Reports

variable {α β : Type} {found : List Placeholder}

theorem pure (h : Known found earlier) (a : α) : Reports origin earlier [] (.ok (a, found)) :=
  ⟨rfl, by rwa [List.append_nil]⟩

theorem bind {x : Except Diagnostic (α × List Placeholder)}
    {f : α × List Placeholder → Except Diagnostic (β × List Placeholder)}
    (hx : Reports origin earlier slots x)
    (hf : ∀ a found, Known found (earlier ++ slots) →
      Reports origin (earlier ++ slots) slots' (f (a, found))) :
    Reports origin earlier (slots ++ slots') (x >>= f) := by
  cases x with
  | error d =>
    show (defects origin earlier (slots ++ slots')).head? = some d
    have hd : (defects origin earlier slots).head? = some d := hx
    rw [defects_append, List.head?_append, hd]
    rfl
  | ok r =>
    obtain ⟨a, found⟩ := r
    obtain ⟨hnone, hknown⟩ := hx
    have hrest := hf a found hknown
    show Reports origin earlier (slots ++ slots') (f (a, found))
    cases hresult : f (a, found) with
    | error d =>
      rw [hresult] at hrest
      show (defects origin earlier (slots ++ slots')).head? = some d
      rw [defects_append, hnone]
      exact hrest
    | ok r' =>
      rw [hresult] at hrest
      refine ⟨?_, by rw [← List.append_assoc]; exact hrest.2⟩
      rw [defects_append, hnone]
      exact hrest.1

end Reports

variable {found : List Placeholder}

/-- A slot is declared as a placeholder just where nothing is wrong with it. -/
theorem declare_reports (h : Known found earlier) : Reports origin earlier [s]
    (Placeholder.declare s.inner (Snippet.locate origin s.dollar) found) := by
  rw [Reports.eq_def, defects_singleton]
  unfold fault? Placeholder.declare
  cases hd : Placeholder.Declaration.ofTokens s.inner with
  | error e => rfl
  | ok d =>
    have hfirst := first?_append_declared earlier (declaration?_eq_some.mpr hd)
    -- What is known before tells whether the name is declared, and with which type.
    have hname := h d.name
    have htype : ForeignType.ofTree d.type = d.key := rfl
    dsimp only
    rw [htype]
    cases hp : found.find? (·.name = d.name) with
    | none =>
      rw [hp, Option.map_none, eq_comm, Option.map_eq_none_iff] at hname
      rw [hname]
      refine ⟨rfl, fun name => ?_⟩
      rw [hfirst, List.find?_append, Option.map_or, h name, Option.orElse_eq_orElse,
        Option.orElse_eq_or, Option.map_or]
      by_cases heq : d.name = name
      · simp [heq]
      · simp [heq]
    | some p =>
      rw [hp, Option.map_some, eq_comm, Option.map_eq_some_iff] at hname
      obtain ⟨d₀, hd₀, hkey⟩ := hname
      rw [hd₀, Option.bind_some, hkey]
      by_cases hsame : p.key = d.key
      · dsimp only
        rw [if_pos hsame, if_pos hsame]
        refine ⟨rfl, fun name => ?_⟩
        rw [hfirst, h name, Option.orElse_eq_orElse, Option.orElse_eq_or, Option.map_or]
        by_cases heq : d.name = name
        · rw [← heq, hd₀]
          rfl
        · simp [heq]
      · dsimp only
        rw [if_neg hsame, if_neg hsame]
        rfl

/-- Filling a body goes through its slots. -/
theorem fill_reports (h : Known found earlier) :
    Reports origin earlier (ofTokens ts) (Snippet.fill origin found ts) := by
  induction ts using Snippet.fill_induction generalizing found earlier with
  | nil =>
    rw [Snippet.fill.eq_3, ofTokens]
    exact .pure h []
  | placeholder spacing dollar inner span ts ih =>
    rw [ofTokens_placeholder, Snippet.fill.eq_1]
    show Reports origin earlier ([⟨dollar, inner⟩] ++ ofTokens ts) _
    refine (declare_reports h).bind fun name found h => ?_
    rw [← List.append_nil (ofTokens ts)]
    exact (ih h).bind fun ts' found h => .pure h _
  | group d inner span ts ihinner ih =>
    rw [ofTokens_group, Snippet.fill_group]
    refine (ihinner h).bind fun inner' found h => ?_
    rw [← List.append_nil (ofTokens ts)]
    exact (ih h).bind fun ts' found h => .pure h _
  | leaf t ts hleaf hdollar ih =>
    rw [ofTokens_leaf hleaf hdollar, Snippet.fill_leaf hleaf hdollar,
      ← List.append_nil (ofTokens ts)]
    exact (ih h).bind fun ts' found h => .pure h _

/-! ## Slots with which nothing is wrong -/

/-- A slot declares a name with a type, with a colon between the two. -/
structure Declares (s : Slot) (d : Placeholder.Declaration) : Prop where
  parts : ∃ name mark colon type,
    s.inner = .ident d.name name :: .punct ':' mark colon :: type
  reads : Placeholder.Declaration.ofTokens s.inner = .ok d

theorem declares_iff : s.Declares d ↔ Placeholder.Declaration.ofTokens s.inner = .ok d :=
  ⟨Declares.reads, fun h => ⟨Placeholder.Declaration.ofTokens_eq_ok h, h⟩⟩

theorem Declares.unique {d' : Placeholder.Declaration} (h : s.Declares d) (h' : s.Declares d') :
    d = d' :=
  Except.ok.inj (h.reads.symm.trans h'.reads)

theorem fault?_eq_none : s.fault? earlier = none ↔
    ∃ d, s.Declares d ∧ ∀ d₀, first? earlier d.name = some d₀ → d₀.key = d.key := by
  simp only [declares_iff]
  unfold fault?
  cases Placeholder.Declaration.ofTokens s.inner with
  | error e => simp
  | ok d => simp [Option.bind_eq_none_iff]

theorem first?_eq_some {name : String} (h : first? slots name = some d) :
    d.name = name ∧ ∃ s ∈ slots, s.Declares d := by
  obtain ⟨s, hs, hd⟩ := List.mem_filterMap.mp (List.mem_of_find?_eq_some h)
  exact ⟨by simpa using List.find?_some h, s, hs, declares_iff.mpr (declaration?_eq_some.mp hd)⟩

theorem exists_first? (hs : s ∈ slots) (hd : s.Declares d) :
    ∃ d₀, first? slots d.name = some d₀ := by
  have hmem : d ∈ slots.filterMap declaration? :=
    List.mem_filterMap.mpr ⟨s, hs, declaration?_eq_some.mpr hd.reads⟩
  exact Option.isSome_iff_exists.mp (List.find?_isSome.mpr ⟨d, hmem, by simp⟩)

/-- Slots agree if each declares something and those of one name declare it with one type. -/
structure Agree (slots : List Slot) : Prop where
  declared : ∀ s ∈ slots, ∃ d, s.Declares d
  one_type : ∀ s ∈ slots, ∀ s' ∈ slots, ∀ d d', s.Declares d → s'.Declares d' →
    d.name = d'.name → d.key = d'.key

theorem agree_concat : Agree (slots ++ [s]) ↔ Agree slots ∧ s.fault? slots = none := by
  rw [fault?_eq_none]
  constructor
  · rintro ⟨hdeclared, htype⟩
    have hs : s ∈ slots ++ [s] := List.mem_append_right _ List.mem_cons_self
    refine ⟨⟨fun s' hs' => hdeclared s' (List.mem_append_left _ hs'), fun s₁ hs₁ s₂ hs₂ =>
      htype s₁ (List.mem_append_left _ hs₁) s₂ (List.mem_append_left _ hs₂)⟩, ?_⟩
    obtain ⟨d, hd⟩ := hdeclared s hs
    refine ⟨d, hd, fun d₀ hd₀ => ?_⟩
    obtain ⟨hname, s₀, hs₀, hd₀⟩ := first?_eq_some hd₀
    exact htype s₀ (List.mem_append_left _ hs₀) s hs d₀ d hd₀ hd hname
  · rintro ⟨⟨hdeclared, htype⟩, d, hd, hfirst⟩
    -- All slots of the name of the last one have the type of the first of them.
    have hlast : ∀ s' ∈ slots, ∀ d', s'.Declares d' → d'.name = d.name → d'.key = d.key := by
      intro s' hs' d' hd' hname
      obtain ⟨d₀, hd₀⟩ := exists_first? hs' hd'
      obtain ⟨hname₀, s₀, hs₀, hs₀d⟩ := first?_eq_some hd₀
      rw [htype s' hs' s₀ hs₀ d' d₀ hd' hs₀d hname₀.symm]
      exact hfirst d₀ (hname ▸ hd₀)
    refine ⟨fun s' hs' => ?_, fun s₁ hs₁ s₂ hs₂ d₁ d₂ hd₁ hd₂ hname => ?_⟩
    · rcases List.mem_append.mp hs' with hs' | hs'
      · exact hdeclared s' hs'
      · exact List.mem_singleton.mp hs' ▸ ⟨d, hd⟩
    · rcases List.mem_append.mp hs₁ with hmem₁ | hlast₁ <;>
        rcases List.mem_append.mp hs₂ with hmem₂ | hlast₂
      · exact htype s₁ hmem₁ s₂ hmem₂ d₁ d₂ hd₁ hd₂ hname
      · obtain rfl := List.mem_singleton.mp hlast₂
        obtain rfl := hd.unique hd₂
        exact hlast s₁ hmem₁ d₁ hd₁ hname
      · obtain rfl := List.mem_singleton.mp hlast₁
        obtain rfl := hd.unique hd₁
        exact (hlast s₂ hmem₂ d₂ hd₂ hname.symm).symm
      · obtain rfl := List.mem_singleton.mp hlast₁
        obtain rfl := List.mem_singleton.mp hlast₂
        rw [hd₁.unique hd₂]

theorem defects_eq_nil : defects origin [] slots = [] ↔ Agree slots := by
  induction slots using List.reverseRecOn with
  | nil => exact ⟨fun _ => ⟨nofun, nofun⟩, fun _ => rfl⟩
  | append_singleton slots s ih =>
    rw [defects_append, List.append_eq_nil_iff, ih, agree_concat, List.nil_append,
      defects_singleton]
    cases s.fault? slots <;> simp

end Slot

/-! ## Defects of a text -/

namespace Snippet

/-- What stands before the first group in braces. -/
def head (tokens : List Token) : List Token := tokens.takeWhile (!·.isGroup .brace)

/-- The first group in braces and what stands behind it. -/
def behind (tokens : List Token) : List Token := tokens.dropWhile (!·.isGroup .brace)

def missingBody? (origin : Location) (tokens : List Token) : Option Diagnostic :=
  if behind tokens = [] then
    some (.ofFault .missingBody
      (((head tokens).getLast?.map fun t => locate origin t.span).getD origin))
  else none

def missingReturnType? (origin : Location) (tokens : List Token) : Option Diagnostic :=
  if head tokens = [] then
    (behind tokens).head?.map fun t => .ofFault .missingReturnType (locate origin t.span.opening)
  else none

def trailing? (origin : Location) (tokens : List Token) : Option Diagnostic :=
  (behind tokens).tail.head?.map fun extra =>
    .ofFault (.malformed ("unexpected `" ++ extra.display ++ "` after the snippet body"))
      (locate origin extra.span)

def returnType? (origin : Location) (tokens : List Token) : Option Diagnostic :=
  match TypeTree.ofTokens (head tokens), (head tokens).head? with
  | .error e, some first =>
    some (.ofFault (.malformed ("invalid return type: " ++ e.message)) (locate origin first.span))
  | _, _ => none

/-- The slots of the body. -/
def slots (tokens : List Token) : List Slot :=
  match behind tokens with
  | .group _ body _ :: _ => Slot.ofTokens body
  | _ => []

/-- All that is wrong with a text, in the order in which it is reported. -/
def defects (text : String) (origin : Location) : List Diagnostic :=
  match Token.read text.toList with
  | .error place =>
    [.ofFault (.malformed Token.readFailure) (.point (origin.offset place))]
  | .ok tokens =>
    [missingBody? origin tokens, missingReturnType? origin tokens, trailing? origin tokens,
      returnType? origin tokens].filterMap id ++ Slot.defects origin [] (slots tokens)

/-- A text follows the grammar of snippets: a type, then a group in braces, the only one outside all
groups, with slots that agree. -/
def FollowsGrammar (text : String) : Prop :=
  ∃ head body span, Token.read text.toList = .ok (head ++ [.group .brace body span]) ∧
    head ≠ [] ∧ (∀ t ∈ head, t.isGroup .brace = false) ∧
    (∃ result, TypeTree.ofTokens head = .ok result) ∧ Slot.Agree (Slot.ofTokens body)

variable {text : String} {origin : Location}

theorem behind_cases (tokens : List Token) :
    behind tokens = [] ∨ ∃ body span after, behind tokens = .group .brace body span :: after := by
  cases h : behind tokens with
  | nil => exact .inl rfl
  | cons t after =>
    have hbrace := List.head?_dropWhile_not (!·.isGroup .brace) tokens
    have hdrop : tokens.dropWhile (!·.isGroup .brace) = t :: after := h
    rw [hdrop] at hbrace
    cases t with
    | group d body span =>
      obtain rfl := (split_at_brace hdrop).1
      exact .inr ⟨body, span, after, rfl⟩
    | ident | punct | literal => simp [Token.isGroup] at hbrace

/-- Reading a text reports the first of what is wrong with it. -/
theorem read_reports (text : String) (origin : Location) :
    (∃ d ds, defects text origin = d :: ds ∧ read text origin = .error d) ∨
    (defects text origin = [] ∧ ∃ s, read text origin = .ok s) := by
  unfold defects read
  cases Token.read text.toList with
  | error place => exact .inl ⟨_, [], rfl, rfl⟩
  | ok tokens =>
    have hhead : tokens.takeWhile (!·.isGroup .brace) = head tokens := rfl
    have hbehind : tokens.dropWhile (!·.isGroup .brace) = behind tokens := rfl
    simp only [hhead, hbehind, missingBody?, missingReturnType?, trailing?, returnType?, slots,
      bind, Except.bind, pure, Except.pure, throw, throwThe, MonadExceptOf.throw]
    -- The reader stops at the first of the defects, in the order in which they are listed.
    rcases behind_cases tokens with hnone | ⟨body, span, after, hbrace⟩
    · rw [hnone]
      exact .inl ⟨_, _, rfl, rfl⟩
    rw [hbrace]
    cases hfirst : head tokens with
    | nil => exact .inl ⟨_, _, rfl, rfl⟩
    | cons first rest =>
      cases after with
      | cons extra after => exact .inl ⟨_, _, rfl, rfl⟩
      | nil =>
        cases TypeTree.ofTokens (first :: rest) with
        | error e => exact .inl ⟨_, _, rfl, rfl⟩
        | ok result =>
          have hfill : Slot.Reports origin [] (Slot.ofTokens body) (fill origin [] body) :=
            Slot.fill_reports Slot.known_nil
          dsimp only [List.head?_cons]
          cases hbody : fill origin [] body with
          | error d =>
            rw [hbody] at hfill
            obtain ⟨ds, hds⟩ := List.head?_eq_some_iff.mp hfill
            exact .inl ⟨d, ds, hds, rfl⟩
          | ok filled =>
            rw [hbody] at hfill
            exact .inr ⟨hfill.1, _, rfl⟩

theorem head_of_split {before : List Token} (hbefore : ∀ t ∈ before, t.isGroup .brace = false)
    (body : List Token) (span : Span) (after : List Token) :
    head (before ++ .group .brace body span :: after) = before ∧
      behind (before ++ .group .brace body span :: after) = .group .brace body span :: after := by
  have hpass : ∀ t ∈ before, (!t.isGroup .brace) = true := by simpa using hbefore
  have hbrace : Token.isGroup .brace (.group .brace body span) = true := by simp [Token.isGroup]
  unfold head behind
  rw [List.takeWhile_append_of_pos hpass, List.dropWhile_append_of_pos hpass]
  simp [hbrace]

/-- Nothing is wrong with the texts that follow the grammar. -/
theorem defects_eq_nil (text : String) (origin : Location) :
    defects text origin = [] ↔ FollowsGrammar text := by
  unfold defects FollowsGrammar
  cases Token.read text.toList with
  | error place => simp
  | ok tokens =>
    simp only [List.append_eq_nil_iff, Slot.defects_eq_nil, List.filterMap_eq_nil_iff, id,
      List.forall_mem_cons, List.not_mem_nil, false_implies, implies_true, and_true]
    -- No defect of a kind says what the grammar asks for at its place, and the other way round.
    constructor
    · rintro ⟨⟨hbody, hreturn, htrailing, htype⟩, hagree⟩
      rcases behind_cases tokens with hnone | ⟨body, span, after, hbrace⟩
      · rw [missingBody?, if_pos hnone] at hbody
        cases hbody
      have hsplit := split_at_brace hbrace
      have hne : head tokens ≠ [] := by
        intro hempty
        rw [missingReturnType?, if_pos hempty, hbrace] at hreturn
        cases hreturn
      have hlast : after = [] := by
        rw [trailing?, hbrace] at htrailing
        simpa using htrailing
      have hresult : ∃ result, TypeTree.ofTokens (head tokens) = .ok result := by
        obtain ⟨first, rest, hfirst⟩ := List.exists_cons_of_ne_nil hne
        cases h : TypeTree.ofTokens (head tokens) with
        | error e =>
          rw [returnType?, h, hfirst] at htype
          cases htype
        | ok result => exact ⟨result, rfl⟩
      rw [slots, hbrace] at hagree
      rw [hlast] at hsplit
      exact ⟨head tokens, body, span, congrArg _ hsplit.2.1, hne, hsplit.2.2, hresult, hagree⟩
    · rintro ⟨before, body, span, htokens, hne, hbefore, ⟨result, hresult⟩, hagree⟩
      obtain rfl := Except.ok.inj htokens
      obtain ⟨hhead, hbehind⟩ := head_of_split hbefore body span []
      simp only [missingBody?, missingReturnType?, trailing?, returnType?, slots, hhead, hbehind,
        hresult]
      simp [hne, hagree]

/-- **The grammar of snippets.** A text is read just where it follows the grammar; else the reading
reports the first of all that is wrong with it: that it is no sequence of tokens, that it has no
body, no return type, something behind the body, a return type that is none, and then what is wrong
with its slots, from the first one on. The slots are all dollar signs with parentheses behind them,
at any depth of the body, but for those in the parentheses of a slot. -/
theorem read_first_defect (text : String) (origin : Location) :
    ((∃ s, read text origin = .ok s) ↔ FollowsGrammar text) ∧
    (∀ d, read text origin = .error d ↔ (defects text origin).head? = some d) ∧
    ∀ (body : List Token) (dollar : Span) (inner : List Token), Slot.Opened dollar inner body ↔
      ⟨dollar, inner⟩ ∈ Slot.ofTokens body ∨
        ∃ s ∈ Slot.ofTokens body, Slot.Opened dollar inner s.inner := by
  refine ⟨?_, ?_, fun body dollar inner => Slot.opened_iff⟩
  · rw [← defects_eq_nil text origin]
    rcases read_reports text origin with ⟨d, ds, hds, hread⟩ | ⟨hnone, hread⟩
    · simp [hds, hread]
    · exact iff_of_true hread hnone
  · intro d
    rcases read_reports text origin with ⟨d', ds, hds, hread⟩ | ⟨hnone, s, hread⟩
    · simp [hds, hread]
    · simp [hnone, hread]

/-- What stands in the parentheses of a slot may be anything that its type allows. -/
theorem read_passes_inner_slot :
    let text := "i32 { $(x: m!($(y))) }"
    (∃ s, read text .none = .ok s) ∧
    ∃ head body span dollar inner, Token.read text.toList = .ok (head ++ [.group .brace body span]) ∧
      Slot.Opened dollar inner body ∧ ∀ d, ¬ Slot.Declares ⟨dollar, inner⟩ d := by
  intro text
  have hok : (read text .none).toOption.isSome := by decide +kernel
  have hinner : (Token.read text.toList).toOption.map (fun tokens =>
      ((slots tokens).flatMap fun s => Slot.ofTokens s.inner).map (·.declaration?.isNone)) =
      some [true] := by
    decide +kernel
  cases hread : read text .none with
  | error d =>
    rw [hread] at hok
    cases hok
  | ok s =>
    obtain ⟨-, head, body, span, htokens, hhead, -⟩ := read_eq_ok hread
    have hslots : slots (head ++ [.group .brace body span]) = Slot.ofTokens body := by
      rw [slots, (head_of_split hhead body span []).2]
    rw [htokens] at hinner
    obtain ⟨⟨dollar, inner⟩, hone, hnone⟩ :=
      List.map_eq_singleton_iff.mp (Option.some.inj hinner)
    have hmem : (⟨dollar, inner⟩ : Slot) ∈
        (slots (head ++ [.group .brace body span])).flatMap fun s => Slot.ofTokens s.inner :=
      hone ▸ List.mem_cons_self
    obtain ⟨outer, houter, hmem⟩ := List.mem_flatMap.mp hmem
    rw [hslots] at houter
    refine ⟨⟨s, rfl⟩, head, body, span, dollar, inner, htokens, ?_, fun d hd => ?_⟩
    · exact Slot.opened_iff.mpr (.inr ⟨outer, houter, Slot.opened_iff.mpr (.inl hmem)⟩)
    · rw [Slot.declaration?_eq_some.mpr hd.reads] at hnone
      cases hnone

end Snippet

end Graft

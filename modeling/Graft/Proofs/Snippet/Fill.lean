import Graft.Proofs.Result
import Graft.Proofs.Token.Depth
import Graft.Snippet.Basic

/-!
# Filled bodies

The body of a snippet is what its text has between the braces, with a bare name in place of every
placeholder. What filling does to the tokens is a relation between two bodies and the placeholders
of the first; what it records of the placeholders is another, between two lists of parameters.
-/

namespace Graft

/-! ## Declarations -/

namespace Parser

variable {scope : Scope} {c c' : Cursor}

theorem name_eq_ok {s : String} (h : name scope c = .ok (s, c')) :
    ∃ span, c.rest = .ident s span :: c'.rest := by
  obtain ⟨ts, written, leftover⟩ := c
  match ts with
  | .ident s' span :: ts =>
    obtain ⟨_, c₁, hread, h⟩ := bind_eq_ok h
    obtain ⟨rfl, rfl⟩ := Prod.mk.inj (Except.ok.inj hread)
    simp only at h
    split at h
    · cases h
    · obtain ⟨rfl, rfl⟩ := Prod.mk.inj (Except.ok.inj h)
      exact ⟨span, rfl⟩
  | [] => cases h
  | .punct .. :: _ | .literal .. :: _ | .group .. :: _ => cases h

theorem op_colon_eq_ok {u : PUnit} (h : op ":" scope c = .ok (u, c')) :
    ∃ spacing span ts, c.rest = .punct ':' spacing span :: ts := by
  obtain ⟨ts, c₁, hrest, h⟩ := bind_eq_ok h
  obtain ⟨rfl, rfl⟩ := Prod.mk.inj (Except.ok.inj hrest)
  split at h
  next hop =>
    -- The operator is one mark, so that the test looks at the next token alone.
    change Look.op.go [':'] c.rest = true at hop
    match hts : c.rest with
    | .punct mark spacing span :: ts =>
      rw [hts] at hop
      have hmark : ':' = mark := of_decide_eq_true (Bool.and_eq_true_iff.mp hop).1
      exact ⟨spacing, span, ts, by rw [hmark]⟩
    | [] | .ident .. :: _ | .literal .. :: _ | .group .. :: _ =>
      rw [hts] at hop
      cases hop
  next => cases h

end Parser

/-- What a placeholder declares is the name that it starts with; a colon stands behind it. -/
theorem Placeholder.Declaration.ofTokens_eq_ok {inner : List Token} {d : Declaration}
    (h : ofTokens inner = .ok d) :
    ∃ name spacing colon type, inner = .ident d.name name :: .punct ':' spacing colon :: type := by
  unfold ofTokens Parser.run at h
  split at h
  · cases h
  next d' c hrun =>
    obtain ⟨s, c₁, hname, hrun⟩ := Parser.bind_eq_ok hrun
    obtain ⟨u, c₂, hop, hrun⟩ := Parser.bind_eq_ok hrun
    obtain ⟨type, c₃, -, hrun⟩ := Parser.bind_eq_ok hrun
    obtain ⟨rfl, rfl⟩ := Prod.mk.inj (Except.ok.inj hrun)
    obtain ⟨span, hinner⟩ := Parser.name_eq_ok hname
    obtain ⟨spacing, colon, ts, hcolon⟩ := Parser.op_colon_eq_ok hop
    have hd : d = ⟨s, type⟩ := by
      -- Nothing is left unread, in a group or behind the type.
      split at h
      · cases h
      split at h
      · exact (Except.ok.inj h).symm
      · cases h
    rw [hd]
    exact ⟨span, spacing, colon, ts, hinner.trans (congrArg _ hcolon)⟩

/-- A placeholder in a body: where its dollar sign stands, and what it declares. -/
structure Occurrence where
  dollar : Span
  name : String
  type : TypeTree

namespace Occurrence

def key (o : Occurrence) : ForeignType := .ofTree o.type

/-- The parameter that the first placeholder of its name becomes. -/
def param (origin : Location) (o : Occurrence) : Placeholder :=
  ⟨o.name, o.type, o.key, Snippet.locate origin o.dollar⟩

end Occurrence

/-- Among the tokens of `level`, `o` is a dollar sign with a declaration in parentheses behind it.
-/
def Occurrence.StandsIn (o : Occurrence) (level : List Token) : Prop :=
  ∃ before spacing name mark colon type span after,
    level = before ++ .punct '$' spacing o.dollar ::
      .group .parenthesis (.ident o.name name :: .punct ':' mark colon :: type) span :: after ∧
    Placeholder.Declaration.ofTokens (.ident o.name name :: .punct ':' mark colon :: type) =
      .ok ⟨o.name, o.type⟩

/-- A dollar sign with a group in parentheses right behind it. -/
def OpensPlaceholder (dollar : Span) (inner ts : List Token) : Prop :=
  ∃ spacing span rest, ts = .punct '$' spacing dollar :: .group .parenthesis inner span :: rest

theorem Occurrence.StandsIn.dollar_mem {o : Occurrence} {level : List Token}
    (h : o.StandsIn level) : ∃ spacing, .punct '$' spacing o.dollar ∈ level := by
  obtain ⟨before, spacing, name, mark, colon, type, span, after, rfl, -⟩ := h
  exact ⟨spacing, List.mem_append_right _ List.mem_cons_self⟩

theorem OpensPlaceholder.dollar_mem {dollar : Span} {inner ts : List Token}
    (h : OpensPlaceholder dollar inner ts) : ∃ spacing, .punct '$' spacing dollar ∈ ts := by
  obtain ⟨spacing, span, rest, rfl⟩ := h
  exact ⟨spacing, List.mem_cons_self⟩

namespace Snippet

/-- `filled` is `body` with names in place of its placeholders, which are the given ones in the
order of the text. What stands in the parentheses of a placeholder is not looked into. -/
inductive Fills : (body filled : List Token) → List Occurrence → Prop where
  | nil : Fills [] [] []
  | placeholder {spacing : Spacing} {dollar span : Span} {inner ts ts' : List Token}
      {d : Placeholder.Declaration} {os : List Occurrence}
      (hinner : Placeholder.Declaration.ofTokens inner = .ok d) : Fills ts ts' os →
      Fills (.punct '$' spacing dollar :: .group .parenthesis inner span :: ts)
        (.ident d.name span :: ts') (⟨dollar, d.name, d.type⟩ :: os)
  | group {d : Delimiter} {span : Span} {inner inner' ts ts' : List Token}
      {os os' : List Occurrence} : Fills inner inner' os → Fills ts ts' os' →
      Fills (.group d inner span :: ts) (.group d inner' span :: ts') (os ++ os')
  | leaf {t : Token} {ts ts' : List Token} {os : List Occurrence}
      (hleaf : t.IsLeaf)
      (hdollar : ∀ dollar inner, ¬ OpensPlaceholder dollar inner (t :: ts)) : Fills ts ts' os →
      Fills (t :: ts) (t :: ts') os

/-- What a reading records of placeholders one after the other: a name that is new, or again one
with the type that it had. -/
inductive Records (origin : Location) :
    (found : List Placeholder) → List Occurrence → (found' : List Placeholder) → Prop where
  | nil (found : List Placeholder) : Records origin found [] found
  | first {o : Occurrence} {os : List Occurrence} {found found' : List Placeholder}
      (hnew : found.find? (·.name = o.name) = none) :
      Records origin (found ++ [o.param origin]) os found' →
      Records origin found (o :: os) found'
  | again {o : Occurrence} {os : List Occurrence} {p : Placeholder}
      {found found' : List Placeholder}
      (hp : found.find? (·.name = o.name) = some p) (hkey : p.key = o.key) :
      Records origin found os found' → Records origin found (o :: os) found'

variable {origin : Location} {found found' : List Placeholder} {ts ts' inner : List Token}
  {os os' : List Occurrence} {dollar : Span}

/-! ## Going through a body -/

theorem fill_group {d : Delimiter} {span : Span} :
    fill origin found (.group d inner span :: ts) = (do
      let (inner, found) ← fill origin found inner
      let (ts, found) ← fill origin found ts
      return (.group d inner span :: ts, found)) := by
  rw [fill.eq_2 _ _ _ _ (by rintro _ _ _ _ _ ⟨⟩), fillToken.eq_1]
  cases fill origin found inner <;> rfl

theorem fill_leaf {t : Token} (hleaf : t.IsLeaf)
    (hdollar : ∀ dollar inner, ¬ OpensPlaceholder dollar inner (t :: ts)) :
    fill origin found (t :: ts) = (do
      let (ts, found) ← fill origin found ts
      return (t :: ts, found)) := by
  have hno : ∀ spacing dollar inner span rest, t = .punct '$' spacing dollar →
      ts = .group .parenthesis inner span :: rest → False := by
    rintro spacing dollar inner span rest rfl rfl
    exact hdollar dollar inner ⟨spacing, span, rest, rfl⟩
  rw [fill.eq_2 _ _ _ _ hno, fillToken.eq_2 _ _ _ hleaf]
  rfl

/-- Over the tokens of a body as filling goes through them. -/
theorem fill_induction {P : List Token → Prop} (nil : P [])
    (placeholder : ∀ spacing dollar inner span ts, P ts →
      P (.punct '$' spacing dollar :: .group .parenthesis inner span :: ts))
    (group : ∀ d inner span ts, P inner → P ts → P (.group d inner span :: ts))
    (leaf : ∀ (t : Token) (ts : List Token), t.IsLeaf →
      (∀ dollar inner, ¬ OpensPlaceholder dollar inner (t :: ts)) → P ts → P (t :: ts))
    (ts : List Token) : P ts := by
  -- On the number of tokens, as a placeholder takes two of the list at once.
  induction hsize : Token.sizeAll ts using Nat.strongRecOn generalizing ts with
  | ind size ih =>
    subst hsize
    cases ts with
    | nil => exact nil
    | cons t ts =>
      by_cases hopens : ∃ dollar inner, OpensPlaceholder dollar inner (t :: ts)
      · obtain ⟨dollar, inner, spacing, span, rest, heq⟩ := hopens
        obtain ⟨rfl, rfl⟩ := List.cons.inj heq
        refine placeholder spacing dollar inner span rest (ih _ ?_ rest rfl)
        simp only [Token.sizeAll, Token.size]
        omega
      · have hts : P ts := by
          refine ih _ ?_ ts rfl
          have := t.size_pos
          simp only [Token.sizeAll]
          omega
        cases t with
        | group d inner span =>
          refine group d inner span ts (ih _ ?_ inner rfl) hts
          simp only [Token.sizeAll, Token.size]
          omega
        | ident | punct | literal =>
          refine leaf _ ts ?_ (fun dollar inner h => hopens ⟨dollar, inner, h⟩) hts
          rintro _ _ _ ⟨⟩

/-! ## Reading a body -/

theorem Records.append (h : Records origin found os found') {found'' : List Placeholder}
    (h' : Records origin found' os' found'') : Records origin found (os ++ os') found'' := by
  induction h with
  | nil found => exact h'
  | first hnew _ ih => exact .first hnew (ih h')
  | again hp hkey _ ih => exact .again hp hkey (ih h')

theorem Records.of_append (h : Records origin found (os ++ os') found') :
    ∃ found₁, Records origin found os found₁ ∧ Records origin found₁ os' found' := by
  induction os generalizing found with
  | nil => exact ⟨found, .nil found, h⟩
  | cons o os ih =>
    cases h with
    | first hnew h =>
      obtain ⟨found₁, hos, hos'⟩ := ih h
      exact ⟨found₁, .first hnew hos, hos'⟩
    | again hp hkey h =>
      obtain ⟨found₁, hos, hos'⟩ := ih h
      exact ⟨found₁, .again hp hkey hos, hos'⟩

/-- What a placeholder says is recorded, if it is a declaration that fits those before it. -/
theorem declare_eq_ok {name : String}
    (h : Placeholder.declare inner (locate origin dollar) found = .ok (name, found')) :
    ∃ d, Placeholder.Declaration.ofTokens inner = .ok d ∧ name = d.name ∧
      Records origin found [⟨dollar, d.name, d.type⟩] found' := by
  unfold Placeholder.declare at h
  split at h
  · cases h
  next d hd =>
    refine ⟨d, hd, ?_⟩
    simp only at h
    split at h
    next hnone =>
      obtain ⟨rfl, rfl⟩ := Prod.mk.inj (Except.ok.inj h)
      exact ⟨rfl, .first hnone (.nil _)⟩
    next p hp =>
      split at h
      next hkey =>
        obtain ⟨rfl, rfl⟩ := Prod.mk.inj (Except.ok.inj h)
        exact ⟨rfl, .again hp hkey (.nil _)⟩
      · cases h

theorem fill_eq_ok (h : fill origin found ts = .ok (ts', found')) :
    ∃ os, Fills ts ts' os ∧ Records origin found os found' := by
  induction ts using fill_induction generalizing found ts' found' with
  | nil =>
    obtain ⟨rfl, rfl⟩ := Prod.mk.inj (Except.ok.inj ((fill.eq_3 origin found).symm.trans h))
    exact ⟨[], .nil, .nil _⟩
  | placeholder spacing dollar inner span ts ih =>
    rw [fill.eq_1] at h
    obtain ⟨⟨name, found₁⟩, hdeclare, h⟩ := except_bind_eq_ok h
    obtain ⟨⟨ts₁, found₂⟩, hrest, h⟩ := except_bind_eq_ok h
    obtain ⟨rfl, rfl⟩ := Prod.mk.inj (Except.ok.inj h)
    obtain ⟨d, hd, rfl, hfirst⟩ := declare_eq_ok hdeclare
    obtain ⟨os, hfills, hrecords⟩ := ih hrest
    exact ⟨_, .placeholder hd hfills, hfirst.append hrecords⟩
  | group d inner span ts ihinner ih =>
    rw [fill_group] at h
    obtain ⟨⟨inner', found₁⟩, hinner, h⟩ := except_bind_eq_ok h
    obtain ⟨⟨ts₁, found₂⟩, hrest, h⟩ := except_bind_eq_ok h
    obtain ⟨rfl, rfl⟩ := Prod.mk.inj (Except.ok.inj h)
    obtain ⟨os, hfills, hrecords⟩ := ihinner hinner
    obtain ⟨os', hfills', hrecords'⟩ := ih hrest
    exact ⟨_, .group hfills hfills', hrecords.append hrecords'⟩
  | leaf t ts hleaf hdollar ih =>
    rw [fill_leaf hleaf hdollar] at h
    obtain ⟨⟨ts₁, found₁⟩, hrest, h⟩ := except_bind_eq_ok h
    obtain ⟨rfl, rfl⟩ := Prod.mk.inj (Except.ok.inj h)
    obtain ⟨os, hfills, hrecords⟩ := ih hrest
    exact ⟨os, .leaf hleaf hdollar hfills, hrecords⟩

theorem declare_of_records {d : Placeholder.Declaration}
    (hd : Placeholder.Declaration.ofTokens inner = .ok d)
    (h : Records origin found (⟨dollar, d.name, d.type⟩ :: os) found') :
    ∃ found₁, Placeholder.declare inner (locate origin dollar) found = .ok (d.name, found₁) ∧
      Records origin found₁ os found' := by
  -- The two ways of recording are the two ways in which a declaration succeeds.
  cases h with
  | first hnew h =>
    refine ⟨_, ?_, h⟩
    unfold Placeholder.declare
    rw [hd]
    simp only [hnew]
    rfl
  | again hp hkey h =>
    refine ⟨_, ?_, h⟩
    unfold Placeholder.declare
    rw [hd]
    simp only [hp]
    exact if_pos hkey

theorem fill_of_fills (hfills : Fills ts ts' os) (hrecords : Records origin found os found') :
    fill origin found ts = .ok (ts', found') := by
  induction hfills generalizing found found' with
  | nil =>
    cases hrecords
    exact fill.eq_3 origin found
  | placeholder hd _ ih =>
    obtain ⟨found₁, hdeclare, hrecords⟩ := declare_of_records hd hrecords
    rw [fill.eq_1, hdeclare]
    show (fill origin found₁ _ >>= _) = _
    rw [ih hrecords]
    rfl
  | group _ _ ihinner ih =>
    obtain ⟨found₁, hinner, hrest⟩ := hrecords.of_append
    rw [fill_group, ihinner hinner]
    show (fill origin found₁ _ >>= _) = _
    rw [ih hrest]
    rfl
  | leaf hleaf hdollar _ ih =>
    rw [fill_leaf hleaf hdollar, ih hrecords]
    rfl

theorem Occurrence.StandsIn.cons {o : Occurrence} {level : List Token} (h : o.StandsIn level)
    (t : Token) : o.StandsIn (t :: level) := by
  obtain ⟨before, spacing, name, mark, colon, type, span, after, rfl, hd⟩ := h
  exact ⟨t :: before, spacing, name, mark, colon, type, span, after, rfl, hd⟩

/-- Every placeholder that filling finds stands in the body, at some depth. -/
theorem Fills.standsIn (h : Fills ts ts' os) {o : Occurrence} (ho : o ∈ os) :
    ∃ level, Token.Within level ts ∧ o.StandsIn level := by
  -- A token in front of the body puts nothing that stands in it elsewhere.
  have hcons : ∀ {ts : List Token} {t : Token},
      (∃ level, Token.Within level ts ∧ o.StandsIn level) →
      ∃ level, Token.Within level (t :: ts) ∧ o.StandsIn level := by
    rintro ts t ⟨level, hlevel, ho⟩
    cases hlevel with
    | here => exact ⟨_, .here, Occurrence.StandsIn.cons ho t⟩
    | inside hmem hlevel => exact ⟨level, .inside (List.mem_cons_of_mem _ hmem) hlevel, ho⟩
  induction h with
  | nil => cases ho
  | @placeholder spacing dollar span inner ts ts' d os hd _ ih =>
    rcases List.mem_cons.mp ho with rfl | ho
    · obtain ⟨name, mark, colon, type, rfl⟩ := Placeholder.Declaration.ofTokens_eq_ok hd
      exact ⟨_, .here, [], spacing, name, mark, colon, type, span, ts, rfl, hd⟩
    · exact hcons (hcons (ih ho))
  | group _ _ ihinner ih =>
    rcases List.mem_append.mp ho with ho | ho
    · obtain ⟨level, hlevel, ho⟩ := ihinner ho
      exact ⟨level, .inside List.mem_cons_self hlevel, ho⟩
    · exact hcons (ih ho)
  | leaf _ _ _ ih => exact hcons (ih ho)

/-! ## Filling a filled body -/

theorem Fills.group_of_group {d : Delimiter} {span : Span} {rest' : List Token}
    (h : Fills ts (.group d inner span :: rest') os) :
    ∃ inner₀ rest, ts = .group d inner₀ span :: rest := by
  cases h with
  | group _ _ => exact ⟨_, _, rfl⟩
  | leaf hleaf _ _ => exact absurd rfl (hleaf d inner span)

/-- A filled body has no placeholder left: filled once more it is what it was. -/
theorem Fills.again (h : Fills ts ts' os) : Fills ts' ts' [] := by
  induction h with
  | nil => exact .nil
  | placeholder _ _ ih =>
    refine .leaf (Token.isLeaf_ident _ _) ?_ ih
    rintro dollar inner ⟨_, _, _, ⟨⟩⟩
  | group _ _ ihinner ih => exact .group ihinner ih
  | leaf hleaf hdollar hrest ih =>
    refine .leaf hleaf ?_ ih
    -- The group behind a dollar sign would stand in the unfilled body as well.
    rintro dollar inner ⟨spacing, span, rest, heq⟩
    obtain ⟨rfl, rfl⟩ := List.cons.inj heq
    obtain ⟨inner₀, rest₀, rfl⟩ := hrest.group_of_group
    exact hdollar dollar inner₀ ⟨spacing, span, rest₀, rfl⟩

theorem Fills.not_opens (h : Fills ts ts' []) {level suffix : List Token}
    (hlevel : Token.Within level ts) (hsuffix : suffix <:+ level) :
    ¬ OpensPlaceholder dollar inner suffix := by
  -- The induction needs the list of placeholders as a variable; that it is empty is carried along.
  generalize hnone : ([] : List Occurrence) = os at h
  induction h generalizing level with
  | nil =>
    cases hlevel with
    | here =>
      rintro ⟨_, _, _, rfl⟩
      simp at hsuffix
    | inside hmem _ => simp at hmem
  | placeholder _ _ _ => cases hnone
  | group _ _ ihinner ih =>
    obtain ⟨rfl, rfl⟩ := List.append_eq_nil_iff.mp hnone.symm
    rcases hlevel.of_cons with rfl | ⟨d, inner, span, heq, hlevel⟩ | hlevel
    · rcases List.suffix_cons_iff.mp hsuffix with rfl | hsuffix
      · rintro ⟨_, _, _, ⟨⟩⟩
      · exact ih .here hsuffix rfl
    · obtain ⟨rfl, rfl, rfl⟩ := Token.group.inj heq
      exact ihinner hlevel hsuffix rfl
    · exact ih hlevel hsuffix rfl
  | leaf hleaf hdollar _ ih =>
    rcases hlevel.of_cons with rfl | ⟨d, inner, span, heq, -⟩ | hlevel
    · rcases List.suffix_cons_iff.mp hsuffix with rfl | hsuffix
      · exact hdollar dollar inner
      · exact ih .here hsuffix hnone
    · exact absurd heq (hleaf d inner span)
    · exact ih hlevel hsuffix hnone

/-! ## Placeholders that are refused -/

theorem declare_eq_error {location : Location} {d : Diagnostic}
    (h : Placeholder.declare inner location found = .error d) :
    d.location = location ∧
      ((∃ reason, d.fault = .malformedPlaceholder (Token.displayAll inner) reason) ∨
        ∃ name first second, d.fault = .conflictingPlaceholder name first second) := by
  unfold Placeholder.declare at h
  split at h
  · rw [← Except.error.inj h]
    exact ⟨rfl, .inl ⟨_, rfl⟩⟩
  · simp only at h
    split at h
    · cases h
    · split at h
      · cases h
      · rw [← Except.error.inj h]
        exact ⟨rfl, .inr ⟨_, _, _, rfl⟩⟩

/-- Filling fails at a placeholder: `d` is what is wrong with what it declares. -/
def RefusedIn (origin : Location) (d : Diagnostic) (ts : List Token) : Prop :=
  ∃ level suffix dollar inner found, Token.Within level ts ∧ suffix <:+ level ∧
    OpensPlaceholder dollar inner suffix ∧
    Placeholder.declare inner (locate origin dollar) found = .error d

theorem RefusedIn.cons {d : Diagnostic} (h : RefusedIn origin d ts) (t : Token) :
    RefusedIn origin d (t :: ts) := by
  obtain ⟨level, suffix, dollar, inner, found, hlevel, hsuffix, hd⟩ := h
  cases hlevel with
  | here =>
    have hlonger : suffix <:+ t :: ts := hsuffix.trans (List.suffix_cons t ts)
    exact ⟨t :: ts, suffix, dollar, inner, found, .here, hlonger, hd⟩
  | inside hmem hlevel =>
    have hdeeper : Token.Within level (t :: ts) := .inside (List.mem_cons_of_mem _ hmem) hlevel
    exact ⟨level, suffix, dollar, inner, found, hdeeper, hsuffix, hd⟩

theorem fill_eq_error {d : Diagnostic} (h : fill origin found ts = .error d) :
    RefusedIn origin d ts := by
  induction ts using fill_induction generalizing found with
  | nil => cases (fill.eq_3 origin found).symm.trans h
  | placeholder spacing dollar inner span ts ih =>
    rw [fill.eq_1] at h
    rcases except_bind_eq_error h with hdeclare | ⟨⟨name, found₁⟩, hdeclare, h⟩
    · exact ⟨_, _, dollar, inner, found, .here, List.suffix_rfl, ⟨spacing, span, ts, rfl⟩, hdeclare⟩
    · rcases except_bind_eq_error h with hrest | ⟨_, _, ⟨⟩⟩
      exact ((ih hrest).cons _).cons _
  | group d' inner span ts ihinner ih =>
    rw [fill_group] at h
    rcases except_bind_eq_error h with hinner | ⟨⟨inner', found₁⟩, hinner, h⟩
    · obtain ⟨level, suffix, dollar, inner', found', hlevel, hd⟩ := ihinner hinner
      exact ⟨level, suffix, dollar, inner', found', .inside List.mem_cons_self hlevel, hd⟩
    · rcases except_bind_eq_error h with hrest | ⟨_, _, ⟨⟩⟩
      exact (ih hrest).cons _
  | leaf t ts hleaf hdollar ih =>
    rw [fill_leaf hleaf hdollar] at h
    rcases except_bind_eq_error h with hrest | ⟨_, _, ⟨⟩⟩
    exact (ih hrest).cons t

end Snippet

end Graft

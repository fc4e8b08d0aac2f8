import Graft.Call.Haskell
import Graft.Proofs.Quote.Scan
import Graft.Proofs.Snippet.Read
import Graft.Proofs.Text.LineIndex
import Graft.Proofs.Token.Span

/-!
# Places of snippets in host files

A snippet is read on its own, and what it says of places is shifted to where its quote stands. Every
such place is the one that the host file itself has for the same characters.
-/

namespace Graft

variable {source : String} {marks : CommentSyntax} {isQuoter : String → Bool} {quotes : List Quote}
  {q : Quote}

/-- A slice of a text stands in it. -/
theorem eq_append_of_slice? {cs inside : List Char} {first last : Nat}
    (h : slice? cs first last = some inside) :
    ∃ before after, cs = before ++ inside ++ after ∧ byteLength before = first := by
  obtain ⟨⟨front, after⟩, hlast, h⟩ := Option.bind_eq_some_iff.mp h
  obtain ⟨⟨before, inside'⟩, hfirst, h⟩ := Option.bind_eq_some_iff.mp h
  obtain rfl := Option.some.inj h
  obtain ⟨rfl, -⟩ := eq_append_of_splitAtByte? hlast
  obtain ⟨rfl, hbefore⟩ := eq_append_of_splitAtByte? hfirst
  exact ⟨before, after, rfl, hbefore⟩

namespace Quote

/-- The byte of the host file at which the body of a quote starts, behind bracket, quoter and bar.
-/
def bodyFirst (q : Quote) : Nat := q.span.first + byteLength q.quoter.toList + 2

/-- The body of a quote that a scan finds stands in the file, and its location is where it starts.
-/
theorem body_of_scan (h : scan source marks isQuoter = .ok quotes) (hq : q ∈ quotes) :
    ∃ before after, source.toList = before ++ q.body.toList ++ after ∧
      byteLength before = q.bodyFirst ∧
      q.bodyLocation = .point (positionAt source.toList q.bodyFirst) := by
  obtain ⟨-, -, hslice⟩ := stands_of_scan h hq
  obtain ⟨outside, after, hsource, houtside⟩ := eq_append_of_slice? hslice
  obtain ⟨f, hf⟩ := ofFound_of_scan h hq
  have hfirst : q.bodyFirst = f.bodyFirst := by
    rw [hf, bodyFirst, ofFound, String.toList_ofList]
    rfl
  refine ⟨outside ++ '[' :: q.quoter.toList ++ ['|'], '|' :: ']' :: after, ?_, ?_, ?_⟩
  · rw [hsource, text]
    simp
  · have hbracket : '['.utf8Size = 1 := rfl
    have hbar : '|'.utf8Size = 1 := rfl
    simp only [byteLength_append, byteLength_cons, byteLength_nil, bodyFirst]
    omega
  · rw [hfirst, hf]
    rfl

theorem offset_eq (h : scan source marks isQuoter = .ok quotes) (hq : q ∈ quotes)
    {before after : List Char} (hbody : q.body.toList = before ++ after) :
    q.bodyLocation.offset (.behind before) =
      positionAt source.toList (q.bodyFirst + byteLength before) := by
  obtain ⟨outside, behind, hsource, hfirst, hlocation⟩ := body_of_scan h hq
  have hplace := offset_eq_positionAt outside before (after ++ behind)
  have hfile : outside ++ before ++ (after ++ behind) = source.toList := by
    rw [hsource, hbody]
    simp
  rw [hlocation, ← hfirst, ← hfile]
  exact hplace

/-- In the body of `q`, `span` covers `inside`, and `l` is the location of just that stretch of the
host file. -/
def StandsAt (source : List Char) (q : Quote) (before inside after : List Char) (span : Span)
    (l : Location) : Prop :=
  q.body.toList = before ++ inside ++ after ∧
    span = ⟨.behind before, .behind (before ++ inside)⟩ ∧
    slice? source (q.bodyFirst + byteLength before) (q.bodyFirst + byteLength (before ++ inside)) =
      some inside ∧
    l = locationAt source ⟨q.bodyFirst + byteLength before,
      q.bodyFirst + byteLength (before ++ inside)⟩

/-- The places that the body of a quote has for itself, shifted, are those of the host file. -/
structure Agrees (source : List Char) (q : Quote) : Prop where
  /-- Every place of the body is that of its byte in the file. -/
  position : ∀ before after, q.body.toList = before ++ after →
    q.bodyLocation.offset (.behind before) = positionAt source (q.bodyFirst + byteLength before)
  /-- Every token, at every depth, stands in the file where its span says. -/
  token : ∀ tokens, Token.read q.body.toList = .ok tokens → Token.Everywhere (fun t =>
    ∃ before inside after, t.Covers inside after ∧
      q.StandsAt source before inside after t.span (Snippet.locate q.bodyLocation t.span)) tokens
  /-- A parameter has the location of the dollar sign of its first placeholder. -/
  param : ∀ s, Snippet.read q.body q.bodyLocation = .ok s → ∀ p ∈ s.params,
    ∃ (o : Occurrence) (tokens level : List Token) (before after : List Char),
      Token.read q.body.toList = .ok tokens ∧ Token.Within level tokens ∧ o.StandsIn level ∧
      p = o.param q.bodyLocation ∧
      q.StandsAt source before ['$'] after o.dollar p.location
  /-- What is wrong with a placeholder has the location of its dollar sign. -/
  refused : ∀ d, Snippet.read q.body q.bodyLocation = .error d →
    ((∃ text reason, d.fault = .malformedPlaceholder text reason) ∨
      ∃ name first second, d.fault = .conflictingPlaceholder name first second) →
    ∃ tokens level suffix dollar inner before after, Token.read q.body.toList = .ok tokens ∧
      Token.Within level tokens ∧ suffix <:+ level ∧ OpensPlaceholder dollar inner suffix ∧
      q.StandsAt source before ['$'] after dollar d.location

/-- What stands in the body stands in the file. -/
theorem standsAt_locate (h : scan source marks isQuoter = .ok quotes) (hq : q ∈ quotes)
    {before inside after : List Char} {span : Span}
    (hbody : q.body.toList = before ++ inside ++ after)
    (hspan : span = ⟨.behind before, .behind (before ++ inside)⟩) :
    q.StandsAt source.toList before inside after span (Snippet.locate q.bodyLocation span) := by
  refine ⟨hbody, hspan, ?_, ?_⟩
  · obtain ⟨outside, behind, hsource, hfirst, -⟩ := body_of_scan h hq
    have hslice := slice?_append (outside ++ before) inside (after ++ behind)
    rw [byteLength_append, hfirst, Nat.add_assoc, ← byteLength_append] at hslice
    rw [hsource, hbody, ← hslice]
    simp
  · rw [Snippet.locate, hspan, offset_eq h hq (hbody.trans (List.append_assoc _ _ _)),
      offset_eq h hq hbody]
    rfl

theorem everywhere_standsAt (h : scan source marks isQuoter = .ok quotes) (hq : q ∈ quotes)
    {tokens : List Token} (htokens : Token.read q.body.toList = .ok tokens) :
    Token.Everywhere (fun t => ∃ before inside after, t.Covers inside after ∧
      q.StandsAt source.toList before inside after t.span
        (Snippet.locate q.bodyLocation t.span)) tokens := by
  intro level hlevel t ht
  obtain ⟨before, inside, after, hbody, hspan, hcovers⟩ :=
    Token.read_placed htokens level hlevel t ht
  exact ⟨before, inside, after, hcovers, standsAt_locate h hq hbody hspan⟩

/-- The dollar sign of a placeholder stands in the file where its span says. -/
theorem dollar_standsAt (h : scan source marks isQuoter = .ok quotes) (hq : q ∈ quotes)
    {tokens level : List Token} {spacing : Spacing} {dollar : Span}
    (htokens : Token.read q.body.toList = .ok tokens) (hlevel : Token.Within level tokens)
    (hdollar : .punct '$' spacing dollar ∈ level) :
    ∃ before after, q.StandsAt source.toList before ['$'] after dollar
      (Snippet.locate q.bodyLocation dollar) := by
  obtain ⟨before, after, hbody, hspan⟩ := (Token.read_placed htokens level hlevel _ hdollar).dollar
  exact ⟨before, after, standsAt_locate h hq hbody hspan⟩

theorem param_standsAt (h : scan source marks isQuoter = .ok quotes) (hq : q ∈ quotes) {s : Snippet}
    (hread : Snippet.read q.body q.bodyLocation = .ok s) {p : Placeholder} (hp : p ∈ s.params) :
    ∃ (o : Occurrence) (tokens level : List Token) (before after : List Char),
      Token.read q.body.toList = .ok tokens ∧ Token.Within level tokens ∧ o.StandsIn level ∧
        p = o.param q.bodyLocation ∧
        q.StandsAt source.toList before ['$'] after o.dollar p.location := by
  obtain ⟨-, head, body, span, htokens, -, hfill⟩ := Snippet.read_eq_ok hread
  obtain ⟨os, hfills, hrecords⟩ := Snippet.fill_eq_ok hfill
  obtain ⟨_, o, _, rfl, rfl, -⟩ := (hrecords.gathers .nil).first p hp
  obtain ⟨level, hlevel, ho⟩ := hfills.standsIn (List.mem_append_right _ List.mem_cons_self)
  -- The placeholders are those of the last group, and so of the text around it.
  have hinside : Token.Within level (head ++ [.group .brace body span]) :=
    .inside (List.mem_append_right _ List.mem_cons_self) hlevel
  obtain ⟨spacing, hdollar⟩ := ho.dollar_mem
  obtain ⟨before, after, hstands⟩ := dollar_standsAt h hq htokens hinside hdollar
  exact ⟨o, _, level, before, after, htokens, hinside, ho, rfl, hstands⟩

theorem refused_standsAt (h : scan source marks isQuoter = .ok quotes) (hq : q ∈ quotes)
    {d : Diagnostic} (hread : Snippet.read q.body q.bodyLocation = .error d)
    (hfault : ¬ Snippet.IsOutline d.fault) :
    ∃ tokens level suffix dollar inner before after, Token.read q.body.toList = .ok tokens ∧
      Token.Within level tokens ∧ suffix <:+ level ∧ OpensPlaceholder dollar inner suffix ∧
      q.StandsAt source.toList before ['$'] after dollar d.location := by
  obtain ⟨head, body, span, htokens, level, suffix, dollar, inner, found, hlevel, hsuffix, hopens,
    hdeclare⟩ := (Snippet.read_eq_error hread).resolve_left hfault
  have hinside : Token.Within level (head ++ [.group .brace body span]) :=
    .inside (List.mem_append_right _ List.mem_cons_self) hlevel
  obtain ⟨spacing, hdollar⟩ := hopens.dollar_mem
  obtain ⟨before, after, hstands⟩ :=
    dollar_standsAt h hq htokens hinside (hsuffix.subset hdollar)
  rw [← (Snippet.declare_eq_error hdeclare).1] at hstands
  exact ⟨_, level, suffix, dollar, inner, before, after, htokens, hinside, hsuffix, hopens, hstands⟩

/-- **Snippets and host files agree on places.** Whatever the file and wherever in it a quote
stands, a place, a token, a parameter and a placeholder at fault have one position in the body,
shifted, and in the file. -/
theorem scan_agrees (h : scan source marks isQuoter = .ok quotes) :
    ∀ q ∈ quotes, q.Agrees source.toList := by
  intro q hq
  refine ⟨fun _ _ => offset_eq h hq, fun _ => everywhere_standsAt h hq,
    fun _ hread _ => param_standsAt h hq hread, ?_⟩
  intro d hread hfault
  refine refused_standsAt h hq hread ?_
  rintro (⟨message, hd⟩ | hd | hd) <;> simp [hd] at hfault

theorem scan_agrees_lines :
    let source := "é = [rust| i32 \x7b\n  \"ü\".len() + $(a: i32) \x7d |]\n"
    ∃ quotes, scan source haskell.comments QuoteKind.isQuoter = .ok quotes ∧
      (∀ q ∈ quotes, q.Agrees source.toList) ∧
      quotes.map (fun q => (Snippet.read q.body q.bodyLocation).toOption.map fun s =>
        s.params.map (·.location)) = [some [⟨2, 14, 2, 15⟩]] := by
  intro source
  have hplaces : (scan source haskell.comments QuoteKind.isQuoter).toOption.map (fun quotes =>
      quotes.map (fun q => (Snippet.read q.body q.bodyLocation).toOption.map fun s =>
        s.params.map (·.location))) = some [some [⟨2, 14, 2, 15⟩]] := by decide +kernel
  cases hscan : scan source haskell.comments QuoteKind.isQuoter with
  | error d =>
    rw [hscan] at hplaces
    cases hplaces
  | ok quotes =>
    rw [hscan] at hplaces
    exact ⟨quotes, rfl, scan_agrees hscan, Option.some.inj hplaces⟩

end Quote

end Graft

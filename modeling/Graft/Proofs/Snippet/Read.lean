import Mathlib.Data.List.Nodup
import Mathlib.Data.List.TakeWhile
import Graft.Proofs.Snippet.Fill
import Graft.Token.Display

/-!
# Snippets that are read

A snippet that is read has the filled body of its text and the parameters of its placeholders, each
name once, in the order in which the names first occur.
-/

namespace Graft

namespace Snippet

variable {origin : Location} {found found' : List Placeholder} {os : List Occurrence}

/-! ## Parameters -/

theorem eraseDups_concat (names : List String) (name : String) :
    (names ++ [name]).eraseDups =
      if name ∈ names then names.eraseDups else names.eraseDups ++ [name] := by
  rw [List.eraseDups_append]
  split
  next hmem =>
    have hremove : [name].removeAll names = [] := by simpa [List.removeAll] using hmem
    rw [hremove]
    exact List.append_nil _
  next hmem =>
    have hremove : [name].removeAll names = [name] := by simpa [List.removeAll] using hmem
    rw [hremove]
    rfl

/-- The parameters gathered from placeholders. -/
structure Gathers (origin : Location) (os : List Occurrence) (params : List Placeholder) :
    Prop where
  /-- The names of the placeholders, in the order in which they first occur. -/
  names : params.map (·.name) = (os.map (·.name)).eraseDups
  distinct : (params.map (·.name)).Nodup
  /-- Each parameter is what the first placeholder of its name says. -/
  first : ∀ p ∈ params, ∃ before o after, os = before ++ o :: after ∧ p = o.param origin ∧
    ∀ o' ∈ before, o'.name ≠ o.name
  /-- All placeholders of one name have the type of its parameter. -/
  key : ∀ p ∈ params, ∀ o ∈ os, o.name = p.name → o.key = p.key

namespace Gathers

variable {o : Occurrence} {p : Placeholder}

theorem nil : Gathers origin [] [] := ⟨rfl, .nil, nofun, nofun⟩

theorem mem_names (h : Gathers origin os found) {name : String} :
    name ∈ os.map (·.name) ↔ name ∈ found.map (·.name) := by
  rw [h.names, List.mem_eraseDups]

/-- One more placeholder, of a name that has not occurred. -/
theorem snoc_first (h : Gathers origin os found) (hnew : found.find? (·.name = o.name) = none) :
    Gathers origin (os ++ [o]) (found ++ [o.param origin]) := by
  have hfound : ∀ p ∈ found, p.name ≠ o.name := by simpa using hnew
  have hnot : o.name ∉ found.map (·.name) := by simpa using hfound
  have hnone : ∀ o' ∈ os, o'.name ≠ o.name := by
    intro o' ho' heq
    exact hnot (heq ▸ h.mem_names.mp (List.mem_map_of_mem ho'))
  refine ⟨?_, ?_, ?_, ?_⟩
  · rw [List.map_append, List.map_append, List.map_singleton, List.map_singleton,
      eraseDups_concat, if_neg (h.mem_names.not.mpr hnot), ← h.names]
    rfl
  · rw [List.map_append, List.map_singleton, ← List.concat_eq_append]
    exact h.distinct.concat hnot
  · intro p hp
    rcases List.mem_append.mp hp with hp | hp
    · obtain ⟨before, o', after, rfl, hp, hbefore⟩ := h.first p hp
      exact ⟨before, o', after ++ [o], by simp, hp, hbefore⟩
    · exact ⟨os, o, [], rfl, List.mem_singleton.mp hp, hnone⟩
  · intro p hp o' ho' hname
    rcases List.mem_append.mp hp with hp | hp
    · rcases List.mem_append.mp ho' with ho' | ho'
      · exact h.key p hp o' ho' hname
      · rw [List.mem_singleton.mp ho'] at hname
        exact absurd hname.symm (hfound p hp)
    · obtain rfl := List.mem_singleton.mp hp
      rcases List.mem_append.mp ho' with ho' | ho'
      · exact absurd hname (hnone o' ho')
      · rw [List.mem_singleton.mp ho']
        rfl

/-- One more placeholder, of a name that has occurred with the same type. -/
theorem snoc_again (h : Gathers origin os found) (hp : found.find? (·.name = o.name) = some p)
    (hkey : p.key = o.key) : Gathers origin (os ++ [o]) found := by
  have hmem : p ∈ found := List.mem_of_find?_eq_some hp
  have hname : p.name = o.name := by simpa using List.find?_some hp
  refine ⟨?_, h.distinct, ?_, ?_⟩
  · have hold : o.name ∈ os.map (·.name) :=
      h.mem_names.mpr (hname ▸ List.mem_map_of_mem hmem)
    rw [List.map_append, List.map_singleton, eraseDups_concat, if_pos hold, h.names]
  · intro q hq
    obtain ⟨before, o', after, rfl, hq, hbefore⟩ := h.first q hq
    exact ⟨before, o', after ++ [o], by simp, hq, hbefore⟩
  · intro q hq o' ho' hname'
    rcases List.mem_append.mp ho' with ho' | ho'
    · exact h.key q hq o' ho' hname'
    · obtain rfl := List.mem_singleton.mp ho'
      -- Names are distinct, so the two parameters are one.
      rw [← List.inj_on_of_nodup_map h.distinct hmem hq (hname.trans hname')]
      exact hkey.symm

end Gathers

theorem Records.gathers {seen : List Occurrence} (h : Records origin found os found')
    (hseen : Gathers origin seen found) : Gathers origin (seen ++ os) found' := by
  induction h generalizing seen with
  | nil found => rwa [List.append_nil]
  | first hnew _ ih =>
    rw [List.append_cons]
    exact ih (hseen.snoc_first hnew)
  | again hp hkey _ ih =>
    rw [List.append_cons]
    exact ih (hseen.snoc_again hp hkey)

/-! ## Reading a snippet -/

/-- What is wrong with a text as a whole, before any placeholder is looked at. -/
def IsOutline (fault : Fault) : Prop :=
  (∃ message, fault = .malformed message) ∨ fault = .missingReturnType ∨ fault = .missingBody

theorem split_at_brace {d : Delimiter} {body tokens after : List Token} {span : Span}
    (h : tokens.dropWhile (!·.isGroup .brace) = .group d body span :: after) :
    d = .brace ∧
      tokens = tokens.takeWhile (!·.isGroup .brace) ++ .group .brace body span :: after ∧
      ∀ t ∈ tokens.takeWhile (!·.isGroup .brace), t.isGroup .brace = false := by
  have hd : d = .brace := by
    have hhead := List.head?_dropWhile_not (!·.isGroup .brace) tokens
    rw [h] at hhead
    have hgroup : Token.isGroup .brace (.group d body span) = true := by simpa using hhead
    exact (of_decide_eq_true hgroup).symm
  subst hd
  refine ⟨rfl, ?_, ?_⟩
  · rw [← h, List.takeWhile_append_dropWhile]
  · intro t ht
    simpa using List.mem_takeWhile_imp ht

/-- A text is refused as a whole, or it is a type and a last group in braces, and then only what is
between the braces can be wrong. -/
theorem read_cases (text : String) (origin : Location) :
    (∃ d, read text origin = .error d ∧ IsOutline d.fault) ∨
    ∃ head body span result, Token.read text.toList = .ok (head ++ [.group .brace body span]) ∧
      (∀ t ∈ head, t.isGroup .brace = false) ∧
      read text origin = (fill origin [] body).map fun filled =>
        ⟨result, filled.1, filled.2, origin⟩ := by
  -- One split for each check of the reading, in its order; behind the last of them it fills.
  generalize hread : read text origin = outcome
  simp only [read, bind, Except.bind, pure, Except.pure, throw, throwThe,
    MonadExceptOf.throw] at hread
  split at hread
  next tokens htokens =>
    split at hread
    next d body span after hdrop =>
      split at hread
      next first hfirst =>
        split at hread
        next => exact .inl ⟨_, hread.symm, .inl ⟨_, rfl⟩⟩
        next hafter =>
          split at hread
          next result _ =>
            obtain ⟨rfl, hbrace, hhead⟩ := split_at_brace hdrop
            have hlast : after = [] := List.head?_eq_none_iff.mp
              (Option.eq_none_iff_forall_not_mem.mpr fun t ht => hafter t ht)
            refine .inr ⟨_, body, span, result, ?_, hhead, ?_⟩
            · rw [htokens, ← hlast, ← hbrace]
            · rw [← hread]
              cases fill origin [] body <;> rfl
          next => exact .inl ⟨_, hread.symm, .inl ⟨_, rfl⟩⟩
      next => exact .inl ⟨_, hread.symm, .inr (.inl rfl)⟩
    next => exact .inl ⟨_, hread.symm, .inr (.inr rfl)⟩
  next => exact .inl ⟨_, hread.symm, .inl ⟨_, rfl⟩⟩

theorem read_eq_ok {text : String} {s : Snippet} (h : read text origin = .ok s) :
    s.location = origin ∧ ∃ head body span,
      Token.read text.toList = .ok (head ++ [.group .brace body span]) ∧
        (∀ t ∈ head, t.isGroup .brace = false) ∧ fill origin [] body = .ok (s.body, s.params) := by
  rcases read_cases text origin with
    ⟨d, hread, -⟩ | ⟨head, body, span, result, htokens, hhead, hread⟩
  · rw [h] at hread
    cases hread
  rcases hfill : fill origin [] body with d | filled
  · rw [h, hfill] at hread
    cases hread
  · rw [h, hfill] at hread
    obtain rfl := Except.ok.inj hread
    exact ⟨rfl, head, body, span, htokens, hhead, hfill⟩

/-- A text is refused as a whole or at one of its placeholders. -/
theorem read_eq_error {text : String} {d : Diagnostic} (h : read text origin = .error d) :
    IsOutline d.fault ∨ ∃ head body span,
      Token.read text.toList = .ok (head ++ [.group .brace body span]) ∧
        RefusedIn origin d body := by
  rcases read_cases text origin with
    ⟨d', hread, hfault⟩ | ⟨head, body, span, result, htokens, -, hread⟩
  · rw [h] at hread
    rw [Except.error.inj hread]
    exact .inl hfault
  rcases hfill : fill origin [] body with d' | filled
  · rw [h, hfill] at hread
    rw [Except.error.inj hread]
    exact .inr ⟨head, body, span, htokens, fill_eq_error hfill⟩
  · rw [h, hfill] at hread
    cases hread

theorem read_location {text : String} {s : Snippet} (h : read text origin = .ok s) :
    s.location = origin := (read_eq_ok h).1

/-- Of a text that is read, the last token is a group in braces, the only one outside all groups.
The body is what that group holds, filled; the parameters are those of its placeholders; no
placeholder is left, so that filling the body once more would change nothing and find nothing. -/
theorem read_fills {text : String} {s : Snippet} (h : read text origin = .ok s) :
    ∃ head body span os, Token.read text.toList = .ok (head ++ [.group .brace body span]) ∧
      (∀ t ∈ head, t.isGroup .brace = false) ∧
      Fills body s.body os ∧ (∀ o ∈ os, ∃ level, Token.Within level body ∧ o.StandsIn level) ∧
      Gathers origin os s.params ∧
      (∀ level suffix dollar inner, Token.Within level s.body → suffix <:+ level →
        ¬ OpensPlaceholder dollar inner suffix) ∧
      ∀ origin found, fill origin found s.body = .ok (s.body, found) := by
  obtain ⟨-, head, body, span, htokens, hhead, hfill⟩ := read_eq_ok h
  obtain ⟨os, hfills, hrecords⟩ := fill_eq_ok hfill
  have hagain : Fills s.body s.body [] := hfills.again
  refine ⟨head, body, span, os, htokens, hhead, hfills, fun o => hfills.standsIn,
    hrecords.gathers .nil, ?_, ?_⟩
  · intro level suffix dollar inner hlevel hsuffix
    exact hagain.not_opens hlevel hsuffix
  · intro origin found
    exact fill_of_fills hagain (.nil found)

/-- A dollar sign before a placeholder stays; a name that comes again is one parameter. -/
theorem read_fills_repeated :
    let text := "i32 { $$(x: i32) + f($(y: u8), [$(x: i32)]) }"
    ∃ s body os, read text .none = .ok s ∧ s.paramNames = ["x", "y"] ∧
      Token.displayAll s.body = "$x + f (y , [x])" ∧ Fills body s.body os ∧
      Gathers .none os s.params := by
  intro text
  have hread : (read text .none).map (fun s => (s.paramNames, Token.displayAll s.body)) =
      .ok (["x", "y"], "$x + f (y , [x])") := by decide +kernel
  cases h : read text .none with
  | error d =>
    rw [h] at hread
    cases hread
  | ok s =>
    rw [h] at hread
    obtain ⟨hnames, hbody⟩ := Prod.mk.inj (Except.ok.inj hread)
    obtain ⟨_, body, _, os, _, _, hfills, _, hgathers, _⟩ := read_fills h
    exact ⟨s, body, os, rfl, hnames, hbody, hfills, hgathers⟩

end Snippet

end Graft

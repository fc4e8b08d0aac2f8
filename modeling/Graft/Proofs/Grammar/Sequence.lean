import Graft.Proofs.Token.Bare
import Graft.Proofs.Grammar.Closing

/-!
# Items one after the other

Each item of a text is read up to the token that closes it, and nothing behind that is looked at. So
items are read the same in front of others, and two texts of items, one behind the other, are read as
the items of both.
-/

namespace Graft

namespace Token

/-- Where the tokens end an item ends, so nothing that is put behind them goes on with it. -/
def Sealed (ts : List Token) : Prop := ∀ t ∈ ts.getLast?, t.endsItem = true

theorem Sealed.nil : Sealed [] := nofun

theorem Sealed.of_append {ts us : List Token} (h : Sealed (ts ++ us)) (hne : us ≠ []) :
    Sealed us := by
  intro t ht
  refine h t ?_
  rw [List.getLast?_append_of_ne_nil ts hne]
  exact ht

/-- Behind what has been read of sealed tokens an item still ends. -/
theorem Sealed.holdsEnd {t : Token} {seen more : List Token} (h : Sealed (seen ++ t :: more)) :
    HoldsEnd (t :: more) := by
  have hlast := List.getLast?_eq_some_getLast (List.cons_ne_nil t more)
  exact ⟨_, List.getLast_mem (List.cons_ne_nil t more),
    h.of_append (List.cons_ne_nil t more) _ hlast⟩

end Token

namespace Grammar

open Graft.Parser
open Token (Sealed)

variable {n : Nat} {s : Scope} {c d : Cursor} {ts us : List Token} {its : List (List Token)}

/-! ## One item -/

theorem item?_eq (g : Grammar) (s : Scope) (c : Cursor) : g.item? s c =
    if c.rest = [] then .ok (none, c)
    else (g.item s { c with written := [] }).map fun (_, d) =>
      (some (c.rest.take (c.rest.length - d.rest.length)), { d with written := c.written }) := by
  obtain ⟨rest, written, leftover⟩ := c
  cases rest with
  | nil => rfl
  | cons t rest =>
    have hstep : g.item? s ⟨t :: rest, written, leftover⟩ =
        (taken g.item >>= fun ts => pure (some ts)) s ⟨t :: rest, written, leftover⟩ := rfl
    have htaken := taken_eq g.item s ⟨t :: rest, written, leftover⟩
    rw [hstep, if_neg (List.cons_ne_nil t rest)]
    cases hitem : g.item s ⟨t :: rest, [], leftover⟩ with
    | ok r =>
      rw [hitem] at htaken
      rw [bind_of_ok htaken]
      rfl
    | error e =>
      rw [hitem] at htaken
      rw [bind_of_error htaken]
      rfl

/-- An item is read if the text has not ended. -/
theorem item?_eq_none {g : Grammar} (h : g.item? s c = .ok (none, d)) : c.rest = [] ∧ d = c := by
  rw [item?_eq] at h
  split at h
  next hc =>
    cases h
    exact ⟨hc, rfl⟩
  next =>
    cases hitem : g.item s { c with written := [] } with
    | ok r =>
      rw [hitem] at h
      cases h
    | error e =>
      rw [hitem] at h
      cases h

/-- What is read as an item ends in the token that closes it, and before more tokens it is read the
same, whatever has been written. -/
structure ReadsItem (n : Nat) (s : Scope) (c : Cursor) (ts : List Token) (d : Cursor) : Prop where
  split : c.rest = ts ++ d.rest
  closed : ∃ t ∈ ts.getLast?, t.closesItem = true
  ahead (more w : List Token) : Sealed c.rest →
    (level n).item? s ⟨c.rest ++ more, w, c.leftover⟩ =
      .ok (some ts, ⟨d.rest ++ more, w, d.leftover⟩)

theorem readsItem (h : (level n).item? s c = .ok (some ts, d)) : ReadsItem n s c ts d := by
  rw [item?_eq] at h
  split at h
  next => cases h
  next hc =>
    cases hitem : (level n).item s { c with written := [] } with
    | error e =>
      rw [hitem] at h
      cases h
    | ok r =>
      obtain ⟨⟨⟩, m⟩ := r
      rw [hitem] at h
      cases h
      obtain ⟨t, ht, seen, hseen⟩ := Closes.ends [] (level n).item hitem
      have hrest : c.rest = (seen ++ [t]) ++ m.rest := by
        rw [List.append_assoc]
        exact hseen.symm
      have htake : ∀ more, (c.rest ++ more).take ((c.rest ++ more).length - (m.rest ++ more).length) =
          seen ++ [t] := by
        intro more
        have hlength : ((seen ++ [t]) ++ (m.rest ++ more)).length - (m.rest ++ more).length =
            (seen ++ [t]).length := by
          rw [List.length_append, Nat.add_sub_cancel]
        rw [hrest, List.append_assoc, hlength, List.take_left']
        rfl
      have htake' : c.rest.take (c.rest.length - m.rest.length) = seen ++ [t] := by
        have htake := htake []
        rwa [List.append_nil, List.append_nil] at htake
      rw [htake']
      refine ⟨hrest, ⟨t, List.getLast?_concat, ht⟩, fun more w hsealed => ?_⟩
      -- The token that closes the item is followed by what cannot belong to it.
      have hend : HoldsEnd (t :: m.rest) := by
        rw [← hseen] at hsealed
        exact hsealed.holdsEnd
      have hahead : (level n).item s ⟨c.rest ++ more, [], c.leftover⟩ =
          .ok (⟨⟩, m.before more) := Closes.ahead hitem ⟨seen, hseen⟩ hend
      have hne : c.rest ++ more ≠ [] := by simp [hc]
      rw [item?_eq, if_neg hne]
      show ((level n).item s ⟨c.rest ++ more, [], c.leftover⟩).map _ = _
      rw [hahead]
      show Except.ok (some ((c.rest ++ more).take _), _) = _
      rw [show (m.before more).rest = m.rest ++ more from rfl, htake]
      rfl

/-! ## All items -/

/-- What is read as items is all that is left, parted into the items. Before more tokens the same
items are read, and then those that follow. -/
structure ReadsItems (n : Nat) (s : Scope) (c : Cursor) (its : List (List Token)) (d : Cursor) :
    Prop where
  whole : d.rest = []
  parts : its.flatten = c.rest
  closed : ∀ t ∈ c.rest.getLast?, t.closesItem = true
  ahead (more w : List Token) : Sealed c.rest →
    many (level n).item? s ⟨c.rest ++ more, w, c.leftover⟩ =
      (many (level n).item? s ⟨more, w, d.leftover⟩).map fun (its', e) => (its ++ its', e)

theorem readsItems (h : many (level n).item? s c = .ok (its, d)) : ReadsItems n s c its d := by
  refine many_induction (P := fun c its d => ReadsItems n s c its d) ?_ ?_ ?_ h
  · intro c d hnone
    obtain ⟨hc, rfl⟩ := item?_eq_none hnone
    refine ⟨hc, hc.symm, by rw [hc]; nofun, fun more w _ => ?_⟩
    rw [hc, List.nil_append]
    cases many (level n).item? s ⟨more, w, d.leftover⟩ <;> rfl
  · -- Every item takes at least the token that closes it.
    intro c ts d hlast hfewer
    obtain ⟨hsplit, ⟨t, ht, -⟩, -⟩ := readsItem hlast
    have hpos : 0 < ts.length := by
      cases ts with
      | nil => cases ht
      | cons u ts => exact Nat.zero_lt_succ _
    rw [hsplit, List.length_append] at hfewer
    omega
  · intro c ts m its d hfirst hmore
    obtain ⟨hsplit, hclosed, hahead⟩ := readsItem hfirst
    obtain ⟨t, ht, hcloses⟩ := hclosed
    refine ⟨hmore.whole, ?_, fun u hu => ?_, fun more w hsealed => ?_⟩
    · rw [List.flatten_cons, hmore.parts, hsplit]
    · rw [hsplit] at hu
      by_cases hm : m.rest = []
      · rw [hm, List.append_nil] at hu
        obtain rfl := Option.some.inj (hu.symm.trans ht)
        exact hcloses
      · rw [List.getLast?_append_of_ne_nil ts hm] at hu
        exact hmore.closed u hu
    -- What holds of the end of all tokens holds of those behind the first item.
    · have hbehind : Sealed m.rest := by
        by_cases hm : m.rest = []
        · rw [hm]
          exact .nil
        · rw [hsplit] at hsealed
          exact hsealed.of_append hm
      have hfewer : (m.rest ++ more).length < (c.rest ++ more).length := by
        have hne : ts ≠ [] := by
          rintro rfl
          cases ht
        have hpos := List.length_pos_iff.mpr hne
        simp only [hsplit, List.length_append]
        omega
      show many.go _ s _ = _
      rw [many.go, hahead more w hsealed]
      simp only [hfewer, if_true]
      have hrest : many.go (level n).item? s ⟨m.rest ++ more, w, m.leftover⟩ =
          (many (level n).item? s ⟨more, w, d.leftover⟩).map fun (its', e) => (its ++ its', e) :=
        hmore.ahead more w hbehind
      rw [hrest]
      cases many (level n).item? s ⟨more, w, d.leftover⟩ <;> rfl

/-! ## Attributes of the whole -/

/-- An attribute of what encloses the tokens comes next. -/
def startsInner (ts : List Token) : Bool := Look.op "#" ts && Look.op "!" (Look.second ts)

theorem startsInner_append (h : Sealed ts) (us : List Token) (hne : ts ≠ []) :
    startsInner (ts ++ us) = startsInner ts := by
  obtain ⟨t, more, rfl⟩ := List.exists_cons_of_ne_nil hne
  have hend : HoldsEnd (t :: more) := (show Sealed ([] ++ t :: more) from h).holdsEnd
  have hhash : Look.Guard (Look.op "#" (t :: more)) (t :: more) := Look.guard_op (by decide)
  exact (Look.kept_second (t :: more) us (Look.op "#") (Look.op "!")).eq

theorem innerAttributes_of_not {g : Grammar} (h : startsInner c.rest = false) :
    g.innerAttributes s c = .ok (⟨⟩, c) := by
  refine whileReading_of_false ?_
  rw [bind_of_ok (show rest s c = .ok (c.rest, c) from rfl)]
  show (if startsInner c.rest = true then _ else Pure.pure false : Parser Bool) s c = _
  rw [if_neg (by rw [h]; exact Bool.false_ne_true)]
  rfl

/-- An attribute of what encloses the tokens is read if it is one of nothing else. -/
theorem innerAttributes_of_read {g : Grammar} {spacing spacing' : Spacing} {span span' place : Span}
    {inner written : List Token}
    (hbody : g.attributeBody ⟨place.closing⟩ ⟨inner, [], none⟩ = .ok (⟨⟩, ⟨[], written, none⟩))
    (h : startsInner ts = false) :
    ∃ w, g.innerAttributes s
      ⟨.punct '#' spacing span :: .punct '!' spacing' span' :: .group .bracket inner place :: ts,
        [], none⟩ = .ok (⟨⟩, ⟨ts, w, none⟩) := by
  have hbrackets : ∀ w, brackets g.attributeBody s ⟨.group .bracket inner place :: ts, w, none⟩ =
      .ok (⟨⟩, ⟨ts, .group .bracket written.reverse place :: w, none⟩) := by
    intro w
    show inside .bracket inner place g.attributeBody s ⟨ts, w, none⟩ = _
    rw [inside, hbody]
    simp
  let d : Cursor := ⟨ts, .group .bracket written.reverse place ::
    [.punct '!' .alone span', .punct '#' .alone span], none⟩
  refine ⟨d.written, (whileReading_of_true (d := d) ?_ ?_).trans (innerAttributes_of_not h)⟩
  · exact bind_of_ok (hbrackets [.punct '!' .alone span', .punct '#' .alone span])
  · show ts.length < ts.length + 3
    omega

/-! ## Whole texts -/

/-- The tokens are read as items, and nothing in their groups is left unread. -/
def IsSequence (ts : List Token) (its : List (List Token)) : Prop :=
  ∃ d, many (reading ts).item? ⟨.start⟩ ⟨ts, [], none⟩ = .ok (its, d) ∧ d.leftover = none

theorem refines_reading (h : Token.sizeAll ts ≤ Token.sizeAll us) :
    Refines (reading ts) (reading us) :=
  refines_level (Nat.mul_le_mul_left 6 (Nat.succ_le_succ h))

theorem isSequence_nil : IsSequence [] [] :=
  ⟨⟨[], [], none⟩, many_of_none (item?_eq _ _ _), rfl⟩

theorem IsSequence.closed (h : IsSequence ts its) : ∀ t ∈ ts.getLast?, t.closesItem = true := by
  obtain ⟨d, hd, -⟩ := h
  exact (readsItems hd).closed

theorem isSequence_singleton {w : List Token} (hne : ts ≠ [])
    (h : (reading ts).item ⟨.start⟩ ⟨ts, [], none⟩ = .ok (⟨⟩, ⟨[], w, none⟩)) :
    IsSequence ts [ts] := by
  have hitem : (reading ts).item? ⟨.start⟩ ⟨ts, [], none⟩ = .ok (some ts, ⟨[], [], none⟩) := by
    rw [item?_eq, if_neg hne, h]
    show Except.ok (some (ts.take (ts.length - 0)), _) = _
    rw [Nat.sub_zero, List.take_length]
  have hrest : many (reading ts).item? ⟨.start⟩ ⟨[], [], none⟩ = .ok ([], ⟨[], [], none⟩) :=
    many_of_none (item?_eq _ _ _)
  refine ⟨⟨[], [], none⟩, ?_, rfl⟩
  exact (many_go_of_some hitem).trans ((if_pos (List.length_pos_iff.mpr hne)).trans
    (congrArg (Except.map _) hrest))

theorem IsSequence.append {its' : List (List Token)} (h : IsSequence ts its) (hsealed : Sealed ts)
    (h' : IsSequence us its') : IsSequence (ts ++ us) (its ++ its') := by
  -- The grammar for both texts reads each of them as its own grammar does.
  have hsize := Token.sizeAll_append ts us
  have hts : Refines (reading ts) (reading (ts ++ us)) := refines_reading (by omega)
  have hus : Refines (reading us) (reading (ts ++ us)) := refines_reading (by omega)
  obtain ⟨d, hd, hleft⟩ := h
  obtain ⟨e, he, hleft'⟩ := h'
  have hfirst : many (reading (ts ++ us)).item? ⟨.start⟩ ⟨ts, [], none⟩ = .ok (its, d) := Below.ok hd
  have hsecond : many (reading (ts ++ us)).item? ⟨.start⟩ ⟨us, [], d.leftover⟩ = .ok (its', e) := by
    rw [hleft]
    exact Below.ok he
  refine ⟨e, ?_, hleft'⟩
  have hahead := (readsItems hfirst).ahead us [] hsealed
  exact hahead.trans (congrArg (Except.map _) hsecond)

/-- The grammar for more tokens reads items where the grammar for them does, whatever has been
written. -/
theorem IsSequence.many_item? (h : IsSequence ts its) (hsealed : Sealed ts) {us : List Token}
    (hsize : Token.sizeAll ts ≤ Token.sizeAll us) (w : List Token) :
    ∃ d, many (reading us).item? ⟨.start⟩ ⟨ts, w, none⟩ = .ok (its, d) ∧ d.rest = [] ∧
      d.leftover = none := by
  obtain ⟨d, hd, hleft⟩ := h
  have hdeeper := refines_reading hsize
  have hitems : many (reading us).item? ⟨.start⟩ ⟨ts, [], none⟩ = .ok (its, d) := Below.ok hd
  have hahead := (readsItems hitems).ahead [] w hsealed
  have hrest : many (reading us).item? ⟨.start⟩ ⟨[], w, none⟩ = .ok ([], ⟨[], w, none⟩) :=
    many_of_none (item?_eq _ _ _)
  rw [List.append_nil, hleft] at hahead
  refine ⟨⟨[], w, none⟩, ?_, rfl, rfl⟩
  refine hahead.trans ((congrArg (Except.map _) hrest).trans ?_)
  exact congrArg (fun as => Except.ok (as, Cursor.mk [] w none)) (List.append_nil its)

/-- Tokens without attributes of their own are read as items one after the other. -/
theorem run_items (h : startsInner ts = false) :
    run (reading ts).items ts = .ok its ↔ IsSequence ts its := by
  have hitems : (reading ts).items ⟨.start⟩ ⟨ts, [], none⟩ =
      many (reading ts).item? ⟨.start⟩ ⟨ts, [], none⟩ :=
    bind_of_ok (innerAttributes_of_not h)
  unfold run
  rw [hitems]
  constructor
  · intro hrun
    cases hmany : many (reading ts).item? ⟨.start⟩ ⟨ts, [], none⟩ with
    | error e =>
      rw [hmany] at hrun
      cases hrun
    | ok r =>
      obtain ⟨its', d⟩ := r
      obtain ⟨hwhole, -⟩ := readsItems hmany
      simp only [hmany, hwhole] at hrun
      split at hrun
      next => cases hrun
      next hleft =>
        cases hrun
        exact ⟨d, hmany, hleft⟩
  · rintro ⟨d, hd, hleft⟩
    obtain ⟨hwhole, -⟩ := readsItems hd
    simp only [hd, hleft, hwhole]

/-- The items are all that stands behind the attributes of the whole. -/
theorem flatten_suffix_of_run (h : run (reading ts).items ts = .ok its) : its.flatten <:+ ts := by
  have hkeeps : Parser.Refines (reading ts).innerAttributes (reading ts).innerAttributes := by
    have hreading : Refines (reading ts) (reading ts) := refines_reading (Nat.le_refl _)
    infer_instance
  unfold run at h
  cases hitems : (reading ts).items ⟨.start⟩ ⟨ts, [], none⟩ with
  | error e =>
    rw [hitems] at h
    cases h
  | ok r =>
    obtain ⟨its', d⟩ := r
    obtain ⟨_, c, hinner, hmany⟩ := bind_eq_ok hitems
    have hits : its' = its := by
      rw [hitems] at h
      dsimp only at h
      split at h
      next => cases h
      next =>
        split at h <;> cases h
        rfl
    rw [← hits, (readsItems hmany).parts]
    exact (hkeeps.keeps hinner).suffix

/-- Behind attributes of the whole, tokens are read as the items that they are read as alone. -/
theorem run_items_behind {us : List Token} {w : List Token} (h : IsSequence ts its)
    (hsealed : Sealed ts) (hsize : Token.sizeAll ts ≤ Token.sizeAll us)
    (hinner : (reading us).innerAttributes ⟨.start⟩ ⟨us, [], none⟩ = .ok (⟨⟩, ⟨ts, w, none⟩)) :
    run (reading us).items us = .ok its := by
  obtain ⟨d, hd, hwhole, hleft⟩ := h.many_item? hsealed hsize w
  have hitems : (reading us).items ⟨.start⟩ ⟨us, [], none⟩ = .ok (its, d) :=
    (bind_of_ok hinner).trans hd
  simp only [run, hitems, hleft, hwhole]

end Grammar

end Graft

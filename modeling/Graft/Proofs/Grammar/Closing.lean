import Graft.Proofs.Grammar.SteadyItem

/-!
# Where items end

An item ends in a semicolon or a group in braces, and its parser looks at nothing behind that. So it
reads the same item before more tokens, as long as a semicolon at its end does not run on into them.
-/

set_option synthInstance.maxSize 1000000

namespace Graft

/-- A token that an item may end in: a semicolon, whatever follows it, or a group in braces. -/
def Token.closesItem : Token → Bool
  | .punct c _ _ => c = ';'
  | .group .brace _ _ => true
  | _ => false

namespace Parser

variable {α β : Type} {more : List Token} {s : Scope} {c d : Cursor}

/-- `p` reads up to a token that closes an item, and `p'` does the same before more tokens if from
that token on the end of an item is to come. -/
class Closes (more : List Token) (p p' : Parser α) : Prop where
  ends {s : Scope} {c d : Cursor} {a : α} : p s c = .ok (a, d) →
    ∃ t : Token, t.closesItem = true ∧ t :: d.rest <:+ c.rest
  ahead {s : Scope} {c d : Cursor} {a : α} {t : Token} : p s c = .ok (a, d) →
    t :: d.rest <:+ c.rest → HoldsEnd (t :: d.rest) → p' s (c.before more) = .ok (a, d.before more)

variable {p p' q q' : Parser α} {f f' : α → Parser β}

namespace Closes

theorem of_fails (h : ∀ s c, ∃ e, p s c = .error e) : Closes more p p' where
  ends {s c _ _} hp := by
    obtain ⟨e, he⟩ := h s c
    rw [he] at hp
    cases hp
  ahead {s c _ _ _} hp := by
    obtain ⟨e, he⟩ := h s c
    rw [he] at hp
    cases hp

/-- A parser that reads one token, which closes an item. -/
theorem of_token (h : ∀ {s c d a}, p s c = .ok (a, d) → ∃ t : Token, t.closesItem = true ∧
    c.rest = t :: d.rest ∧ (HoldsEnd c.rest → p' s (c.before more) = .ok (a, d.before more))) :
    Closes more p p' where
  ends hp := by
    obtain ⟨t, ht, hc, -⟩ := h hp
    exact ⟨t, ht, hc ▸ List.suffix_rfl⟩
  ahead hp hsuffix hend := by
    obtain ⟨t, -, hc, hahead⟩ := h hp
    exact hahead (hend.of_suffix hsuffix)

instance bind [Steady more p p'] [∀ a, Closes more (f a) (f' a)] :
    Closes more (p >>= f) (p' >>= f') where
  ends h := by
    obtain ⟨a, m, hp, hf⟩ := bind_eq_ok h
    obtain ⟨t, ht, hsuffix⟩ := ends more (f' a) hf
    exact ⟨t, ht, hsuffix.trans (Steady.suffix more p' hp)⟩
  ahead {s c d b t} h hsuffix hend := by
    obtain ⟨a, m, hp, hf⟩ := bind_eq_ok h
    have hfirst : m.rest <:+ c.rest := Steady.suffix more p' hp
    -- The token that closes the item is one of those that `f a` reads.
    have hsecond : t :: d.rest <:+ m.rest := by
      obtain ⟨u, -, hu⟩ := ends more (f' a) hf
      have hle := hu.length_le
      exact List.suffix_of_suffix_length_le hsuffix hfirst hle
    rw [bind_of_ok (Steady.before p' hp (hend.of_suffix hsecond))]
    exact ahead hf hsecond hend

/-- What is made of the result does not matter. -/
instance map {g : α → β} [hcloses : Closes more p p'] :
    Closes more (p >>= fun a => Pure.pure (g a)) (p' >>= fun a => Pure.pure (g a)) where
  ends h := by
    obtain ⟨a, m, hp, hd⟩ := bind_eq_ok h
    cases hd
    exact hcloses.ends hp
  ahead h hsuffix hend := by
    obtain ⟨a, m, hp, hd⟩ := bind_eq_ok h
    cases hd
    rw [bind_of_ok (hcloses.ahead hp hsuffix hend)]
    rfl

/-- A parser that looks at the tokens ahead, which go on with `more`. -/
theorem looking {f f' : List Token → Parser β} (hfront : ∀ ts, Closes more (f ts) (f ts))
    (h : ∀ e : Ending, Closes more (f e.tokens) (f' (e.tokens ++ more))) :
    Closes more (rest >>= f) (rest >>= f') where
  ends {s c d b} hp := by
    have hrun : f c.rest s c = .ok (b, d) := hp
    exact (hfront c.rest).ends hrun
  ahead {s c d b t} hp hsuffix hend := by
    have hrun : f c.rest s c = .ok (b, d) := hp
    have hcloses := h ⟨c.rest, hend.of_suffix hsuffix⟩
    show f' (c.rest ++ more) s (c.before more) = .ok (b, d.before more)
    exact hcloses.ahead hrun hsuffix hend

/-- The form of `looking` for a parser that looks past the next token, and fails if this one ends an
item. -/
theorem lookingPast {f f' : List Token → Parser β} (hfront : ∀ ts, Closes more (f ts) (f ts))
    (hfails : ∀ {s : Scope} {c : Cursor} {t : Token} {us : List Token}, c.rest = t :: us →
      t.endsItem = true → ∃ e, (rest >>= f) s c = .error e)
    (h : ∀ ts, HoldsEnd (Look.second ts) →
      Look.second (ts ++ more) = Look.second ts ++ more → Closes more (f ts) (f' (ts ++ more))) :
    Closes more (rest >>= f) (rest >>= f') where
  ends {s c d b} hp := by
    have hrun : f c.rest s c = .ok (b, d) := hp
    exact (hfront c.rest).ends hrun
  ahead {s c d b t} hp hsuffix hend := by
    have hrun : f c.rest s c = .ok (b, d) := hp
    have hrest : HoldsEnd c.rest := hend.of_suffix hsuffix
    rcases Look.second_before c.rest more with ⟨u, us, hc, hu⟩ | ⟨hbehind, hsecond⟩
    · obtain ⟨e, he⟩ := hfails hc hu
      rw [he] at hp
      cases hp
    · show f' (c.rest ++ more) s (c.before more) = .ok (b, d.before more)
      exact (h c.rest hbehind hsecond).ahead hrun hsuffix hend

instance (priority := high) look {f f' : List Token → Parser β}
    [hfront : ∀ ts, Closes more (f ts) (f ts)]
    [h : ∀ e : Ending, Closes more (f e.tokens) (f' (e.tokens ++ more))] :
    Closes more (rest >>= f) (rest >>= f') :=
  looking hfront h

instance ite {t : Prop} [Decidable t] [Closes more p p'] [Closes more q q'] :
    Closes more (if t then p else q) (if t then p' else q') := by
  split <;> infer_instance

instance iteKept {x x' : Bool} [h : Kept x x'] [Closes more p p'] [Closes more q q'] :
    Closes more (if x = true then p else q) (if x' = true then p' else q') := by
  rw [h.eq]
  infer_instance

end Closes

instance closes_fail (message : String) (q : Parser α) :
    Closes more (fail message : Parser α) q :=
  .of_fails fun s c => by
    obtain ⟨_ | ⟨t, ts⟩, written, leftover⟩ := c <;> exact ⟨_, rfl⟩

instance closes_expected (things : List String) (q : Parser α) :
    Closes more (expected things : Parser α) q := by
  unfold expected
  split <;> infer_instance

instance closes_default (q : Parser α) : Closes more (default : Parser α) q :=
  .of_fails fun s _ => ⟨⟨s.finish, ""⟩, rfl⟩

/-! ## Semicolons and braces -/

theorem look_semicolon {ts : List Token} (h : Look.op ";" ts = true) :
    ∃ spacing span us, ts = .punct ';' spacing span :: us := by
  rcases ts with _ | ⟨_ | ⟨c, spacing, span⟩ | _ | _, us⟩
  any_goals cases h
  have hc : (decide (';' = c) && decide (';' ≠ '\'')) = true := h
  simp only [Bool.and_eq_true, decide_eq_true_iff] at hc
  exact ⟨spacing, span, us, by rw [hc.1]⟩

instance closes_semicolon : Closes more (op ";") (op ";") :=
  .of_token fun {s c d a} h => by
    obtain ⟨rest, written, leftover⟩ := c
    rw [op_eq] at h
    split at h
    next hop =>
      obtain ⟨spacing, span, us, rfl⟩ := look_semicolon hop
      cases h
      exact ⟨_, rfl, rfl, fun _ => rfl⟩
    next => cases h

instance closes_braces (p : Parser α) : Closes more (braces p) (braces p) :=
  .of_token fun {s c d a} h => by
    obtain ⟨inner, span, ts, hc, hinside⟩ := group_eq_ok h
    have hd : d.rest = ts := inside_rest hinside
    refine ⟨.group .brace inner span, rfl, by rw [hc, hd], fun hend => ?_⟩
    have hbefore := group_before more .brace p s hend
    rw [braces, hbefore, show group .brace p s c = _ from h]
    rfl

/-- A parser that says whether it closed the item. -/
class MayClose (more : List Token) (p p' : Parser Bool) : Prop where
  no {s : Scope} {c d : Cursor} : p s c = .ok (false, d) → d.rest <:+ c.rest ∧
    (HoldsEnd d.rest → p' s (c.before more) = .ok (false, d.before more))
  yes {s : Scope} {c d : Cursor} : p s c = .ok (true, d) → ∃ t : Token, t.closesItem = true ∧
    c.rest = t :: d.rest ∧ (HoldsEnd c.rest → p' s (c.before more) = .ok (true, d.before more))

instance mayClose_semicolon : MayClose more (op? ";") (op? ";") where
  no {s c d} h := by
    have hsteady : Steady more (op? ";") (op? ";") := inferInstance
    exact ⟨hsteady.suffix h, hsteady.ahead h⟩
  yes {s c d} h := by
    obtain ⟨rest, written, leftover⟩ := c
    have hrun : (if Look.op ";" rest then op ";" >>= fun _ => Pure.pure true
      else Pure.pure false) s ⟨rest, written, leftover⟩ = .ok (true, d) := h
    split at hrun
    next hop =>
      obtain ⟨spacing, span, us, rfl⟩ := look_semicolon hop
      cases hrun
      exact ⟨_, rfl, rfl, fun _ => rfl⟩
    next => cases hrun

/-- What follows only if the item is still open. -/
instance closes_unlessClosed {p p' : Parser Bool} {q q' : Parser PUnit}
    [hp : MayClose more p p'] [hq : Closes more q q'] :
    Closes more (p >>= fun closed => if (!closed) = true then q else Pure.pure ⟨⟩)
      (p' >>= fun closed => if (!closed) = true then q' else Pure.pure ⟨⟩) where
  ends h := by
    obtain ⟨closed, m, hfirst, hrest⟩ := bind_eq_ok h
    cases closed with
    | true =>
      cases hrest
      obtain ⟨t, ht, hc, -⟩ := hp.yes hfirst
      exact ⟨t, ht, hc ▸ List.suffix_rfl⟩
    | false =>
      obtain ⟨t, ht, hsuffix⟩ := hq.ends hrest
      exact ⟨t, ht, hsuffix.trans (hp.no hfirst).1⟩
  ahead {s c d a t} h hsuffix hend := by
    obtain ⟨closed, m, hfirst, hrest⟩ := bind_eq_ok h
    cases closed with
    | true =>
      cases hrest
      obtain ⟨-, -, -, hahead⟩ := hp.yes hfirst
      rw [bind_of_ok (hahead (hend.of_suffix hsuffix))]
      rfl
    | false =>
      obtain ⟨hm, hahead⟩ := hp.no hfirst
      have hsecond : t :: d.rest <:+ m.rest := by
        obtain ⟨u, -, hu⟩ := hq.ends hrest
        have hle := hu.length_le
        exact List.suffix_of_suffix_length_le hsuffix hm hle
      rw [bind_of_ok (hahead (hend.of_suffix hsecond))]
      exact hq.ahead hrest hsecond hend

end Parser

namespace Grammar

open Graft.Parser

variable {more ts : List Token} {g : Grammar} [Refines g g] [Steady more g]

instance mayClose_macroArguments : MayClose more macroArguments macroArguments where
  no {s c d} h := by
    have hsteady : macroArguments.Steady more macroArguments := inferInstance
    exact ⟨hsteady.suffix h, hsteady.ahead h⟩
  yes {s c d} h := by
    obtain ⟨rest, written, leftover⟩ := c
    rcases rest with _ | ⟨_ | _ | _ | ⟨_ | _ | _, inner, span⟩, us⟩
    any_goals cases h
    exact ⟨_, rfl, rfl, fun _ => rfl⟩

/-! ## Items -/

instance closes_body : g.body.Closes more g.body := by
  unfold body
  infer_instance

instance closes_constantRest : g.constantRest.Closes more g.constantRest := by
  unfold constantRest
  infer_instance

instance closes_typeAlias (conditions : ConditionPlace) :
    (g.typeAlias conditions).Closes more (g.typeAlias conditions) := by
  unfold typeAlias
  infer_instance

instance closes_macroItem : macroItem.Closes more macroItem := by
  unfold macroItem
  infer_instance

instance closes_members (member : Parser PUnit) :
    (g.members member).Closes more (g.members member) := by
  unfold members
  infer_instance

instance closes_namedFields : g.namedFields.Closes more g.namedFields := by
  unfold namedFields
  infer_instance

instance steady_positionalFields : g.positionalFields.Steady more g.positionalFields := by
  unfold positionalFields
  infer_instance

instance closes_structRest : g.structRest.Closes more g.structRest := by
  unfold structRest
  infer_instance

instance closes_useItem : g.useItem.Closes more g.useItem := by
  unfold useItem
  infer_instance

instance closes_crateItem : crateItem.Closes more crateItem := by
  unfold crateItem
  infer_instance

instance closes_externItem : g.externItem.Closes more g.externItem := by
  unfold externItem
  infer_instance

instance closes_staticItem : g.staticItem.Closes more g.staticItem := by
  unfold staticItem
  infer_instance

instance closes_moduleItem : g.moduleItem.Closes more g.moduleItem := by
  unfold moduleItem
  infer_instance

instance closes_traitRest : g.traitRest.Closes more g.traitRest := by
  unfold traitRest
  infer_instance

instance closes_traitItem (marked : Bool) :
    (g.traitItem marked).Closes more (g.traitItem marked) := by
  unfold traitItem
  infer_instance

instance kept_negated [HoldsEnd ts] : Kept (Look.op "!" ts && !Look.braces (Look.second ts))
    (Look.op "!" (ts ++ more) && !Look.braces (Look.second (ts ++ more))) :=
  Look.kept_second ts more (Look.op "!") fun us => !Look.braces us

instance closes_implItem : g.implItem.Closes more g.implItem := by
  unfold implItem
  infer_instance

instance closes_macroDefinition : macroDefinition.Closes more macroDefinition := by
  unfold macroDefinition
  infer_instance

instance closes_dataItem : g.dataItem.Closes more g.dataItem := by
  unfold dataItem
  infer_instance

omit [Refines g g] [Steady more g] in
/-- An item that starts with the mark of unchecked code does not start with the end of an item. -/
theorem uncheckedItem_fails {s : Scope} {c : Cursor} {t : Token} {us : List Token}
    (hc : c.rest = t :: us) (ht : t.endsItem = true) : ∃ e, g.uncheckedItem s c = .error e := by
  obtain ⟨rest, written, leftover⟩ := c
  subst hc
  rcases Look.endsItem_cases ht with ⟨span, rfl⟩ | ⟨inner, span, rfl⟩
  all_goals
    unfold uncheckedItem
    rw [bind_of_ok (show Parser.rest s _ = .ok (_, _) from rfl)]
    dsimp only
    iterate 5
      split
      · exact ⟨_, rfl⟩
    exact ⟨_, rfl⟩

instance closes_uncheckedItem : g.uncheckedItem.Closes more g.uncheckedItem := by
  refine .lookingPast (fun _ => inferInstance) uncheckedItem_fails fun ts hend hsecond => ?_
  dsimp only
  rw [hsecond]
  infer_instance

instance kept_default [HoldsEnd ts] : Kept (Look.word "default" ts && !Look.op "!" (Look.second ts))
    (Look.word "default" (ts ++ more) && !Look.op "!" (Look.second (ts ++ more))) :=
  Look.kept_second ts more (Look.word "default") fun us => !Look.op "!" us

instance closes_itemRest : g.itemRest.Closes more g.itemRest := by
  unfold itemRest
  infer_instance

instance closes_itemForm : g.itemForm.Closes more g.itemForm := by
  unfold itemForm
  infer_instance

instance closes_level (n : Nat) : (level n).item.Closes more (level n).item := by
  cases n with
  | zero => exact closes_default _
  | succ n =>
    have hrefines : Refines (level n) (level n) := refines_level (Nat.le_refl n)
    exact closes_itemForm

end Grammar

end Graft

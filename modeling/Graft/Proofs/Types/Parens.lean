import Graft.Proofs.Grammar.Enclosed
import Graft.Proofs.Token.Canonical
import Graft.Proofs.Types.Lookup

/-!
# Types in parentheses

The rules of a context see through the parentheses around a type, and its single correspondences do
not. So a type and the same type in parentheses are one to the rules, and differ where only one of
them has a correspondence of its own.
-/

namespace Graft

open Grammar (ReadsType level)
open Token (Returns)

variable {t u : TypeTree} {c : TypeContext} {kind : String}

/-! ## Keys that are read again -/

/-- The key of the type is read as the type. -/
def TypeTree.IsCanonical (t : TypeTree) : Prop := (ForeignType.ofTree t).tree? = some t

theorem ForeignType.tree?_eq_some_iff : (ofTree u).tree? = some t ↔
    ∃ ts, Token.read (Token.spelling u.tokens).toList = .ok ts ∧
      TypeTree.ofTokens (Token.unplacedAll ts) = .ok t := by
  unfold tree? ofTree
  cases Token.read (Token.spelling u.tokens).toList with
  | ok ts =>
    simp only [Except.ok.injEq, exists_eq_left']
    cases TypeTree.ofTokens (Token.unplacedAll ts) <;> simp [Except.toOption]
  | error e => simp

namespace TypeTree.IsCanonical

theorem returns (h : t.IsCanonical) : ∃ ts, Returns t.tokens ts ∧
    ReadsType (level (6 * Token.sizeAll (Token.unplacedAll ts) + 5)) true
      (Token.unplacedAll ts) t := by
  obtain ⟨ts, hread, htree⟩ := ForeignType.tree?_eq_some_iff.mp h
  have htype := Grammar.ofTokens_eq_ok_iff.mp htree
  have hskips := htype.skips_le
  rw [Token.skipsAll_unplacedAll] at hskips
  exact ⟨ts, ⟨hread, hskips⟩, htype⟩

/-- Parentheses around a type are kept, and so is the type. -/
theorem inParens (h : t.IsCanonical) : t.inParens.IsCanonical := by
  obtain ⟨ts, hreturns, htype⟩ := h.returns
  obtain ⟨us, hus, hgroup⟩ := hreturns.parens
  refine ForeignType.tree?_eq_some_iff.mpr ⟨us, hus.reads, ?_⟩
  rw [hgroup]
  refine Grammar.ofTokens_eq_ok_iff.mpr ((htype.inParens true).deeper ?_)
  simp only [Token.sizeAll, Token.size]
  omega

/-- What is read for a pointer to a type is a pointer to that type. -/
theorem of_pointer (h : t.IsCanonical) (hkind : kind = "const" ∨ kind = "mut")
    (hu : (ForeignType.ofTree (t.pointer kind)).tree? = some u) : u = t.pointer kind := by
  obtain ⟨ts, hreturns, htype⟩ := h.returns
  obtain ⟨us, hus, hpointer⟩ := hreturns.pointer hkind
  obtain ⟨us', hread, htree⟩ := ForeignType.tree?_eq_some_iff.mp hu
  obtain rfl : us = us' := Except.ok.inj (hus.reads.symm.trans hread)
  rw [hpointer] at htree
  obtain ⟨v, hv, rfl⟩ := (Grammar.ofTokens_eq_ok_iff.mp htree).pointee hkind
  rw [hv.of_single.unique htype]

/-- A pointer to a type that is put together from others needs no parentheses. -/
theorem pointer (h : t.IsCanonical) (hshape : t.shape.IsFormed)
    (hkind : kind = "const" ∨ kind = "mut") : (t.pointer kind).IsCanonical := by
  obtain ⟨ts, hreturns, htype⟩ := h.returns
  obtain ⟨us, hus, hpointer⟩ := hreturns.pointer hkind
  refine ForeignType.tree?_eq_some_iff.mpr ⟨us, hus.reads, ?_⟩
  rw [hpointer]
  refine Grammar.ofTokens_eq_ok_iff.mpr (((htype.single hshape).pointer hkind true).deeper ?_)
  simp only [Token.sizeAll, Token.mark, Token.word, Token.size]
  omega

end TypeTree.IsCanonical

/-! ## Rules -/

/-- A rule is for types that are put together from others. -/
theorem TypeRule.isFormed_of_parts? {rule : TypeRule} {parts : List ForeignType}
    (h : rule.parts? t.peel = some parts) : t.shape.IsFormed := by
  obtain ⟨tokens, shape⟩ := t
  cases shape with
  | paren _ | pointer _ | function => trivial
  | _ => cases rule <;> cases h

namespace TypeContext

/-- The rules see through parentheses. -/
theorem derived?_inParens (h : t.IsCanonical) :
    c.derived? (.ofTree t.inParens) = c.derived? (.ofTree t) := by
  have hruled : c.ruled? (.ofTree t.inParens) = c.ruled? (.ofTree t) := by
    rw [ruled?, ruled?, h.inParens, h]
    rfl
  rw [derived?_eq, derived?_eq, hruled]

theorem derived?_eq_none (h : t.IsCanonical) (hshape : ¬ t.shape.IsFormed) :
    c.derived? (.ofTree t) = none := by
  have hruled : c.ruled? (.ofTree t) = none := by
    rw [Option.eq_none_iff_forall_ne_some]
    rintro ⟨rule, parts⟩ hrule
    obtain ⟨-, u, hu, hparts⟩ := ruled?_eq_some_iff.mp hrule
    obtain rfl := Option.some.inj (h.symm.trans hu)
    exact hshape (TypeRule.isFormed_of_parts? hparts)
  rw [derived?_eq, hruled]
  rfl

/-- A pointer is a `Ptr` to what its pointee is, if there is the rule for pointers. -/
theorem derived?_pointer (h : (t.pointer kind).IsCanonical) :
    c.derived? (.ofTree (t.pointer kind)) =
      if .pointers ∈ c.rules then (c.lookup (.ofTree t)).map fun host => .apply "Ptr" [host]
      else none := by
  have hruled : c.ruled? (.ofTree (t.pointer kind)) =
      if .pointers ∈ c.rules then some (.pointers, [.ofTree t]) else none := by
    have hparts : ∀ {rule : TypeRule} {parts : List ForeignType},
        rule.parts? (t.pointer kind).peel = some parts ↔
          rule = .pointers ∧ parts = [.ofTree t] := by
      rintro (_ | _) parts <;>
        simp [TypeRule.parts?, TypeTree.pointer, TypeTree.peel, TypeTree.shape, eq_comm]
    refine Option.ext fun found => ?_
    obtain ⟨rule, parts⟩ := found
    rw [ruled?_eq_some_iff]
    constructor
    · rintro ⟨hrule, u, hu, hsome⟩
      obtain rfl := Option.some.inj (h.symm.trans hu)
      obtain ⟨rfl, rfl⟩ := hparts.mp hsome
      rw [if_pos hrule]
    · intro hsome
      split at hsome
      next hrule =>
        obtain ⟨rfl, rfl⟩ := Prod.mk.inj (Option.some.inj hsome)
        exact ⟨hrule, _, h, hparts.mpr ⟨rfl, rfl⟩⟩
      next => cases hsome
  rw [derived?_eq, hruled]
  split
  · show (([ForeignType.ofTree t].mapM c.lookup).bind _) = _
    rw [List.mapM_cons, List.mapM_nil]
    cases c.lookup (.ofTree t) <;> rfl
  · rfl

/-- **A type in parentheses resolves by its own correspondence, or else as the rules resolve the
type.** So the type and the type in parentheses are one, and pointers to them are, where both have
the same correspondence of their own or none. A pointer that needs the parentheses to be read is one
with the other only where there is none. -/
theorem lookup_inParens (h : t.IsCanonical) :
    c.lookup (.ofTree t.inParens) =
        (c.listed? (.ofTree t.inParens)).or (c.derived? (.ofTree t)) ∧
      (c.listed? (.ofTree t.inParens) = c.listed? (.ofTree t) →
        c.lookup (.ofTree t.inParens) = c.lookup (.ofTree t) ∧
        ∀ kind ∈ ["const", "mut"], c.listed? (.ofTree (t.inParens.pointer kind)) = none →
          c.listed? (.ofTree (t.pointer kind)) = none →
          c.listed? (.ofTree t) = none ∨ (t.pointer kind).IsCanonical →
          c.lookup (.ofTree (t.inParens.pointer kind)) = c.lookup (.ofTree (t.pointer kind))) := by
  -- A rule sees the type without its parentheses, an entry with them.
  have hparens : c.lookup (.ofTree t.inParens) =
      (c.listed? (.ofTree t.inParens)).or (c.derived? (.ofTree t)) := by
    rw [lookup_eq, derived?_inParens h, Option.orElse_eq_orElse, Option.orElse_eq_or]
  refine ⟨hparens, fun hlisted => ?_⟩
  have hsame : c.lookup (.ofTree t.inParens) = c.lookup (.ofTree t) := by
    rw [hparens, lookup_eq, hlisted, Option.orElse_eq_orElse, Option.orElse_eq_or]
  refine ⟨hsame, fun kind hmem hparens hpointer hplain => ?_⟩
  have hkind : kind = "const" ∨ kind = "mut" := by simpa using hmem
  have hinner := derived?_pointer (c := c) (h.inParens.pointer trivial hkind)
  rw [lookup_of_unlisted hparens, lookup_of_unlisted hpointer, hinner, hsame]
  by_cases hcanonical : (t.pointer kind).IsCanonical
  · rw [derived?_pointer hcanonical]
  · -- Then no rule is for the type, which resolves to nothing, as the unreadable pointer does.
    have hshape : ¬ t.shape.IsFormed := fun hshape => hcanonical (h.pointer hshape hkind)
    have hnone : c.lookup (.ofTree t) = none := by
      rw [lookup_of_unlisted (hplain.resolve_right hcanonical), derived?_eq_none h hshape]
    have hunread : (ForeignType.ofTree (t.pointer kind)).tree? = none := by
      rw [Option.eq_none_iff_forall_ne_some]
      intro u hu
      exact hcanonical (h.of_pointer hkind hu ▸ hu)
    have hderived : c.derived? (.ofTree (t.pointer kind)) = none := by
      rw [derived?_eq, ruled?, hunread]
      rfl
    rw [hderived, hnone]
    split <;> rfl

/-- A key that is read as a type of that key. -/
theorem exists_canonical {α : Type} (shown : TypeTree → α) {key : ForeignType} {a : α}
    (h : (key.tree?.map fun t => (ForeignType.ofTree t, shown t)) = some (key, a)) :
    ∃ t : TypeTree, t.IsCanonical ∧ ForeignType.ofTree t = key ∧ shown t = a := by
  obtain ⟨t, ht, heq⟩ := Option.map_eq_some_iff.mp h
  obtain ⟨hkey, hshown⟩ := Prod.mk.inj heq
  exact ⟨t, by rw [TypeTree.IsCanonical, hkey, ht], hkey, hshown⟩

/-- One correspondence, and the rule for pointers. -/
def integers : TypeContext := ⟨[(⟨"i32"⟩, ⟨"Int32"⟩)], [.pointers]⟩

theorem lookup_inParens_pointer : ∃ t : TypeTree, t.IsCanonical ∧
    ForeignType.ofTree t = ⟨"*const i32"⟩ ∧
    integers.listed? (.ofTree t.inParens) = integers.listed? (.ofTree t) ∧
    integers.listed? (.ofTree (t.inParens.pointer "mut")) = none ∧
    integers.listed? (.ofTree (t.pointer "mut")) = none ∧
    integers.lookup (.ofTree t) = some ⟨"Ptr Int32"⟩ ∧
    integers.lookup (.ofTree t.inParens) = integers.lookup (.ofTree t) ∧
    integers.lookup (.ofTree (t.inParens.pointer "mut")) =
      integers.lookup (.ofTree (t.pointer "mut")) := by
  obtain ⟨t, hcanonical, hkey, hshown⟩ := exists_canonical
    (fun t => (ForeignType.ofTree t.inParens, ForeignType.ofTree (t.inParens.pointer "mut"),
      ForeignType.ofTree (t.pointer "mut")))
    (show _ = some (⟨"*const i32"⟩, ⟨"(*const i32)"⟩, ⟨"*mut(*const i32)"⟩, ⟨"*mut*const i32"⟩) by
      decide +kernel)
  obtain ⟨hparens, hpointers⟩ := Prod.mk.inj hshown
  obtain ⟨hinner, houter⟩ := Prod.mk.inj hpointers
  have hlisted : integers.listed? (.ofTree t) = none := by rw [hkey]; decide
  have hlistedParens : integers.listed? (.ofTree t.inParens) = none := by rw [hparens]; decide
  have hlistedInner : integers.listed? (.ofTree (t.inParens.pointer "mut")) = none := by
    rw [hinner]
    decide
  have hlistedOuter : integers.listed? (.ofTree (t.pointer "mut")) = none := by
    rw [houter]
    decide
  obtain ⟨-, hboth⟩ := lookup_inParens (c := integers) hcanonical
  obtain ⟨hsame, hpointer⟩ := hboth (hlistedParens.trans hlisted.symm)
  refine ⟨t, hcanonical, hkey, hlistedParens.trans hlisted.symm, hlistedInner, hlistedOuter, ?_,
    hsame, hpointer "mut" (by decide) hlistedInner hlistedOuter (.inl hlisted)⟩
  have hruled : integers.ruled? ⟨"*const i32"⟩ = some (.pointers, [⟨"i32"⟩]) := by decide +kernel
  have hpart : integers.lookup ⟨"i32"⟩ = some ⟨"Int32"⟩ := lookup_of_listed? (by decide)
  rw [hkey, lookup_of_unlisted (by decide), derived?_of_ruled? hruled (.cons hpart .nil)]
  decide

/-- A type with a correspondence of its own is not found in parentheses. -/
theorem lookup_inParens_listed : ∃ t : TypeTree, t.IsCanonical ∧
    ForeignType.ofTree t = ⟨"i32"⟩ ∧ ForeignType.ofTree t.inParens = ⟨"(i32)"⟩ ∧
    integers.lookup (.ofTree t) = some ⟨"Int32"⟩ ∧ integers.lookup (.ofTree t.inParens) = none := by
  obtain ⟨t, hcanonical, hkey, hparens⟩ := exists_canonical
    (fun t => ForeignType.ofTree t.inParens)
    (show _ = some (⟨"i32"⟩, ⟨"(i32)"⟩) by decide +kernel)
  have hruled : integers.ruled? ⟨"(i32)"⟩ = none := by decide +kernel
  refine ⟨t, hcanonical, hkey, hparens, ?_, ?_⟩
  · rw [hkey]
    exact lookup_of_listed? (by decide)
  · rw [hparens, lookup_of_unlisted (by decide), derived?_eq, hruled]
    rfl

end TypeContext

end Graft

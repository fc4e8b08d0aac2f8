import Mathlib.Data.List.Forall2
import Graft.Types.Context

/-!
# What a context resolves

A type is resolved by its own correspondence, or by the rule for its shape from what its parts
resolve to. The induction here follows a resolution down to the correspondences that it rests on.
-/

namespace Graft

theorem mapM_eq_some_iff {α β : Type} {f : α → Option β} {xs : List α} {ys : List β} :
    xs.mapM f = some ys ↔ List.Forall₂ (fun x y => f x = some y) xs ys := by
  constructor
  · intro h
    induction xs generalizing ys with
    | nil =>
      rw [List.mapM_nil] at h
      rw [← Option.some.inj h]
      exact .nil
    | cons x xs ih =>
      rw [List.mapM_cons] at h
      obtain ⟨y, hy, h⟩ := Option.bind_eq_some_iff.mp h
      obtain ⟨rest, hrest, h⟩ := Option.bind_eq_some_iff.mp h
      rw [← Option.some.inj h]
      exact .cons hy (ih hrest)
  · intro h
    induction h with
    | nil => rfl
    | cons hy _ ih =>
      rw [List.mapM_cons, hy, ih]
      rfl

/-! ## The rule for a shape -/

/-- No two rules are for types of one shape. -/
theorem TypeRule.parts?_unique {r r' : TypeRule} {t : TypeTree} {parts parts' : List ForeignType}
    (h : r.parts? t = some parts) (h' : r'.parts? t = some parts') :
    r = r' ∧ parts = parts' := by
  -- Two different rules are for shapes that clash.
  have hrule : r = r' := by
    cases r <;> cases r' <;> first | rfl | (unfold TypeRule.parts? at h h'; grind)
  subst hrule
  exact ⟨rfl, Option.some.inj (h.symm.trans h')⟩

namespace TypeContext

variable {c d : TypeContext} {k : ForeignType} {host : HostType} {rule : TypeRule}
  {parts : List ForeignType} {hosts : List HostType}

/-- In which order the rules were added does not matter, as each is for a shape of its own. -/
theorem ruled?_eq_some_iff : c.ruled? k = some (rule, parts) ↔
    rule ∈ c.rules ∧ ∃ t, k.tree? = some t ∧ rule.parts? t.peel = some parts := by
  unfold ruled?
  rw [Option.bind_eq_bind, Option.bind_eq_some_iff]
  constructor
  · rintro ⟨t, ht, h⟩
    obtain ⟨r, hr, h⟩ := List.exists_of_findSome?_eq_some h
    obtain ⟨ps, hps, h⟩ := Option.map_eq_some_iff.mp h
    obtain ⟨rfl, rfl⟩ := Prod.mk.inj h
    exact ⟨List.mem_reverse.mp hr, t, ht, hps⟩
  · rintro ⟨hrule, t, ht, hparts⟩
    refine ⟨t, ht, ?_⟩
    have hsome : (c.rules.reverse.findSome? fun r => (r.parts? t.peel).map (r, ·)).isSome := by
      rw [List.findSome?_isSome_iff]
      exact ⟨rule, List.mem_reverse.mpr hrule, by rw [hparts]; rfl⟩
    obtain ⟨found, hfound⟩ := Option.isSome_iff_exists.mp hsome
    obtain ⟨r, -, h⟩ := List.exists_of_findSome?_eq_some hfound
    obtain ⟨ps, hps, h⟩ := Option.map_eq_some_iff.mp h
    obtain ⟨rfl, rfl⟩ := TypeRule.parts?_unique hps hparts
    rw [hfound, ← h]

theorem ruled?_of_subset (hsub : c.rules ⊆ d.rules) (h : c.ruled? k = some (rule, parts)) :
    d.ruled? k = some (rule, parts) := by
  obtain ⟨hrule, hshape⟩ := ruled?_eq_some_iff.mp h
  exact ruled?_eq_some_iff.mpr ⟨hsub hrule, hshape⟩

/-! ## Resolving -/

theorem derived?_eq (c : TypeContext) (k : ForeignType) :
    c.derived? k = (do
      let (rule, parts) ← c.ruled? k
      let hosts ← parts.mapM c.lookup
      return rule.build hosts) := by
  rw [derived?]
  rfl

theorem lookup_eq (c : TypeContext) (k : ForeignType) :
    c.lookup k = (c.listed? k <|> c.derived? k) := by
  unfold lookup
  cases c.listed? k <;> rfl

theorem lookup_of_listed? (h : c.listed? k = some host) : c.lookup k = some host := by
  rw [lookup_eq, h]
  rfl

theorem lookup_of_unlisted (h : c.listed? k = none) : c.lookup k = c.derived? k := by
  rw [lookup_eq, h]
  rfl

theorem derived?_of_ruled? (h : c.ruled? k = some (rule, parts))
    (hparts : List.Forall₂ (fun part host => c.lookup part = some host) parts hosts) :
    c.derived? k = some (rule.build hosts) := by
  rw [derived?_eq, h]
  simp only [Option.bind_eq_bind, Option.bind_some, mapM_eq_some_iff.mpr hparts]
  rfl

/-- What a context resolves rests on its single correspondences, through rules at any depth. -/
theorem lookup_induction {motive : ForeignType → HostType → Prop}
    (listed : ∀ k host, c.listed? k = some host → motive k host)
    (ruled : ∀ k rule parts hosts, c.listed? k = none → c.ruled? k = some (rule, parts) →
      List.Forall₂ (fun part host => c.lookup part = some host ∧ motive part host) parts hosts →
      motive k (rule.build hosts))
    (h : c.lookup k = some host) : motive k host := by
  -- The fixpoint knows its approximations only by what they find, so that this is carried along.
  have hderived : ∀ k host, c.derived? k = some host →
      c.derived? k = some host ∧ (c.listed? k = none → motive k host) := by
    apply derived?.partial_correctness
    intro below hbelow k host hfound
    obtain ⟨⟨rule, parts⟩, hrule, hfound⟩ := Option.bind_eq_some_iff.mp hfound
    obtain ⟨hosts, hhosts, hfound⟩ := Option.bind_eq_some_iff.mp hfound
    cases hfound
    have hparts : List.Forall₂ (fun part host => c.lookup part = some host ∧ motive part host)
        parts hosts := by
      refine (mapM_eq_some_iff.mp hhosts).imp ?_
      intro part host hpart
      split at hpart
      next hlisted =>
        cases hpart
        exact ⟨lookup_of_listed? hlisted, listed part host hlisted⟩
      next hlisted =>
        obtain ⟨hlookup, hmotive⟩ := hbelow part host hpart
        exact ⟨(lookup_of_unlisted hlisted).trans hlookup, hmotive hlisted⟩
    exact ⟨derived?_of_ruled? hrule (hparts.imp fun _ _ hpart => hpart.1),
      fun hlisted => ruled k rule parts hosts hlisted hrule hparts⟩
  cases hlisted : c.listed? k with
  | some _ =>
    rw [lookup_of_listed? hlisted] at h
    cases h
    exact listed k host hlisted
  | none =>
    rw [lookup_of_unlisted hlisted] at h
    exact (hderived k host h).2 hlisted

/-- A rule that finds all parts of a type resolved gives the type a host type. -/
theorem contains_of_ruled? (h : c.ruled? k = some (rule, parts))
    (hparts : ∀ part ∈ parts, c.contains part) : c.contains k := by
  have hhosts : ∃ hosts,
      List.Forall₂ (fun part host => c.lookup part = some host) parts hosts := by
    clear h
    induction parts with
    | nil => exact ⟨[], .nil⟩
    | cons part parts ih =>
      obtain ⟨host, hhost⟩ := Option.isSome_iff_exists.mp (hparts part List.mem_cons_self)
      obtain ⟨hosts, hhosts⟩ := ih fun p hp => hparts p (List.mem_cons_of_mem _ hp)
      exact ⟨host :: hosts, .cons hhost hhosts⟩
  obtain ⟨hosts, hhosts⟩ := hhosts
  rw [contains, lookup_eq, derived?_of_ruled? h hhosts]
  cases c.listed? k <;> rfl

end TypeContext

end Graft

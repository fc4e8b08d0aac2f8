import Mathlib.Data.List.Nodup
import Graft.Proofs.Types.Merge

/-!
# Merges that change nothing

A context is known by what it lists and by the order of its rules, each of which it has once. So a
merge gives back the earlier context if the rules of the later one are its last rules, and it lists
for all that the later one resolves what that one lists. What has been merged over a context stands
in it in this way.
-/

namespace Graft.TypeContext

variable {a b c : TypeContext} {k : ForeignType} {host : HostType}
  {es es' : List (ForeignType × HostType)}

/-! ## Correspondences -/

theorem lookup_eq_some_iff_mem (hes : Sorted es) : es.lookup k = some host ↔ (k, host) ∈ es := by
  induction es with
  | nil => simp
  | cons e es ih =>
    have ih := ih (List.pairwise_cons.mp hes).2
    rw [lookup_cons_ite, List.mem_cons]
    split
    next hk =>
      have hnone : (k, host) ∉ es := by
        rw [← ih, hk, lookup_eq_none_of_sorted hes]
        simp
      rw [or_iff_left hnone, Option.some.injEq, Prod.ext_iff, eq_comm]
      exact (and_iff_right hk).symm
    next hk =>
      rw [ih]
      exact (or_iff_right fun h => hk (congrArg Prod.fst h)).symm

/-- Sorted correspondences are known by what they say of each type. -/
theorem eq_of_lookup (hes : Sorted es) (hes' : Sorted es') (h : ∀ k, es.lookup k = es'.lookup k) :
    es = es' := by
  have hne : ∀ {e e' : ForeignType × HostType}, e.1.spelling < e'.1.spelling → e ≠ e' := by
    rintro e e' hless rfl
    exact String.lt_irrefl _ hless
  have hperm : es.Perm es' := by
    refine (List.perm_ext_iff_of_nodup (hes.imp hne) (hes'.imp hne)).mpr fun e => ?_
    rw [← lookup_eq_some_iff_mem hes, ← lookup_eq_some_iff_mem hes', h]
  exact hperm.eq_of_pairwise
    (fun e e' _ _ hless hgreater => absurd hgreater (String.lt_asymm hless)) hes hes'

/-- A context is known by what it lists and by its rules. -/
theorem Built.eq_of_listed? (hb : b.Built) (hc : c.Built) (h : ∀ k, b.listed? k = c.listed? k)
    (hrules : b.rules = c.rules) : b = c := by
  have hentries : b.entries = c.entries := eq_of_lookup hb.sorted hc.sorted h
  cases b
  cases c
  exact congrArg₂ TypeContext.mk hentries hrules

/-! ## Rules -/

/-- Rules that are added stand behind all others, in their order. -/
theorem foldl_addRule {later : List TypeRule} (hlater : later.Nodup) (rules : List TypeRule) :
    later.foldl addRule rules = rules.filter (· ∉ later) ++ later := by
  induction later generalizing rules with
  | nil => simp
  | cons rule later ih =>
    obtain ⟨hrule, hlater⟩ := List.nodup_cons.mp hlater
    have hkept : (addRule rules rule).filter (· ∉ later) =
        rules.filter (· ∉ rule :: later) ++ [rule] := by
      rw [addRule, List.filter_append, List.filter_filter]
      simp [hrule, Bool.and_comm]
    rw [List.foldl_cons, ih hlater, hkept, List.append_assoc, List.singleton_append]

theorem rules_extend (hb : b.rules.Nodup) (a : TypeContext) :
    (a.extend b).rules = a.rules.filter (· ∉ b.rules) ++ b.rules := foldl_addRule hb a.rules

theorem rules_foldl_insert (es : List (ForeignType × HostType)) (c : TypeContext) :
    (es.foldl (fun c e => c.insert e.1 e.2) c).rules = c.rules := by
  induction es generalizing c with
  | nil => rfl
  | cons e es ih => exact ih _

/-- Each rule stands once in a context. -/
theorem Built.nodup_rules (hc : c.Built) : c.rules.Nodup := by
  induction hc with
  | empty => exact .nil
  | ofEntries es =>
    have hrules : (TypeContext.ofEntries es).rules = [] := rules_foldl_insert es .empty
    rw [hrules]
    exact .nil
  | ofRule rule => exact List.nodup_singleton _
  | @extend c later _ _ ihc ihlater =>
    rw [rules_extend ihlater]
    refine (ihc.filter _).append ihlater fun rule hrule => ?_
    simpa using (List.mem_filter.mp hrule).2

/-! ## Merging what is there already -/

/-- A merge changes nothing if the earlier context ends with the rules of the later one, and lists
what the later one lists wherever that one resolves a type. -/
theorem extend_eq_self (hc : c.Built) (hb : b.Built) (hrules : b.rules <:+ c.rules)
    (hlisted : ∀ k, b.contains k → c.listed? k = b.listed? k) : c.extend b = c := by
  refine (Built.extend hc hb).eq_of_listed? hc (fun k => ?_) ?_
  · rw [listed?_extend hb.sorted]
    by_cases hk : b.contains k
    · rw [if_pos hk, hlisted k hk]
      cases b.listed? k <;> rfl
    · have hnone : b.listed? k = none := by
        by_contra hsome
        obtain ⟨host, hhost⟩ := Option.ne_none_iff_exists'.mp hsome
        exact hk (by rw [contains, lookup_of_listed? hhost]; rfl)
      rw [if_neg hk, hnone]
      rfl
  · obtain ⟨before, hbefore⟩ := hrules
    have hnodup := hc.nodup_rules
    rw [← hbefore] at hnodup
    have hapart := List.disjoint_of_nodup_append hnodup
    have hkept : before.filter (· ∉ b.rules) = before :=
      List.filter_eq_self.mpr fun rule hrule => by simpa using hapart hrule
    rw [rules_extend hb.nodup_rules, ← hbefore, List.filter_append, hkept,
      List.filter_eq_nil_iff.mpr (by simp), List.append_nil]

theorem empty_extend (hc : c.Built) : empty.extend c = c := by
  refine (Built.extend .empty hc).eq_of_listed? hc (fun k => ?_) (rules_extend hc.nodup_rules empty)
  have hnone : (if c.contains k then none else empty.listed? k) = none := by split <;> rfl
  rw [listed?_extend hc.sorted, hnone]
  cases c.listed? k <;> rfl

/-- **Merging what is there already changes nothing.** A context has each of its rules once.
Merging it with itself or, on either side, with the empty context gives it back, correspondences
and order of rules alike, and what has been merged over a context can be merged over the result
again. -/
theorem extend_identities (ha : a.Built) (hb : b.Built) :
    a.rules.Nodup ∧ a.extend a = a ∧ empty.extend a = a ∧ a.extend empty = a ∧
      (a.extend b).extend b = a.extend b := by
  refine ⟨ha.nodup_rules, extend_eq_self ha ha List.suffix_rfl fun k _ => rfl, empty_extend ha,
    extend_eq_self ha .empty List.nil_suffix fun k hk => absurd hk ?_, ?_⟩
  · rw [contains, lookup_of_no_rules rfl]
    exact Bool.false_ne_true
  · refine extend_eq_self (.extend ha hb) hb ?_ fun k hk => ?_
    · rw [rules_extend hb.nodup_rules]
      exact List.suffix_append _ _
    · rw [listed?_extend hb.sorted, if_pos hk]
      cases b.listed? k <;> rfl

/-- The first merge takes the listed pointer away, which the rule of `b` resolves, and moves that
rule behind the other one; the second merge does nothing. -/
theorem extend_identities_pointer :
    let a := ((ofRule .pointers).extend (ofRule .functionPointers)).extend
      (ofEntries [(⟨"*const i32"⟩, ⟨"Handle"⟩)])
    let b := (ofRule .pointers).extend (ofEntries [(⟨"i32"⟩, ⟨"Int32"⟩)])
    a.Built ∧ b.Built ∧
      a.listed? ⟨"*const i32"⟩ = some ⟨"Handle"⟩ ∧ (a.extend b).listed? ⟨"*const i32"⟩ = none ∧
      a.rules = [.pointers, .functionPointers] ∧
      (a.extend b).rules = [.functionPointers, .pointers] ∧
      (a.extend b).extend b = a.extend b := by
  intro a b
  have ha : a.Built := .extend (.extend (.ofRule _) (.ofRule _)) (.ofEntries _)
  have hb : b.Built := .extend (.ofRule _) (.ofEntries _)
  have hruled : b.ruled? ⟨"*const i32"⟩ = some (.pointers, [⟨"i32"⟩]) := by decide +kernel
  have hpart : b.contains ⟨"i32"⟩ := by decide +kernel
  have hpointer : b.contains ⟨"*const i32"⟩ := contains_of_ruled? hruled (by simpa using hpart)
  refine ⟨ha, hb, by decide +kernel, ?_, rfl, rfl, (extend_identities ha hb).2.2.2.2⟩
  rw [listed?_extend hb.sorted, if_pos hpointer]
  decide +kernel

end Graft.TypeContext

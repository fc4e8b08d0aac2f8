import Graft.Proofs.Result
import Graft.Proofs.Types.Merge
import Graft.Settings.Project
import Graft.Types.Builtin

/-!
# The types that merged contexts resolve

Which host type a merged context gives depends on what was merged over what. Which types it gives
one does not: it resolves what all contexts list, and what all their rules build from that.
-/

namespace Graft

namespace TypeContext

variable {c : TypeContext} {cs : List TypeContext} {k : ForeignType}

/-! ## The least set -/

/-- `S` holds all types that the contexts list, and with the parts of a type that one of their rules
is for, the type. -/
structure ClosedUnder (cs : List TypeContext) (S : ForeignType → Prop) : Prop where
  listed : ∀ c ∈ cs, ∀ e ∈ c.entries, S e.1
  ruled : ∀ c ∈ cs, ∀ rule ∈ c.rules, ∀ k t parts, k.tree? = some t →
    rule.parts? t.peel = some parts → (∀ part ∈ parts, S part) → S k

/-- `k` is in the least set that is closed under the contexts. -/
def Resolvable (cs : List TypeContext) (k : ForeignType) : Prop := ∀ S, ClosedUnder cs S → S k

theorem ClosedUnder.of_subset {cs' : List TypeContext} {S : ForeignType → Prop}
    (h : ClosedUnder cs S) (hsubset : cs' ⊆ cs) : ClosedUnder cs' S :=
  ⟨fun c hc => h.listed c (hsubset hc), fun c hc => h.ruled c (hsubset hc)⟩

/-! ## Merging in any way -/

/-- A way to merge contexts: two at a time, the earlier before the later. -/
inductive Merging where
  | none
  | one (c : TypeContext)
  | both (earlier later : Merging)

namespace Merging

/-- The contexts in the order in which they stand. -/
def contexts : Merging → List TypeContext
  | none => []
  | one c => [c]
  | both earlier later => earlier.contexts ++ later.contexts

def merged : Merging → TypeContext
  | none => .empty
  | one c => c
  | both earlier later => earlier.merged.extend later.merged

variable {m : Merging}

theorem built (h : ∀ c ∈ m.contexts, c.Built) : m.merged.Built := by
  induction m with
  | none => exact .empty
  | one c => exact h c (List.mem_singleton_self c)
  | both earlier later ihe ihl =>
    exact .extend (ihe fun c hc => h c (List.mem_append_left _ hc))
      (ihl fun c hc => h c (List.mem_append_right _ hc))

/-- Merging neither makes nor loses rules. -/
theorem mem_rules {rule : TypeRule} : rule ∈ m.merged.rules ↔ ∃ c ∈ m.contexts, rule ∈ c.rules := by
  induction m with
  | none => simp [merged, contexts, empty]
  | one c => simp [merged, contexts]
  | both earlier later ihe ihl =>
    simp only [merged, contexts, mem_rules_extend, ihe, ihl, List.mem_append, or_and_right,
      exists_or]

/-- What a merged context lists, one of the contexts lists. -/
theorem listed_of_merged (h : ∀ c ∈ m.contexts, c.Built) {host : HostType}
    (hk : m.merged.listed? k = some host) : ∃ c ∈ m.contexts, ∃ e ∈ c.entries, e.1 = k := by
  induction m generalizing host with
  | none => cases hk
  | one c =>
    obtain ⟨before, after, hentries, -⟩ := List.lookup_eq_some_iff.mp hk
    refine ⟨c, List.mem_singleton_self c, (k, host), ?_, rfl⟩
    rw [show c.entries = _ from hentries]
    exact List.mem_append_right _ List.mem_cons_self
  | both earlier later ihe ihl =>
    have hlater : ∀ c ∈ later.contexts, c.Built := fun c hc => h c (List.mem_append_right _ hc)
    rw [merged, listed?_extend (built hlater).sorted] at hk
    -- The later context lists the type, or leaves what the earlier one lists.
    cases hlisted : later.merged.listed? k with
    | some host' =>
      obtain ⟨c, hc, he⟩ := ihl hlater hlisted
      exact ⟨c, List.mem_append_right _ hc, he⟩
    | none =>
      rw [hlisted] at hk
      change (if _ then _ else _) = some host at hk
      split at hk
      · cases hk
      · obtain ⟨c, hc, he⟩ := ihe (fun c hc => h c (List.mem_append_left _ hc)) hk
        exact ⟨c, List.mem_append_left _ hc, he⟩

/-- What one of the contexts lists, a merged context resolves: by an entry of a later context, or by
rules if the entry has been dropped. -/
theorem contains_of_listed (h : ∀ c ∈ m.contexts, c.Built) (hc : c ∈ m.contexts)
    {e : ForeignType × HostType} (he : e ∈ c.entries) : m.merged.contains e.1 := by
  induction m with
  | none => cases hc
  | one c' =>
    obtain rfl := List.mem_singleton.mp hc
    have hlisted : (c.entries.lookup e.1).isSome :=
      List.lookup_isSome_iff.mpr ⟨e, he, beq_self_eq_true e.1⟩
    obtain ⟨host, hhost⟩ := Option.isSome_iff_exists.mp hlisted
    rw [merged, contains, lookup_of_listed? hhost]
    rfl
  | both earlier later ihe ihl =>
    have hlater : ∀ c ∈ later.contexts, c.Built := fun c hc => h c (List.mem_append_right _ hc)
    rcases List.mem_append.mp hc with hc | hc
    -- An entry of the earlier context may be dropped, but only where the later resolves its type.
    · obtain ⟨host, hhost⟩ := Option.isSome_iff_exists.mp
        (ihe (fun c hc => h c (List.mem_append_left _ hc)) hc)
      exact contains_extend_earlier (built hlater).sorted hhost
    · obtain ⟨host, hhost⟩ := Option.isSome_iff_exists.mp (ihl hlater hc)
      rw [merged, contains, lookup_extend_later (built hlater).sorted earlier.merged hhost]
      rfl

/-- What a merged context resolves is closed under the contexts that were merged. -/
theorem closedUnder_contains (h : ∀ c ∈ m.contexts, c.Built) :
    ClosedUnder m.contexts fun k => m.merged.contains k := by
  constructor
  · intro c hc e he
    exact contains_of_listed h hc he
  · intro c hc rule hrule k t parts ht hparts hresolved
    have hruled : m.merged.ruled? k = some (rule, parts) :=
      ruled?_eq_some_iff.mpr ⟨mem_rules.mpr ⟨c, hc, hrule⟩, t, ht, hparts⟩
    exact contains_of_ruled? hruled hresolved

/-- What a merged context resolves is in every closed set. -/
theorem resolvable_of_contains (h : ∀ c ∈ m.contexts, c.Built) (hk : m.merged.contains k) :
    Resolvable m.contexts k := by
  intro S hS
  obtain ⟨host, hhost⟩ := Option.isSome_iff_exists.mp hk
  refine lookup_induction (motive := fun k _ => S k) ?_ ?_ hhost
  · intro k host hlisted
    obtain ⟨c, hc, e, he, rfl⟩ := listed_of_merged h hlisted
    exact hS.listed c hc e he
  · intro k rule parts hosts _ hruled hparts
    obtain ⟨hrule, t, ht, hshape⟩ := ruled?_eq_some_iff.mp hruled
    obtain ⟨c, hc, hrule⟩ := mem_rules.mp hrule
    have hresolved : List.Forall₂ (fun part host => S part ∧ m.merged.lookup part = some host) parts
        hosts := hparts.imp fun _ _ hpart => hpart.symm
    exact hS.ruled c hc rule hrule k t parts ht hshape ((List.forall₂_and_left _ _).mp hresolved).1

/-- A merged context resolves the least set that is closed under the contexts. -/
theorem contains_iff (hbuilt : ∀ c ∈ cs, c.Built) (hperm : m.contexts.Perm cs) (k : ForeignType) :
    m.merged.contains k ↔ Resolvable cs k := by
  have h : ∀ c ∈ m.contexts, c.Built := fun c hc => hbuilt c (hperm.subset hc)
  constructor
  · intro hk S hS
    exact resolvable_of_contains h hk S (hS.of_subset hperm.subset)
  · intro hk
    exact hk _ ((closedUnder_contains h).of_subset hperm.symm.subset)

/-- Contexts merged one over the other. -/
def inOrder (m : Merging) (cs : List TypeContext) : Merging :=
  cs.foldl (fun m c => m.both (one c)) m

theorem contexts_inOrder (m : Merging) (cs : List TypeContext) :
    (m.inOrder cs).contexts = m.contexts ++ cs := by
  induction cs generalizing m with
  | nil => exact (List.append_nil _).symm
  | cons c cs ih =>
    show ((m.both (one c)).inOrder cs).contexts = _
    rw [ih, contexts, contexts, List.append_assoc]
    rfl

theorem merged_inOrder (m : Merging) (cs : List TypeContext) :
    (m.inOrder cs).merged = cs.foldl TypeContext.extend m.merged := by
  induction cs generalizing m with
  | nil => rfl
  | cons c cs ih => exact ih (m.both (one c))

end Merging

theorem contains_foldl_iff {cs cs' : List TypeContext} (hbuilt : ∀ c ∈ cs', c.Built)
    (hperm : cs.Perm cs') (k : ForeignType) :
    (cs.foldl extend .empty).contains k ↔ Resolvable cs' k := by
  have hcontexts : (Merging.inOrder .none cs).contexts = cs := Merging.contexts_inOrder .none cs
  have hmerged : (Merging.inOrder .none cs).merged = cs.foldl extend .empty :=
    Merging.merged_inOrder .none cs
  rw [← hmerged]
  exact Merging.contains_iff hbuilt (hcontexts.symm ▸ hperm) k

end TypeContext

/-! ## Contexts that settings name -/

namespace Settings

/-- The same settings with other contexts named. -/
def withContexts (s : Settings) (names : List String) : Settings :=
  { s with types := { s.types with contexts := names } }

variable {s : Settings} {names : List String} {c : TypeContext}

theorem built_of_namedContext {name : String} (h : namedContext name = .ok c) : c.Built := by
  unfold namedContext at h
  split at h
  next c' hbuiltin =>
    obtain rfl := Except.ok.inj h
    obtain ⟨before, after, hmem, -⟩ := List.lookup_eq_some_iff.mp hbuiltin
    have hall : ∀ b ∈ TypeContext.builtins, b.2.Built := by
      simp only [TypeContext.builtins, List.forall_mem_cons]
      exact ⟨.ofEntries _, .ofEntries _, .ofRule _, .ofRule _, .extend (.ofEntries _) (.ofRule _),
        by simp⟩
    exact hall (name, c') (by rw [hmem]; exact List.mem_append_right _ List.mem_cons_self)
  · cases h

theorem typeContext_eq_ok_iff : s.typeContext = .ok c ↔
    ∃ contexts mapped, s.types.contexts.mapM namedContext = .ok contexts ∧
      s.types.mappings.mapM correspondence = .ok mapped ∧
      c = (contexts.foldl TypeContext.extend .empty).extend (.ofEntries mapped) := by
  constructor
  · intro h
    obtain ⟨contexts, hcontexts, h⟩ := except_bind_eq_ok h
    obtain ⟨mapped, hmapped, h⟩ := except_bind_eq_ok h
    exact ⟨contexts, mapped, hcontexts, hmapped, (Except.ok.inj h).symm⟩
  · rintro ⟨contexts, mapped, hcontexts, hmapped, rfl⟩
    unfold typeContext
    rw [hcontexts, hmapped]
    rfl

theorem built_of_mapM {contexts : List TypeContext} (h : names.mapM namedContext = .ok contexts) :
    ∀ c ∈ contexts, c.Built := by
  have hnamed : List.Forall₂ (fun c name => c.Built ∧ namedContext name = .ok c) contexts names :=
    (mapM_eq_ok_iff.mp h).flip.imp fun c name hname => ⟨built_of_namedContext hname, hname⟩
  exact ((List.forall₂_and_left _ _).mp hnamed).1

/-- Naming the contexts in another order neither maps nor unmaps a type. -/
theorem contains_withContexts (hperm : names.Perm s.types.contexts) (h : s.typeContext = .ok c) :
    ∃ c', (s.withContexts names).typeContext = .ok c' ∧ ∀ k, c'.contains k = c.contains k := by
  obtain ⟨contexts, mapped, hcontexts, hmapped, rfl⟩ := typeContext_eq_ok_iff.mp h
  obtain ⟨contexts', hcontexts', hperm'⟩ := mapM_perm hperm hcontexts
  refine ⟨_, typeContext_eq_ok_iff.mpr ⟨contexts', mapped, hcontexts', hmapped, rfl⟩, ?_⟩
  have hbuilt : ∀ c ∈ contexts ++ [TypeContext.ofEntries mapped], c.Built := by
    intro c hc
    rcases List.mem_append.mp hc with hc | hc
    · exact built_of_mapM hcontexts c hc
    · rw [List.mem_singleton.mp hc]
      exact .ofEntries mapped
  have hiff : ∀ cs : List TypeContext, cs.Perm contexts → ∀ k,
      ((cs.foldl TypeContext.extend .empty).extend (.ofEntries mapped)).contains k ↔
        TypeContext.Resolvable (contexts ++ [TypeContext.ofEntries mapped]) k := by
    intro cs hcs k
    have hlast : (cs ++ [TypeContext.ofEntries mapped]).foldl TypeContext.extend .empty =
        (cs.foldl TypeContext.extend .empty).extend (.ofEntries mapped) := List.foldl_append
    rw [← hlast]
    exact TypeContext.contains_foldl_iff hbuilt (hcs.append_right _) k
  intro k
  rw [Bool.eq_iff_iff, hiff contexts' hperm', hiff contexts (.refl _)]

end Settings

namespace TypeContext

/-- **What is mapped depends on what is merged, not on how.** However contexts from the constructors
are ordered and bracketed, their merge resolves the least set of types that holds what any of them
lists and is closed under the rules of all. So settings map the same types in whatever order they
name contexts. -/
theorem contains_any_order :
    (∀ cs : List TypeContext, (∀ c ∈ cs, c.Built) → ∀ m : Merging, m.contexts.Perm cs → ∀ k,
      m.merged.contains k ↔ Resolvable cs k) ∧
    (∀ (s : Settings) (names : List String), names.Perm s.types.contexts →
      ∀ c, s.typeContext = .ok c → ∃ c', (s.withContexts names).typeContext = .ok c' ∧
        ∀ k, c'.contains k = c.contains k) :=
  ⟨fun _ hbuilt _ hperm k => Merging.contains_iff hbuilt hperm k,
    fun _ _ hperm _ h => Settings.contains_withContexts hperm h⟩

/-- A pointer that is listed gives way to the rule in one order and not in the other, but is mapped
in both. -/
theorem contains_any_order_pointer :
    let p := ofRule .pointers
    let i := ofEntries [(⟨"i32"⟩, ⟨"Int32"⟩)]
    let h := ofEntries [(⟨"*const i32"⟩, ⟨"Handle"⟩)]
    let s := Settings.standard.withContexts ["basic", "pointers"]
    (∀ k, (h.extend (p.extend i)).contains k = ((p.extend i).extend h).contains k) ∧
    ∃ c c', s.typeContext = .ok c ∧ (s.withContexts ["pointers", "basic"]).typeContext = .ok c' ∧
      ∀ k, c'.contains k = c.contains k := by
  intro p i h s
  have hbuilt : ∀ c ∈ [h, p, i], c.Built := by
    simp only [List.forall_mem_cons]
    exact ⟨.ofEntries _, .ofRule _, .ofEntries _, by simp⟩
  constructor
  · intro k
    have hleft := contains_any_order.1 [h, p, i] hbuilt (.both (.one h) (.both (.one p) (.one i)))
      (.refl _) k
    have hright := contains_any_order.1 [h, p, i] hbuilt (.both (.both (.one p) (.one i)) (.one h))
      List.perm_append_comm k
    rw [Bool.eq_iff_iff]
    exact hleft.trans hright.symm
  · have hok : s.typeContext.isOk := by decide +kernel
    cases hc : s.typeContext with
    | error e =>
      rw [hc] at hok
      cases hok
    | ok c =>
      obtain ⟨c', hc', hsame⟩ := contains_any_order.2 s ["pointers", "basic"]
        (List.Perm.swap _ _ _) c hc
      exact ⟨c, c', rfl, hc', hsame⟩

end TypeContext

end Graft

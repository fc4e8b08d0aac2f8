import Mathlib.Data.List.Induction
import Graft.Command.Run

/-!
# Link needs of several units

A merge names each search path and each flag of both sides once, where it appears first, and every
library as often as it is needed. As a merge asks of what it adds only whether it is there already,
merges may be grouped in any way, also where a side repeats itself.
-/

namespace Graft

/-! ## First appearances -/

/-- The second list has, in its order, each element of the first list that is the first with its
key. -/
inductive Firsts {α β : Type} (key : α → β) : List α → List α → Prop where
  | none : Firsts key [] []
  | first {all kept : List α} {a : α} : Firsts key all kept → (∀ b ∈ all, key b ≠ key a) →
    Firsts key (all ++ [a]) (kept ++ [a])
  | again {all kept : List α} {a : α} : Firsts key all kept → (∃ b ∈ all, key b = key a) →
    Firsts key (all ++ [a]) kept

namespace Firsts

variable {α β : Type} {key : α → β} {all kept : List α}

theorem subset (h : Firsts key all kept) : kept ⊆ all := by
  induction h with
  | none => exact List.Subset.refl _
  | @first all kept a _ _ ih =>
    exact List.append_subset.mpr ⟨List.subset_append_of_subset_left [a] ih,
      List.subset_append_right all [a]⟩
  | again _ _ ih => exact List.subset_append_of_subset_left _ ih

/-- No key is lost. -/
theorem map_subset (h : Firsts key all kept) : all.map key ⊆ kept.map key := by
  induction h with
  | none => exact List.Subset.refl _
  | first _ _ ih =>
    rw [List.map_append, List.map_append]
    exact List.append_subset.mpr ⟨List.subset_append_of_subset_left _ ih,
      List.subset_append_right _ _⟩
  | again _ hknown ih =>
    obtain ⟨b, hb, hkey⟩ := hknown
    rw [List.map_append]
    refine List.append_subset.mpr ⟨ih, List.cons_subset.mpr ⟨?_, List.nil_subset _⟩⟩
    rw [← hkey]
    exact ih (List.mem_map_of_mem hb)

/-- No key stands twice. -/
theorem pairwise (h : Firsts key all kept) : kept.Pairwise fun a b => key a ≠ key b := by
  induction h with
  | none => exact .nil
  | @first all kept a hfirsts hnew ih =>
    refine List.pairwise_append.mpr ⟨ih, List.pairwise_singleton _ _, fun b hb c hc => ?_⟩
    rw [List.mem_singleton.mp hc]
    exact hnew b (hfirsts.subset hb)
  | again _ _ ih => exact ih

end Firsts

namespace LinkSpec

/-! ## Adding what is new -/

section AddNew

variable {α β : Type} {key : α → β} {same : α → α → Bool} {all known more last : List α} {a : α}

theorem addNew_append (known more last : List α) :
    addNew same known (more ++ last) = addNew same (addNew same known more) last :=
  List.foldl_append ..

theorem prefix_addNew (known more : List α) : known <+: addNew same known more := by
  induction more generalizing known with
  | nil => exact List.prefix_rfl
  | cons a more ih =>
    rw [addNew, List.foldl_cons]
    split
    · exact ih known
    · exact (List.prefix_append known [a]).trans (ih (known ++ [a]))

theorem any_same (hsame : ∀ a b, same a b ↔ key a = key b) :
    known.any (same a) ↔ key a ∈ known.map key := by
  rw [List.any_eq_true, List.mem_map]
  simp only [hsame, @eq_comm _ (key a)]

/-- A key is there behind an addition if one of the two sides has it. -/
theorem mem_map_addNew (hsame : ∀ a b, same a b ↔ key a = key b) {x : β} :
    x ∈ (addNew same known more).map key ↔ x ∈ known.map key ∨ x ∈ more.map key := by
  induction more generalizing known with
  | nil => simp [addNew]
  | cons a more ih =>
    rw [addNew, List.foldl_cons, List.map_cons, List.mem_cons]
    refine ih.trans ?_
    split
    next hknown =>
      have hkey := (any_same hsame).mp hknown
      constructor
      · exact Or.imp_right Or.inr
      · rintro (h | rfl | h)
        · exact .inl h
        · exact .inl hkey
        · exact .inr h
    next =>
      rw [List.map_append, List.mem_append, List.map_singleton, List.mem_singleton, or_assoc]

theorem firsts_addNew (hsame : ∀ a b, same a b ↔ key a = key b) (h : Firsts key all known)
    (more : List α) : Firsts key (all ++ more) (addNew same known more) := by
  induction more generalizing all known with
  | nil => rwa [List.append_nil]
  | cons a more ih =>
    have hall : all ++ a :: more = all ++ [a] ++ more := by simp
    rw [addNew, List.foldl_cons, hall]
    split
    next hknown =>
      obtain ⟨b, hb, hkey⟩ := List.mem_map.mp ((any_same hsame).mp hknown)
      exact ih (h.again ⟨b, h.subset hb, hkey⟩)
    next hnew =>
      refine ih (h.first fun b hb hkey => hnew ((any_same hsame).mpr ?_))
      exact hkey ▸ h.map_subset (List.mem_map_of_mem hb)

/-- What is added last is new behind both others together just if it is new behind each. -/
theorem addNew_assoc (hsame : ∀ a b, same a b ↔ key a = key b) (known more last : List α) :
    addNew same (addNew same known more) last = addNew same known (addNew same more last) := by
  induction last using List.reverseRecOn with
  | nil => rfl
  | append_singleton last a ih =>
    have hadd : ∀ known : List α, addNew same known [a] =
        if known.any (same a) then known else known ++ [a] := fun _ => rfl
    rw [addNew_append, ih, addNew_append more, hadd (addNew same more last)]
    split
    next hknown =>
      have hlater : (addNew same known (addNew same more last)).any (same a) :=
        (any_same hsame).mpr ((mem_map_addNew hsame).mpr (.inr ((any_same hsame).mp hknown)))
      rw [hadd, if_pos hlater]
    next => rw [addNew_append]

end AddNew

/-! ## Merging -/

theorem same_parts (p q : FilePath) : p.same q ↔ p.parts = q.parts := decide_eq_true_iff

theorem same_flag (x y : String) : decide (x = y) ↔ id x = id y := decide_eq_true_iff

theorem merge_assoc (a b c : LinkSpec) : (a.merge b).merge c = a.merge (b.merge c) := by
  simp only [merge, addNew_assoc same_parts, addNew_assoc same_flag, List.append_assoc]

theorem merge_empty (a : LinkSpec) : a.merge empty = a := by
  rw [merge, empty, List.append_nil]
  rfl

/-- A specification names what several others need: each search path and each flag once, where it
first appears, and all libraries. -/
structure Combines (specs : List LinkSpec) (s : LinkSpec) : Prop where
  searchPaths : Firsts FilePath.parts (specs.flatMap (·.searchPaths)) s.searchPaths
  native : Firsts id (specs.flatMap (·.native)) s.native
  libraries : s.libraries = specs.flatMap (·.libraries)

theorem Combines.concat {specs : List LinkSpec} {s : LinkSpec} (h : Combines specs s)
    (t : LinkSpec) : Combines (specs ++ [t]) (s.merge t) where
  searchPaths := by
    rw [List.flatMap_append, List.flatMap_singleton]
    exact firsts_addNew same_parts h.searchPaths t.searchPaths
  native := by
    rw [List.flatMap_append, List.flatMap_singleton]
    exact firsts_addNew same_flag h.native t.native
  libraries := by
    rw [List.flatMap_append, List.flatMap_singleton, ← h.libraries]
    rfl

theorem combines_foldl (specs : List LinkSpec) : Combines specs (specs.foldl merge empty) := by
  induction specs using List.reverseRecOn with
  | nil => exact ⟨.none, .none, rfl⟩
  | append_singleton specs t ih =>
    rw [List.foldl_append]
    exact ih.concat t

/-! ## Grouping -/

/-- A way to merge specifications two at a time. -/
inductive Grouping where
  | none
  | one (s : LinkSpec)
  | both (earlier later : Grouping)

namespace Grouping

/-- The specifications in the order in which they stand. -/
def specs : Grouping → List LinkSpec
  | none => []
  | one s => [s]
  | both earlier later => earlier.specs ++ later.specs

def merged : Grouping → LinkSpec
  | none => .empty
  | one s => s
  | both earlier later => earlier.merged.merge later.merged

/-- Merging a group is merging its members one after the other. -/
theorem merge_merged (g : Grouping) (a : LinkSpec) : a.merge g.merged = g.specs.foldl merge a := by
  induction g generalizing a with
  | none => exact merge_empty a
  | one s => rfl
  | both earlier later ihe ihl =>
    rw [merged, ← merge_assoc, ihe, ihl, specs, List.foldl_append]

end Grouping

end LinkSpec

namespace Run

/-- What the units that have been compiled need, in their order. -/
def linksOf (outcomes : List FileOutcome) : List LinkSpec :=
  outcomes.filterMap fun
    | .expanded _ link => link
    | .failed _ => none

theorem link_manifestOf (outcomes : List FileOutcome) :
    (manifestOf outcomes).link = (linksOf outcomes).foldl .merge .empty := by
  induction outcomes using List.reverseRecOn with
  | nil => rfl
  | append_singleton outcomes outcome ih =>
    rw [manifestOf, List.foldl_append, linksOf, List.filterMap_append, List.foldl_append]
    rcases outcome with ⟨report, _ | link⟩ | failures
    · exact ih
    · exact congrArg (LinkSpec.merge · link) ih
    · exact ih

end Run

namespace LinkSpec

/-- **Merges may be grouped.** Merging is associative. Specifications merged one after the other
name each search path and each flag exactly once, in the order in which they first appear, and all
libraries one after the other. So the lines for a build script and the flags for a linker that a
run gives are the same however the needs of its units are grouped. -/
theorem merge_groups :
    (∀ a b c : LinkSpec, (a.merge b).merge c = a.merge (b.merge c)) ∧
    (∀ specs : List LinkSpec,
      let s := specs.foldl merge empty
      Combines specs s ∧
        s.searchPaths.Pairwise (fun p q => ¬ p.same q) ∧ s.native.Nodup ∧
        (∀ p ∈ s.searchPaths, ∃ t ∈ specs, p ∈ t.searchPaths) ∧
        (∀ t ∈ specs, ∀ p ∈ t.searchPaths, ∃ q ∈ s.searchPaths, q.same p) ∧
        ∀ flag, flag ∈ s.native ↔ ∃ t ∈ specs, flag ∈ t.native) ∧
    ∀ (outcomes : List FileOutcome) (g : Grouping), g.specs = Run.linksOf outcomes →
      (empty.merge g.merged).cargoDirectives = (Run.manifestOf outcomes).link.cargoDirectives ∧
        (empty.merge g.merged).linkerFlags = (Run.manifestOf outcomes).link.linkerFlags := by
  refine ⟨merge_assoc, fun specs => ?_, fun outcomes g hg => ?_⟩
  · intro s
    have h : Combines specs s := combines_foldl specs
    refine ⟨h, h.searchPaths.pairwise.imp fun hne hsame => hne ((same_parts _ _).mp hsame),
      h.native.pairwise, fun p hp => List.mem_flatMap.mp (h.searchPaths.subset hp),
      fun t ht p hp => ?_, fun flag => ⟨fun hflag => ?_, fun hflag => ?_⟩⟩
    · have hall : p ∈ specs.flatMap (·.searchPaths) := List.mem_flatMap.mpr ⟨t, ht, hp⟩
      obtain ⟨q, hq, hparts⟩ :=
        List.mem_map.mp (h.searchPaths.map_subset (List.mem_map_of_mem hall))
      exact ⟨q, hq, (same_parts q p).mpr hparts⟩
    · exact List.mem_flatMap.mp (h.native.subset hflag)
    · have hkept := h.native.map_subset (List.mem_map_of_mem (List.mem_flatMap.mpr hflag))
      rwa [List.map_id] at hkept
  · rw [g.merge_merged, hg, Run.link_manifestOf]
    exact ⟨rfl, rfl⟩

/-- Two units with a search path in two spellings and with flags that each repeats; a group that
repeats itself is merged before it meets the first unit. -/
theorem merge_groups_repeated :
    let a : LinkSpec := ⟨[⟨"out/lib"⟩], [(.static, "a")], ["-lc", "-lm", "-lc"]⟩
    let b : LinkSpec := ⟨[⟨"out//lib/"⟩, ⟨"lib"⟩], [(.static, "b")], ["-ldl", "-lm", "-ldl"]⟩
    let report : UnitReport := ⟨⟨"A.hs"⟩, ⟨"out/A.hs"⟩, "A.hs", none, [], 0⟩
    let outcomes : List FileOutcome :=
      [.expanded report (some a), .failed [], .expanded report (some b), .expanded report none,
        .expanded report (some b)]
    let g : Grouping := .both (.both .none (.one a)) (.both (.one b) (.one b))
    g.specs = Run.linksOf outcomes ∧
      (empty.merge g.merged).linkerFlags = (Run.manifestOf outcomes).link.linkerFlags ∧
      (Run.manifestOf outcomes).link.linkerFlags =
        ["-Lout/lib", "-Llib", "-la", "-lb", "-lb", "-lc", "-lm", "-ldl"] := by
  intro a b report outcomes g
  exact ⟨rfl, (merge_groups.2.2 outcomes g rfl).2, by decide +kernel⟩

end LinkSpec

end Graft

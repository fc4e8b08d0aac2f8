import Graft.Proofs.Types.Closure

/-!
# The context that settings ask for

The named contexts are merged one over the other, and the mappings, which bring no rules, over all
of them. Several keys of the mappings may spell one type. As mappings stand in the order of their
keys, the greatest of these keys counts.
-/

namespace Graft

/-! ## Mappings that are read -/

namespace KeyedTexts

/-- Texts in the order of their keys, each key once. -/
def Sorted (texts : KeyedTexts) : Prop := texts.Pairwise fun e e' => e.1 < e'.1

instance : DecidablePred Sorted := fun texts => inferInstanceAs (Decidable (texts.Pairwise _))

variable {texts : KeyedTexts} {key value : String}

theorem mem_insert {e : String × String} (he : e ∈ texts.insert key value) :
    e = (key, value) ∨ e ∈ texts := by
  induction texts with
  | nil => exact .inl (List.mem_singleton.mp he)
  | cons e' texts ih =>
    unfold insert at he
    split at he
    · exact (List.mem_cons.mp he).imp_right (List.mem_cons_of_mem _)
    split at he
    · exact List.mem_cons.mp he
    · rcases List.mem_cons.mp he with rfl | he
      · exact .inr List.mem_cons_self
      · exact (ih he).imp_right (List.mem_cons_of_mem _)

theorem sorted_insert (h : texts.Sorted) (key value : String) :
    (texts.insert key value).Sorted := by
  induction texts with
  | nil => exact List.pairwise_singleton _ _
  | cons e texts ih =>
    obtain ⟨hfirst, hrest⟩ := List.pairwise_cons.mp h
    unfold insert
    split
    next hsame =>
      rw [hsame]
      exact List.pairwise_cons.mpr ⟨hfirst, hrest⟩
    split
    next hless =>
      refine List.pairwise_cons.mpr ⟨fun e' he' => ?_, h⟩
      rcases List.mem_cons.mp he' with rfl | he'
      · exact hless
      · exact String.lt_trans hless (hfirst e' he')
    next hne hless =>
      refine List.pairwise_cons.mpr ⟨fun e' he' => ?_, ih hrest⟩
      rcases mem_insert he' with rfl | he'
      · exact lt_of_le_of_ne (not_lt.mp hless) (Ne.symm hne)
      · exact hfirst e' he'

end KeyedTexts

namespace Toml

theorem sorted_toTexts {item : Toml → Decoded String} {v : Toml} {texts : KeyedTexts}
    (h : v.toTexts item = .ok texts) : texts.Sorted := by
  unfold toTexts at h
  split at h
  · refine foldlM_keeps (motive := KeyedTexts.Sorted) .nil
      (fun texts e texts' hsorted hstep => ?_) h
    obtain ⟨value, -, hstep⟩ := except_bind_eq_ok hstep
    rw [← Except.ok.inj hstep]
    exact KeyedTexts.sorted_insert hsorted _ _
  · cases h

/-- What each field of a section keeps, the section keeps. -/
theorem toSection_keeps {α : Type} {motive : α → Prop} {name : String} {keys : List String}
    {field : α → String → Toml → Decoded α} {blank a : α} {v : Toml} (hblank : motive blank)
    (hfield : ∀ a key v a', motive a → field a key v = .ok a' → motive a')
    (h : v.toSection name keys field blank = .ok a) : motive a := by
  unfold toSection at h
  split at h
  · exact foldlM_keeps hblank (fun a e a' => hfield a e.1 e.2 a') h
  · exact foldlM_keeps hblank (fun a e a' => hfield a e.1 e.2 a') h
  · exact foldlM_keeps hblank (fun a e a' => hfield a e.1 e.2 a') h
  · cases h

end Toml

theorem TypeSettings.sorted_field {s s' : TypeSettings} {key : String} {v : Toml}
    (hs : s.mappings.Sorted) (h : s.field key v = .ok s') : s'.mappings.Sorted := by
  unfold field at h
  split at h
  · obtain ⟨contexts, -, h⟩ := except_bind_eq_ok h
    rw [← Except.ok.inj h]
    exact hs
  · obtain ⟨mappings, hmappings, h⟩ := except_bind_eq_ok h
    rw [← Except.ok.inj h]
    exact Toml.sorted_toTexts hmappings
  · rw [← Except.ok.inj h]
    exact hs

namespace Settings

open TypeContext (lookup_insertEntry)

variable {s : Settings} {c : TypeContext} {k : ForeignType} {host : HostType}

/-- The mappings of settings that are read stand in the order of their keys. -/
theorem sorted_of_ofText {text : String} (h : ofText text = .ok s) : s.types.mappings.Sorted := by
  have hfield : ∀ (s : Settings) (key : String) (v : Toml) (s' : Settings),
      s.types.mappings.Sorted → s.field key v = .ok s' → s'.types.mappings.Sorted := by
    intro s key v s' hs h
    unfold field at h
    split at h
    -- The section of types brings mappings of its own, the others leave them.
    case h_2 =>
      obtain ⟨types, htypes, h⟩ := except_bind_eq_ok h
      rw [← Except.ok.inj h]
      exact Toml.toSection_keeps (motive := fun types => types.mappings.Sorted) .nil
        (fun _ _ _ _ => TypeSettings.sorted_field) htypes
    case h_6 =>
      rw [← Except.ok.inj h]
      exact hs
    all_goals
      obtain ⟨section', -, h⟩ := except_bind_eq_ok h
      rw [← Except.ok.inj h]
      exact hs
  unfold ofText at h
  split at h
  · cases h
  · have hstandard : standard.types.mappings.Sorted := .nil
    exact foldlM_keeps (motive := fun s : Settings => s.types.mappings.Sorted) hstandard
      (fun s e s' => hfield s e.1 e.2 s') (except_mapError_eq_ok h)

/-! ## What mappings list -/

theorem lookup_foldl_of_ne {es : List (ForeignType × HostType)} (h : ∀ e ∈ es, e.1 ≠ k)
    (earlier : List (ForeignType × HostType)) :
    (es.foldl (fun es (f, h) => TypeContext.insertEntry f h es) earlier).lookup k =
      earlier.lookup k := by
  induction es generalizing earlier with
  | nil => rfl
  | cons e es ih =>
    obtain ⟨he, hes⟩ := List.forall_mem_cons.mp h
    rw [List.foldl_cons, ih hes, lookup_insertEntry, if_neg (Ne.symm he)]

/-- Of several correspondences for one type the last counts. -/
theorem listed?_ofEntries {before after : List (ForeignType × HostType)}
    (h : ∀ e ∈ after, e.1 ≠ k) :
    (TypeContext.ofEntries (before ++ (k, host) :: after)).listed? k = some host := by
  rw [TypeContext.listed?, TypeContext.ofEntries, TypeContext.entries_foldl_insert,
    List.foldl_append, List.foldl_cons, lookup_foldl_of_ne h, lookup_insertEntry, if_pos rfl]

theorem exists_last {α : Type} {p : α → Prop} {xs : List α} (h : ∃ x ∈ xs, p x) :
    ∃ before x after, xs = before ++ x :: after ∧ p x ∧ ∀ y ∈ after, ¬ p y := by
  induction xs with
  | nil => simp at h
  | cons x xs ih =>
    by_cases hlater : ∃ y ∈ xs, p y
    · obtain ⟨before, y, after, hxs, hy, hafter⟩ := ih hlater
      exact ⟨x :: before, y, after, by rw [hxs]; rfl, hy, hafter⟩
    · obtain ⟨y, hy, hp⟩ := h
      rcases List.mem_cons.mp hy with rfl | hy
      · exact ⟨[], y, xs, rfl, hp, by simpa using hlater⟩
      · exact absurd ⟨y, hy, hp⟩ hlater

theorem correspondence_eq_ok {m : String × String} {e : ForeignType × HostType} :
    correspondence m = .ok e ↔ ForeignType.read m.1 = .ok e.1 ∧ e.2 = .ofText m.2 := by
  unfold correspondence
  cases ForeignType.read m.1 <;> simp [Prod.ext_iff, eq_comm]

/-- The mappings list each type that some key spells, with the host type of the greatest such
key. -/
theorem exists_greatest (hs : s.types.mappings.Sorted)
    {mapped : List (ForeignType × HostType)}
    (hmapped : s.types.mappings.mapM correspondence = .ok mapped)
    (hk : ∃ m ∈ s.types.mappings, ForeignType.read m.1 = .ok k) :
    ∃ m ∈ s.types.mappings, ForeignType.read m.1 = .ok k ∧
      (∀ m' ∈ s.types.mappings, ForeignType.read m'.1 = .ok k → m'.1 ≤ m.1) ∧
      (TypeContext.ofEntries mapped).listed? k = some (.ofText m.2) := by
  obtain ⟨before, m, after, hmappings, hm, hafter⟩ := exists_last hk
  rw [hmappings] at hs hmapped ⊢
  refine ⟨m, by simp, hm, fun m' hm' hread => ?_, ?_⟩
  · rcases List.mem_append.mp hm' with hm' | hm'
    · exact le_of_lt ((List.pairwise_append.mp hs).2.2 m' hm' m List.mem_cons_self)
    · rcases List.mem_cons.mp hm' with rfl | hm'
      · exact le_refl _
      · exact absurd hread (hafter m' hm')
  · rw [List.mapM_append] at hmapped
    obtain ⟨before', -, hmapped⟩ := except_bind_eq_ok hmapped
    obtain ⟨rest, hrest, hmapped⟩ := except_bind_eq_ok hmapped
    rw [List.mapM_cons] at hrest
    obtain ⟨e, he, hrest⟩ := except_bind_eq_ok hrest
    obtain ⟨after', hafter', hrest⟩ := except_bind_eq_ok hrest
    obtain ⟨hkey, hhost⟩ := correspondence_eq_ok.mp he
    have hk : k = e.1 := Except.ok.inj (hm.symm.trans hkey)
    have he : e = (k, .ofText m.2) := Prod.ext hk.symm hhost
    rw [← Except.ok.inj hmapped, ← Except.ok.inj hrest, he]
    refine listed?_ofEntries fun e' he' hsame => ?_
    obtain ⟨m', hm', hread⟩ := exists_of_mem_mapM hafter' he'
    exact hafter m' hm' (hsame ▸ (correspondence_eq_ok.mp hread).1)

/-! ## The context -/

theorem namedContext_isOk_iff {name : String} :
    (namedContext name).isOk ↔ name ∈ TypeContext.builtins.map (·.1) := by
  have hknown : (TypeContext.builtin? name).isSome ↔ name ∈ TypeContext.builtins.map (·.1) := by
    rw [TypeContext.builtin?, List.lookup_isSome_iff, List.mem_map]
    simp only [beq_iff_eq, @eq_comm _ name]
  rw [← hknown, namedContext]
  cases TypeContext.builtin? name <;> exact Iff.rfl

theorem correspondence_isOk_iff {m : String × String} :
    (correspondence m).isOk ↔ (ForeignType.read m.1).isOk := by
  unfold correspondence
  cases ForeignType.read m.1 <;> exact Iff.rfl

theorem typeContext_isOk_iff : s.typeContext.isOk ↔
    (∀ name ∈ s.types.contexts, name ∈ TypeContext.builtins.map (·.1)) ∧
      ∀ m ∈ s.types.mappings, (ForeignType.read m.1).isOk := by
  have hboth : s.typeContext.isOk ↔
      (s.types.contexts.mapM namedContext).isOk ∧ (s.types.mappings.mapM correspondence).isOk := by
    unfold typeContext
    cases s.types.contexts.mapM namedContext <;> cases s.types.mappings.mapM correspondence <;>
      simp [bind, Except.bind, pure, Except.pure, Except.isOk, Except.toBool]
  rw [hboth, mapM_isOk_iff, mapM_isOk_iff]
  simp only [namedContext_isOk_iff, correspondence_isOk_iff]

/-- The same settings without mappings. -/
def withoutMappings (s : Settings) : Settings :=
  { s with types := { s.types with mappings := [] } }

/-- **Mappings win over contexts.** Settings give a context exactly if all contexts that they name
are built in and all keys of their mappings spell types. Each type that some key spells is then
resolved to the host type of the greatest such key, and whatever the contexts alone resolve stays
resolved. -/
theorem typeContext_resolves (hs : s.types.mappings.Sorted) :
    (s.typeContext.isOk ↔
      (∀ name ∈ s.types.contexts, name ∈ TypeContext.builtins.map (·.1)) ∧
        ∀ m ∈ s.types.mappings, (ForeignType.read m.1).isOk) ∧
    ∀ c, s.typeContext = .ok c →
      (∀ k, (∃ m ∈ s.types.mappings, ForeignType.read m.1 = .ok k) →
        ∃ m ∈ s.types.mappings, ForeignType.read m.1 = .ok k ∧
          (∀ m' ∈ s.types.mappings, ForeignType.read m'.1 = .ok k → m'.1 ≤ m.1) ∧
          c.lookup k = some (.ofText m.2)) ∧
      ∃ base, s.withoutMappings.typeContext = .ok base ∧ ∀ k, base.contains k → c.contains k := by
  refine ⟨typeContext_isOk_iff, fun c hc => ?_⟩
  obtain ⟨contexts, mapped, hcontexts, hmapped, rfl⟩ := typeContext_eq_ok_iff.mp hc
  have hsorted := (TypeContext.Built.ofEntries mapped).sorted
  refine ⟨fun k hk => ?_, contexts.foldl TypeContext.extend .empty, ?_, fun k hbase => ?_⟩
  · obtain ⟨m, hm, hread, hgreatest, hlisted⟩ := exists_greatest hs hmapped hk
    have hmapping := TypeContext.lookup_of_listed? hlisted
    exact ⟨m, hm, hread, hgreatest, TypeContext.lookup_extend_later hsorted _ hmapping⟩
  · -- With no mappings, nothing is merged over the named contexts.
    exact typeContext_eq_ok_iff.mpr ⟨contexts, [], hcontexts, rfl, rfl⟩
  · obtain ⟨host, hhost⟩ := Option.isSome_iff_exists.mp hbase
    exact TypeContext.contains_extend_earlier hsorted hhost

/-- Two keys spell `f32`, which the context `basic` lists too. The greater one counts, though it
stands first in the text, and `i32` is resolved as by the context. -/
theorem typeContext_resolves_float :
    let text := "[types]\ncontexts = [\"basic\"]\n" ++
      "[types.mappings]\nf32 = \" CFloat \"\n\" f32\" = \"X\"\n"
    ∃ s c, ofText text = .ok s ∧ s.typeContext = .ok c ∧ c.lookup ⟨"f32"⟩ = some ⟨"CFloat"⟩ ∧
      c.contains ⟨"i32"⟩ := by
  intro text
  let s : Settings :=
    { standard with types := ⟨["basic"], [(" f32", "X"), ("f32", " CFloat ")]⟩ }
  have hs : ofText text = .ok s := eq_ok_of_toOption (by decide +kernel)
  obtain ⟨hok, hresolves⟩ := typeContext_resolves (sorted_of_ofText hs)
  obtain ⟨c, hc⟩ := except_eq_ok_of_isOk (hok.mpr (by decide +kernel))
  obtain ⟨hmapped, base, hbase, hkept⟩ := hresolves c hc
  have hread : ∀ m ∈ s.types.mappings, ForeignType.read m.1 = .ok ⟨"f32"⟩ := by
    simp only [s, List.forall_mem_cons]
    exact ⟨eq_ok_of_toOption (by decide +kernel), eq_ok_of_toOption (by decide +kernel), by simp⟩
  have hlisted : ("f32", " CFloat ") ∈ s.types.mappings := by simp [s]
  obtain ⟨m, hm, -, hgreatest, hlookup⟩ := hmapped ⟨"f32"⟩ ⟨_, hlisted, hread _ hlisted⟩
  have hlast := hgreatest _ hlisted (hread _ hlisted)
  refine ⟨s, c, hs, hc, ?_, hkept _ ?_⟩
  · rcases List.mem_pair.mp hm with rfl | rfl
    · exact absurd hlast (by decide)
    · exact hlookup.trans (by decide +kernel)
  · obtain rfl : _ = base := Except.ok.inj hbase
    decide +kernel

end Settings

end Graft

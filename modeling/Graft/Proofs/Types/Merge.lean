import Mathlib.Data.String.Basic
import Graft.Proofs.Types.Lookup

/-!
# Merged contexts

The later of two contexts wins whenever it resolves a type at all, by a rule as well as singly. The
rules of the merged context see more than those of either part: they may build a type from what one
part says of the shape and the other of what it is built from.
-/

namespace Graft.TypeContext

/-- `c` comes from the constructors of contexts by any merges. -/
inductive Built : TypeContext → Prop where
  | empty : Built .empty
  | ofEntries (es : List (ForeignType × HostType)) : Built (.ofEntries es)
  | ofRule (rule : TypeRule) : Built (.ofRule rule)
  | extend {c later : TypeContext} : Built c → Built later → Built (c.extend later)

/-- Correspondences in the order of their spellings, each foreign type once. -/
def Sorted (es : List (ForeignType × HostType)) : Prop :=
  es.Pairwise fun e e' => e.1.spelling < e'.1.spelling

variable {a b c : TypeContext} {k foreign : ForeignType} {host : HostType}
  {es later : List (ForeignType × HostType)} {rule : TypeRule} {parts : List ForeignType}

/-! ## Single correspondences -/

theorem mem_insertEntry {e : ForeignType × HostType} (he : e ∈ insertEntry foreign host es) :
    e = (foreign, host) ∨ e ∈ es := by
  induction es with
  | nil => exact .inl (List.mem_singleton.mp he)
  | cons e' es ih =>
    unfold insertEntry at he
    split at he
    · rcases List.mem_cons.mp he with rfl | he
      · exact .inl rfl
      · exact .inr (List.mem_cons_of_mem _ he)
    split at he
    · exact List.mem_cons.mp he
    · rcases List.mem_cons.mp he with rfl | he
      · exact .inr List.mem_cons_self
      · exact (ih he).imp_right (List.mem_cons_of_mem _)

theorem sorted_insertEntry (foreign : ForeignType) (host : HostType) (hes : Sorted es) :
    Sorted (insertEntry foreign host es) := by
  induction es with
  | nil => exact List.pairwise_singleton _ _
  | cons e es ih =>
    obtain ⟨hfirst, hrest⟩ := List.pairwise_cons.mp hes
    unfold insertEntry
    split
    next hsame =>
      rw [hsame]
      exact List.pairwise_cons.mpr ⟨hfirst, hrest⟩
    split
    next hless =>
      refine List.pairwise_cons.mpr ⟨?_, hes⟩
      intro e' he'
      rcases List.mem_cons.mp he' with rfl | he'
      · exact hless
      · exact String.lt_trans hless (hfirst e' he')
    next hne hless =>
      refine List.pairwise_cons.mpr ⟨?_, ih hrest⟩
      intro e' he'
      rcases mem_insertEntry he' with rfl | he'
      · have hspelling : e.1.spelling ≠ foreign.spelling := by
          intro heq
          exact hne (congrArg ForeignType.mk heq.symm)
        exact lt_of_le_of_ne (not_lt.mp hless) hspelling
      · exact hfirst e' he'

theorem sorted_foldl (later : List (ForeignType × HostType)) (hes : Sorted es) :
    Sorted (later.foldl (fun es (f, h) => insertEntry f h es) es) := by
  induction later generalizing es with
  | nil => exact hes
  | cons e later ih => exact ih (sorted_insertEntry _ _ hes)

theorem entries_foldl_insert (es : List (ForeignType × HostType)) (c : TypeContext) :
    (es.foldl (fun c (f, h) => c.insert f h) c).entries =
      es.foldl (fun es (f, h) => insertEntry f h es) c.entries := by
  induction es generalizing c with
  | nil => rfl
  | cons e es ih => exact ih _

theorem Built.sorted (hc : c.Built) : Sorted c.entries := by
  induction hc with
  | empty => exact .nil
  | ofEntries es =>
    rw [TypeContext.ofEntries, entries_foldl_insert]
    exact sorted_foldl es .nil
  | ofRule rule => exact .nil
  | @extend c later _ _ ihc _ =>
    refine sorted_foldl later.entries ?_
    unfold kept
    split
    · exact ihc
    · exact ihc.filter _

theorem lookup_cons_ite (e : ForeignType × HostType) (es : List (ForeignType × HostType))
    (k : ForeignType) : (e :: es).lookup k = if k = e.1 then some e.2 else es.lookup k := by
  rw [List.lookup_cons]
  split
  next heq => rw [if_pos (eq_of_beq heq)]
  next hne => rw [if_neg (ne_of_beq_false hne)]

theorem lookup_insertEntry (foreign : ForeignType) (host : HostType)
    (es : List (ForeignType × HostType)) (k : ForeignType) :
    (insertEntry foreign host es).lookup k = if k = foreign then some host else es.lookup k := by
  induction es with
  | nil => exact lookup_cons_ite _ _ _
  | cons e es ih =>
    unfold insertEntry
    split
    next hsame =>
      rw [lookup_cons_ite, lookup_cons_ite, hsame]
      by_cases hk : k = e.1 <;> simp [hk]
    split
    · rw [lookup_cons_ite]
    next hne _ =>
      rw [lookup_cons_ite, lookup_cons_ite, ih]
      by_cases hk : k = e.1
      · rw [if_pos hk, if_pos hk, if_neg (fun heq => hne (heq.symm.trans hk))]
      · rw [if_neg hk, if_neg hk]

theorem lookup_eq_none_of_sorted {e : ForeignType × HostType} (hes : Sorted (e :: es)) :
    es.lookup e.1 = none := by
  rw [List.lookup_eq_none_iff]
  intro e' he'
  have hless := (List.pairwise_cons.mp hes).1 e' he'
  rw [bne_iff_ne]
  intro heq
  rw [heq] at hless
  exact String.lt_irrefl _ hless

theorem lookup_foldl_insertEntry (hlater : Sorted later) (es : List (ForeignType × HostType))
    (k : ForeignType) :
    (later.foldl (fun es (f, h) => insertEntry f h es) es).lookup k =
      (later.lookup k <|> es.lookup k) := by
  induction later generalizing es with
  | nil => rfl
  | cons e later ih =>
    rw [List.foldl_cons, ih (List.pairwise_cons.mp hlater).2, lookup_insertEntry, lookup_cons_ite]
    by_cases hk : k = e.1
    · rw [if_pos hk, if_pos hk, hk, lookup_eq_none_of_sorted hlater]
      rfl
    · rw [if_neg hk, if_neg hk]

theorem lookup_filter_key (p : ForeignType → Bool) (es : List (ForeignType × HostType))
    (k : ForeignType) :
    (es.filter fun e => p e.1).lookup k = if p k then es.lookup k else none := by
  induction es with
  | nil => simp
  | cons e es ih =>
    rw [List.filter_cons, lookup_cons_ite]
    by_cases hk : k = e.1
    · by_cases hp : p e.1
      · rw [if_pos hp, lookup_cons_ite, if_pos hk, hk, if_pos hp, if_pos rfl]
      · rw [if_neg hp, ih, hk, if_neg hp, if_neg hp]
    · by_cases hp : p e.1
      · rw [if_pos hp, lookup_cons_ite, if_neg hk, if_neg hk, ih]
      · rw [if_neg hp, if_neg hk, ih]

/-! ## What a merged context holds -/

theorem lookup_of_no_rules (hrules : c.rules = []) (k : ForeignType) :
    c.lookup k = c.listed? k := by
  have hnone : c.ruled? k = none := by
    rw [Option.eq_none_iff_forall_ne_some]
    rintro ⟨rule, parts⟩ hfound
    have hrule := (ruled?_eq_some_iff.mp hfound).1
    rw [hrules] at hrule
    cases hrule
  rw [lookup_eq, derived?_eq, hnone]
  cases c.listed? k <;> rfl

/-- A correspondence of the earlier context is kept where the later context resolves nothing. -/
theorem listed?_extend (hb : Sorted b.entries) (a : TypeContext) (k : ForeignType) :
    (a.extend b).listed? k = (b.listed? k <|> if b.contains k then none else a.listed? k) := by
  rw [listed?, extend, lookup_foldl_insertEntry hb]
  unfold kept
  split
  next hrules =>
    rw [contains, lookup_of_no_rules (List.isEmpty_iff.mp hrules)]
    show (b.listed? k <|> a.listed? k) = _
    cases b.listed? k <;> rfl
  next =>
    show (b.listed? k <|> (a.entries.filter fun e => !b.contains e.1).lookup k) = _
    rw [lookup_filter_key (fun f => !b.contains f)]
    cases b.contains k <;> rfl

theorem mem_rules_extend : rule ∈ (a.extend b).rules ↔ rule ∈ a.rules ∨ rule ∈ b.rules := by
  have hfold : ∀ later earlier : List TypeRule,
      rule ∈ later.foldl addRule earlier ↔ rule ∈ earlier ∨ rule ∈ later := by
    intro later
    induction later with
    | nil => simp
    | cons r later ih =>
      intro earlier
      rw [List.foldl_cons, ih]
      simp only [addRule, List.mem_append, List.mem_filter, List.mem_cons, decide_eq_true_eq]
      by_cases hr : rule = r <;> simp [hr]
  exact hfold b.rules a.rules

theorem ruled?_extend (a b : TypeContext) (k : ForeignType) :
    (a.extend b).ruled? k = (a.ruled? k <|> b.ruled? k) := by
  cases ha : a.ruled? k with
  | some found => exact ruled?_of_subset (fun _ hr => mem_rules_extend.mpr (.inl hr)) ha
  | none =>
    cases hb : b.ruled? k with
    | some found => exact ruled?_of_subset (fun _ hr => mem_rules_extend.mpr (.inr hr)) hb
    | none =>
      show (a.extend b).ruled? k = none
      rw [Option.eq_none_iff_forall_ne_some]
      rintro ⟨rule, parts⟩ hfound
      obtain ⟨hrule, hshape⟩ := ruled?_eq_some_iff.mp hfound
      rcases mem_rules_extend.mp hrule with hrule | hrule
      · rw [ruled?_eq_some_iff.mpr ⟨hrule, hshape⟩] at ha
        cases ha
      · rw [ruled?_eq_some_iff.mpr ⟨hrule, hshape⟩] at hb
        cases hb

/-! ## What a merged context resolves -/

/-- Whatever the later context resolves, at any depth, it resolves in the merged one. -/
theorem lookup_extend_later (hb : Sorted b.entries) (a : TypeContext)
    (h : b.lookup k = some host) : (a.extend b).lookup k = some host := by
  refine lookup_induction (motive := fun k host => (a.extend b).lookup k = some host) ?_ ?_ h
  · intro k host hlisted
    apply lookup_of_listed?
    rw [listed?_extend hb, hlisted]
    rfl
  · intro k rule parts hosts hlisted hrule hparts
    have hcontains : b.contains k := by
      rw [contains, lookup_of_unlisted hlisted,
        derived?_of_ruled? hrule (hparts.imp fun _ _ hpart => hpart.1)]
      rfl
    -- The earlier context may list the type, but then its correspondence has been dropped.
    have hunlisted : (a.extend b).listed? k = none := by
      rw [listed?_extend hb, hlisted, if_pos hcontains]
      rfl
    rw [lookup_of_unlisted hunlisted]
    exact derived?_of_ruled? (ruled?_of_subset (fun _ hr => mem_rules_extend.mpr (.inr hr)) hrule)
      (hparts.imp fun _ _ hpart => hpart.2)

/-- What the earlier context resolves stays resolved, even if to another host type. -/
theorem contains_extend_earlier (hb : Sorted b.entries) (h : a.lookup k = some host) :
    (a.extend b).contains k := by
  refine lookup_induction (motive := fun k _ => (a.extend b).contains k) ?_ ?_ h
  · intro k host hlisted
    -- The correspondence is kept, or what replaces it resolves the type as well.
    cases hlater : b.lookup k with
    | some found =>
      rw [contains, lookup_extend_later hb a hlater]
      rfl
    | none =>
      have hkept : (a.extend b).listed? k = (b.listed? k <|> some host) := by
        rw [listed?_extend hb, contains, hlater, hlisted]
        rfl
      rw [contains, lookup_eq, hkept]
      cases b.listed? k <;> rfl
  · intro k rule parts hosts _ hrule hparts
    apply contains_of_ruled?
      (ruled?_of_subset (fun _ hr => mem_rules_extend.mpr (.inl hr)) hrule)
    have hresolved : List.Forall₂ (fun part host => (a.extend b).contains part ∧
        a.lookup part = some host) parts hosts := hparts.imp fun _ _ hpart => hpart.symm
    exact ((List.forall₂_and_left _ _).mp hresolved).1

/-- The merged context resolves a type as the later context does; or else as the earlier context
lists it; or else by the rule of either for its shape, from what it resolves the parts to. -/
theorem lookup_extend (hb : Sorted b.entries) (a : TypeContext) (k : ForeignType) :
    (a.extend b).lookup k = (b.lookup k <|> a.listed? k <|> do
      let (rule, parts) ← a.ruled? k <|> b.ruled? k
      let hosts ← parts.mapM (a.extend b).lookup
      return rule.build hosts) := by
  cases hlater : b.lookup k with
  | some host => exact lookup_extend_later hb a hlater
  | none =>
    have hunlisted : b.listed? k = none := by
      rw [lookup_eq] at hlater
      cases hlisted : b.listed? k with
      | none => rfl
      | some host =>
        rw [hlisted] at hlater
        cases hlater
    rw [lookup_eq, derived?_eq, ruled?_extend, listed?_extend hb, hunlisted, contains, hlater]
    rfl

/-- **Merging overrides.** For a later context from the constructors and any merges: the merged
context resolves a type as the later one does, exactly or by rules at any depth; a correspondence
of the earlier one that the later does not resolve stays; what is left is built by the rule of
either for its shape from what the merged context resolves its parts to; and nothing that either
resolved is lost. -/
theorem extend_overrides (hb : b.Built) (a : TypeContext) (k : ForeignType) :
    ((a.extend b).lookup k = (b.lookup k <|> a.listed? k <|> do
      let (rule, parts) ← a.ruled? k <|> b.ruled? k
      let hosts ← parts.mapM (a.extend b).lookup
      return rule.build hosts)) ∧
    (∀ host, b.lookup k = some host → (a.extend b).lookup k = some host) ∧
    (∀ host, b.lookup k = none → a.listed? k = some host →
      (a.extend b).lookup k = some host) ∧
    (a.contains k ∨ b.contains k → (a.extend b).contains k) := by
  have hmerged := lookup_extend hb.sorted a k
  refine ⟨hmerged, ?_, ?_, ?_⟩
  · intro host hlater
    exact lookup_extend_later hb.sorted a hlater
  · intro host hlater hlisted
    rw [hmerged, hlater, hlisted]
    rfl
  · rintro (hearlier | hlater)
    · obtain ⟨host, hhost⟩ := Option.isSome_iff_exists.mp hearlier
      exact contains_extend_earlier hb.sorted hhost
    · obtain ⟨host, hhost⟩ := Option.isSome_iff_exists.mp hlater
      rw [contains, lookup_extend_later hb.sorted a hhost]
      rfl

theorem extend_overrides_pointer :
    let a := ofEntries [(⟨"*const i32"⟩, ⟨"Handle"⟩)]
    let b := (ofRule .pointers).extend (ofEntries [(⟨"i32"⟩, ⟨"Int32"⟩)])
    b.Built ∧ b.lookup ⟨"*const i32"⟩ = some ⟨"Ptr Int32"⟩ ∧
      (a.extend b).lookup ⟨"*const i32"⟩ = some ⟨"Ptr Int32"⟩ := by
  intro a b
  have hb : b.Built := .extend (.ofRule _) (.ofEntries _)
  have hrule : b.ruled? ⟨"*const i32"⟩ = some (.pointers, [⟨"i32"⟩]) := by decide +kernel
  have hpart : b.lookup ⟨"i32"⟩ = some ⟨"Int32"⟩ := by decide +kernel
  have hlater : b.lookup ⟨"*const i32"⟩ = some ⟨"Ptr Int32"⟩ := by
    rw [lookup_of_unlisted (by decide +kernel), derived?_of_ruled? hrule (.cons hpart .nil)]
    decide +kernel
  exact ⟨hb, hlater, (extend_overrides hb a _).2.1 _ hlater⟩

end Graft.TypeContext

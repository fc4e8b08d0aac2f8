import Mathlib.Data.List.Basic
import Mathlib.Data.List.Infix
import Mathlib.Data.List.Nodup
import Graft.Proofs.Toolchain.Link

/-!
# Frameworks in merged link needs

A system library may be a framework, which takes two words: a flag and the name behind it. As a
merge looks at words and not at flags, the flag for frameworks is left once, before the first new
word behind it. So no name loses its flag only if there is a single framework to link.
-/

namespace Graft.LinkSpec

variable {specs : List LinkSpec} {flags words : List String} {name other : String}

/-- The flag before the name of a framework. -/
def frameworkFlag : String := "-framework"

/-- A name stands right behind a flag for frameworks. -/
def NamesFramework (flags : List String) (name : String) : Prop := [frameworkFlag, name] <:+: flags

instance : Decidable (NamesFramework flags name) := inferInstanceAs (Decidable (_ <:+: _))

/-- Words in which the flag for frameworks stands only before a name. -/
inductive Paired : List String → Prop where
  | none : Paired []
  | word {w : String} {ws : List String} : w ≠ frameworkFlag → Paired ws → Paired (w :: ws)
  | framework {name : String} {ws : List String} : name ≠ frameworkFlag → Paired ws →
    Paired (frameworkFlag :: name :: ws)

namespace Paired

theorem append {more : List String} (h : Paired words) (hmore : Paired more) :
    Paired (words ++ more) := by
  induction h with
  | none => exact hmore
  | word hw _ ih => exact .word hw ih
  | framework hname _ ih => exact .framework hname ih

theorem flatMap (h : ∀ s ∈ specs, Paired s.native) : Paired (specs.flatMap (·.native)) := by
  induction specs with
  | nil => exact .none
  | cons s specs ih =>
    obtain ⟨hs, hspecs⟩ := List.forall_mem_cons.mp h
    exact hs.append (ih hspecs)

/-- Behind each flag stands a name. -/
theorem next {before rest : List String} (h : Paired words)
    (hwords : words = before ++ frameworkFlag :: rest) :
    ∃ name after, rest = name :: after ∧ name ≠ frameworkFlag := by
  induction h generalizing before with
  | none => simp at hwords
  | word hw _ ih =>
    cases before with
    | nil => exact absurd (List.cons.inj hwords).1 hw
    | cons b before => exact ih (List.cons.inj hwords).2
  | @framework name ws hname _ ih =>
    match before with
    | [] => exact ⟨name, ws, ((List.cons.inj hwords).2).symm, hname⟩
    | [b] => exact absurd (List.cons.inj (List.cons.inj hwords).2).1 hname
    | b :: c :: before => exact ih (List.cons.inj (List.cons.inj hwords).2).2

end Paired

/-! ## Names in lists that are put together -/

theorem namesFramework_iff : NamesFramework flags name ↔
    ∃ before after, flags = before ++ frameworkFlag :: name :: after := by
  constructor
  · rintro ⟨before, after, rfl⟩
    exact ⟨before, after, by simp⟩
  · rintro ⟨before, after, rfl⟩
    exact ⟨before, after, by simp⟩

/-- A flag at the end of paired words has its name there, not in what follows. -/
theorem namesFramework_append {more : List String} (h : Paired words) :
    NamesFramework (words ++ more) name ↔ NamesFramework words name ∨ NamesFramework more name := by
  constructor
  · intro hname
    obtain ⟨before, after, heq⟩ := namesFramework_iff.mp hname
    rcases List.append_eq_append_iff.mp heq with ⟨as, -, hmore⟩ | ⟨bs, hwords, hrest⟩
    · exact .inr (namesFramework_iff.mpr ⟨as, after, hmore⟩)
    · cases bs with
      | nil => exact .inr (namesFramework_iff.mpr ⟨[], after, hrest.symm⟩)
      | cons b bs =>
        obtain ⟨rfl, htail⟩ := List.cons.inj hrest
        obtain ⟨name', after', rfl, -⟩ := h.next hwords
        rw [(List.cons.inj htail).1]
        exact .inl (namesFramework_iff.mpr ⟨before, after', hwords⟩)
  · rintro (hname | hname)
    · exact hname.trans (List.prefix_append words more).isInfix
    · exact hname.trans (List.suffix_append words more).isInfix

theorem namesFramework_flatMap (h : ∀ s ∈ specs, Paired s.native) :
    NamesFramework (specs.flatMap (·.native)) name ↔ ∃ s ∈ specs, NamesFramework s.native name := by
  induction specs with
  | nil => simp [NamesFramework]
  | cons s specs ih =>
    obtain ⟨hs, hspecs⟩ := List.forall_mem_cons.mp h
    rw [List.flatMap_cons, namesFramework_append hs, ih hspecs, List.exists_mem_cons_iff]

/-- Search paths and libraries are no flags for frameworks. -/
theorem exists_linkerFlags (s : LinkSpec) :
    ∃ front, s.linkerFlags = front ++ s.native ∧ frameworkFlag ∉ front := by
  refine ⟨_, rfl, fun hmem => ?_⟩
  rcases List.mem_append.mp hmem with hmem | hmem
  all_goals
    obtain ⟨x, -, hx⟩ := List.mem_map.mp hmem
    have hsecond := congrArg (fun t : String => t.toList[1]?) hx
    simp [frameworkFlag] at hsecond

theorem namesFramework_linkerFlags (s : LinkSpec) :
    NamesFramework s.linkerFlags name ↔ NamesFramework s.native name := by
  obtain ⟨front, hflags, hfront⟩ := exists_linkerFlags s
  rw [hflags]
  constructor
  · intro hname
    obtain ⟨before, after, heq⟩ := namesFramework_iff.mp hname
    rcases List.append_eq_append_iff.mp heq with ⟨as, -, hnative⟩ | ⟨bs, hfront', hrest⟩
    · exact namesFramework_iff.mpr ⟨as, after, hnative⟩
    · cases bs with
      | nil => exact namesFramework_iff.mpr ⟨[], after, hrest.symm⟩
      | cons b bs =>
        rw [hfront', ← (List.cons.inj hrest).1] at hfront
        exact absurd (by simp) hfront
  · exact fun hname => hname.trans (List.suffix_append _ _).isInfix

/-! ## What a merge leaves -/

/-- In words that differ from one another a flag has one word behind it. -/
theorem head_of_namesFramework {before rest : List String} (hnodup : flags.Nodup)
    (hflags : flags = before ++ frameworkFlag :: rest) (h : NamesFramework flags name) :
    rest.head? = some name := by
  obtain ⟨before', after, heq⟩ := namesFramework_iff.mp h
  rw [hflags, List.nodup_middle, List.nodup_cons, List.mem_append, not_or] at hnodup
  obtain ⟨⟨hbefore, hrest⟩, -⟩ := hnodup
  have hsame := (List.append_cons_inj_of_notMem hbefore hrest).mp (hflags.symm.trans heq)
  rw [hsame.2.2, List.head?_cons]

theorem namesFramework_unique (hnodup : flags.Nodup) (h : NamesFramework flags name)
    (h' : NamesFramework flags other) : name = other := by
  obtain ⟨before, after, heq⟩ := namesFramework_iff.mp h
  exact Option.some.inj (head_of_namesFramework hnodup heq h')

theorem native_foldl (specs : List LinkSpec) : (specs.foldl merge empty).native =
    addNew (fun x y => x = y) [] (specs.flatMap (·.native)) := by
  induction specs using List.reverseRecOn with
  | nil => rfl
  | append_singleton specs s ih =>
    rw [List.foldl_append, List.flatMap_append, List.flatMap_singleton, addNew_append, ← ih]
    rfl

theorem mem_addNew (known more : List String) (w : String) :
    w ∈ addNew (fun x y => x = y) known more ↔ w ∈ known ∨ w ∈ more := by
  simpa using mem_map_addNew same_flag (x := w)

theorem addNew_of_subset {known more : List String} (h : more ⊆ known) :
    addNew (fun x y => x = y) known more = known := by
  induction more with
  | nil => rfl
  | cons w more ih =>
    obtain ⟨hw, hmore⟩ := List.cons_subset.mp h
    rw [addNew, List.foldl_cons, if_pos (by simpa using hw)]
    exact ih hmore

theorem addNew_cons_of_notMem {known : List String} {w : String} (h : w ∉ known)
    (more : List String) :
    addNew (fun x y => x = y) known (w :: more) =
      addNew (fun x y => x = y) (known ++ [w]) more := by
  rw [addNew, List.foldl_cons, if_neg (by simpa using h)]
  rfl

/-- Words that are there already stand nowhere behind the first flag. -/
theorem addNew_behind_flag {before skipped : List String} (hbefore : frameworkFlag ∉ before)
    (hskipped : ∀ w ∈ skipped, w = frameworkFlag ∨ w ∈ before) (more : List String) :
    addNew (fun x y => x = y) [] (before ++ frameworkFlag :: (skipped ++ more)) =
      addNew (fun x y => x = y)
        (addNew (fun x y => x = y) [] before ++ [frameworkFlag]) more := by
  have hnew : frameworkFlag ∉ addNew (fun x y => x = y) [] before := by
    rw [mem_addNew]
    simpa using hbefore
  rw [addNew_append, addNew_cons_of_notMem hnew, addNew_append]
  refine congrArg (addNew _ · more) (addNew_of_subset fun w hw => ?_)
  rw [List.mem_append, mem_addNew, List.mem_singleton]
  exact (hskipped w hw).symm.imp_left Or.inr

theorem nodup_native (specs : List LinkSpec) : (specs.foldl merge empty).native.Nodup :=
  (combines_foldl specs).native.pairwise

/-- The first new word behind the first flag. -/
structure FirstBehindFlag (words : List String) (name : String)
    (before skipped after : List String) : Prop where
  words_eq : words = before ++ frameworkFlag :: (skipped ++ name :: after)
  flag_notMem : frameworkFlag ∉ before
  skipped_known : ∀ w ∈ skipped, w = frameworkFlag ∨ w ∈ before
  ne_flag : name ≠ frameworkFlag
  notMem : name ∉ before

theorem FirstBehindFlag.namesFramework {before skipped after : List String}
    (h : FirstBehindFlag (specs.flatMap (·.native)) name before skipped after) :
    NamesFramework (specs.foldl merge empty).native name := by
  have hfresh : name ∉ addNew (fun x y => x = y) [] before ++ [frameworkFlag] := by
    rw [List.mem_append, mem_addNew, List.mem_singleton]
    simpa using ⟨h.notMem, h.ne_flag⟩
  rw [native_foldl, h.words_eq, addNew_behind_flag h.flag_notMem h.skipped_known,
    addNew_cons_of_notMem hfresh]
  exact (List.suffix_append _ [frameworkFlag, name]).isInfix.trans
    (by simpa using (prefix_addNew _ after).isInfix)

/-- A name has its flag behind a merge just if it is the first new word behind the first flag. -/
theorem namesFramework_merged : NamesFramework (specs.foldl merge empty).native name ↔
    ∃ before skipped after,
      FirstBehindFlag (specs.flatMap (·.native)) name before skipped after := by
  constructor
  · intro h
    have hflag : frameworkFlag ∈ specs.flatMap (·.native) :=
      (combines_foldl specs).native.subset (h.subset List.mem_cons_self)
    obtain ⟨before, rest, hwords, hbefore⟩ := List.eq_append_cons_of_mem hflag
    let isNew (w : String) : Bool := w ≠ frameworkFlag ∧ w ∉ before
    have hknown : ∀ w, ¬ isNew w → w = frameworkFlag ∨ w ∈ before := by
      intro w hw
      simpa [isNew, Classical.or_iff_not_imp_left] using hw
    cases hfound : rest.find? isNew with
    | none =>
      -- Nothing new follows: the flag stands at the end of all that is kept.
      have hskipped : ∀ w ∈ rest, w = frameworkFlag ∨ w ∈ before :=
        fun w hw => hknown w (List.find?_eq_none.mp hfound w hw)
      have hnative := native_foldl specs
      rw [hwords, ← List.append_nil rest, addNew_behind_flag hbefore hskipped] at hnative
      exact absurd (head_of_namesFramework (nodup_native specs) hnative h) (by simp)
    | some w =>
      obtain ⟨hw, skipped, after, hrest, hskipped⟩ := List.find?_eq_some_iff_append.mp hfound
      obtain ⟨hflag, hnew⟩ : w ≠ frameworkFlag ∧ w ∉ before := by simpa [isNew] using hw
      rw [hrest] at hwords
      have hfirst : FirstBehindFlag (specs.flatMap (·.native)) w before skipped after :=
        ⟨hwords, hbefore, fun w hw => hknown w (by simpa using hskipped w hw), hflag, hnew⟩
      obtain rfl : name = w :=
        namesFramework_unique (nodup_native specs) h hfirst.namesFramework
      exact ⟨before, skipped, after, hfirst⟩
  · rintro ⟨before, skipped, after, hfirst⟩
    exact hfirst.namesFramework

/-! ## Which frameworks stay linked -/

theorem eq_of_first_flag {before before' rest rest' : List String}
    (hbefore : frameworkFlag ∉ before) (hbefore' : frameworkFlag ∉ before')
    (h : before ++ frameworkFlag :: rest = before' ++ frameworkFlag :: rest') :
    before = before' ∧ rest = rest' := by
  induction before generalizing before' with
  | nil =>
    cases before' with
    | nil => exact ⟨rfl, (List.cons.inj h).2⟩
    | cons b before' => exact absurd ((List.cons.inj h).1 ▸ List.mem_cons_self) hbefore'
  | cons b before ih =>
    cases before' with
    | nil => exact absurd ((List.cons.inj h).1 ▸ List.mem_cons_self) hbefore
    | cons b' before' =>
      obtain ⟨rfl, htail⟩ := List.cons.inj h
      obtain ⟨rfl, hrest⟩ := ih (fun hmem => hbefore (List.mem_cons_of_mem b hmem))
        (fun hmem => hbefore' (List.mem_cons_of_mem b hmem)) htail
      exact ⟨rfl, hrest⟩

/-- **A single framework stays linked.** If in all lists of flags the flag for frameworks stands
only before a name, then behind a merge each of the names still has its flag before it just if there
is no second framework, and the name of the only one does not stand before its first flag. -/
theorem frameworks_kept_iff (h : ∀ s ∈ specs, Paired s.native) :
    (∀ s ∈ specs, ∀ name, NamesFramework s.native name →
      NamesFramework (specs.foldl merge empty).linkerFlags name) ↔
    ∀ before name after, specs.flatMap (·.native) = before ++ frameworkFlag :: name :: after →
      frameworkFlag ∉ before →
      name ∉ before ∧ ∀ s ∈ specs, ∀ other, NamesFramework s.native other → other = name := by
  simp only [namesFramework_linkerFlags]
  constructor
  · intro hkept before name after hwords hbefore
    have hnamed : NamesFramework (specs.flatMap (·.native)) name :=
      namesFramework_iff.mpr ⟨before, after, hwords⟩
    obtain ⟨s, hs, hname⟩ := (namesFramework_flatMap h).mp hnamed
    have hmerged := hkept s hs name hname
    obtain ⟨before', skipped, after', hfirst⟩ := namesFramework_merged.mp hmerged
    obtain ⟨rfl, -⟩ :=
      eq_of_first_flag hbefore hfirst.flag_notMem (hwords.symm.trans hfirst.words_eq)
    exact ⟨hfirst.notMem, fun t ht other hother =>
      namesFramework_unique (nodup_native specs) (hkept t ht other hother) hmerged⟩
  · intro hsingle s hs name hname
    have hnamed := (namesFramework_flatMap h).mpr ⟨s, hs, hname⟩
    obtain ⟨before, rest, hwords, hbefore⟩ :=
      List.eq_append_cons_of_mem (hnamed.subset List.mem_cons_self)
    obtain ⟨first, after, rfl, hflag⟩ := (Paired.flatMap h).next hwords
    obtain ⟨hnew, hother⟩ := hsingle before first after hwords hbefore
    rw [hother s hs name hname]
    exact namesFramework_merged.mpr ⟨before, [], after, hwords, hbefore, by simp, hflag, hnew⟩

/-- Three units that link one framework: its flag is left once, before its name. -/
theorem frameworks_kept_security :
    let a : LinkSpec := ⟨[], [], ["-lSystem", "-framework", "Security"]⟩
    let b : LinkSpec := ⟨[], [], ["-framework", "Security", "-lc"]⟩
    (∀ s ∈ [a, b, b], Paired s.native) ∧
      (∀ s ∈ [a, b, b], ∀ name, NamesFramework s.native name →
        NamesFramework ([a, b, b].foldl merge empty).linkerFlags name) ∧
      ([a, b, b].foldl merge empty).linkerFlags =
        ["-lSystem", "-framework", "Security", "-lc"] := by
  intro a b
  have ha : Paired a.native := .word (by decide) (.framework (by decide) .none)
  have hb : Paired b.native := .framework (by decide) (.word (by decide) .none)
  have hpaired : ∀ s ∈ [a, b, b], Paired s.native := by simp [ha, hb]
  have hnames : ∀ s ∈ [a, b, b], ∀ other, NamesFramework s.native other → other = "Security" := by
    have hname : ∀ s ∈ [a, b, b], s.native.Nodup ∧ NamesFramework s.native "Security" := by decide
    exact fun s hs other hother => namesFramework_unique (hname s hs).1 hother (hname s hs).2
  refine ⟨hpaired, (frameworks_kept_iff hpaired).mpr ?_, by decide⟩
  intro before name after hwords hbefore
  have hfirst : frameworkFlag ∉ ["-lSystem"] := by decide
  obtain ⟨rfl, hrest⟩ := eq_of_first_flag hfirst hbefore hwords
  obtain ⟨rfl, -⟩ := List.cons.inj hrest
  exact ⟨by decide, hnames⟩

/-- What a compiler notes for a library that needs two frameworks: the second flag is dropped as a
repetition, and the second name is left as a word of its own. -/
theorem frameworks_lose_flag :
    let note := "note: native-static-libs: -framework Security -framework CoreFoundation -lSystem\n"
    let s : LinkSpec := ⟨[], [], nativeFlags note⟩
    Paired s.native ∧ NamesFramework s.native "CoreFoundation" ∧
      ¬ NamesFramework ([s].foldl merge empty).linkerFlags "CoreFoundation" := by
  intro note s
  have hnative : s.native =
      ["-framework", "Security", "-framework", "CoreFoundation", "-lSystem"] := by
    decide +kernel
  have hpaired : Paired s.native := by
    rw [hnative]
    exact .framework (by decide) (.framework (by decide) (.word (by decide) .none))
  exact ⟨hpaired, by decide +kernel, by decide +kernel⟩

end Graft.LinkSpec

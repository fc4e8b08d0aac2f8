import Graft.Proofs.Result
import Graft.Proofs.Toml.Section
import Graft.Settings.Project

/-!
# Keys that a text does not set

Settings are known by the values of their keys. A section of a text brings values for all keys of
that section: those that it sets, and blank ones for the others. A blank value is the standard one,
but for the patterns of excluded paths.
-/

namespace Graft.Settings

/-! ## Keys -/

/-- What a text of settings may set. -/
inductive Key where
  | symbolName | edition
  | contexts | mappings
  | directory | crates | manifest
  | compiler | optLevel | crateType | compile | externs
  | included | excluded
  deriving DecidableEq, Repr

namespace Key

/-- What the section in which a key stands is called. -/
def sectionName : Key → String
  | symbolName | edition => "unit"
  | contexts | mappings => "types"
  | directory | crates | manifest => "output"
  | compiler | optLevel | crateType | compile | externs => "toolchain"
  | included | excluded => "paths"

/-- The name of a key in its section. -/
def name : Key → String
  | symbolName => "symbol_prefix"
  | edition => "edition"
  | contexts => "contexts"
  | mappings => "mappings"
  | directory => "dir"
  | crates => "extern_crates"
  | manifest => "manifest"
  | compiler => "rustc"
  | optLevel => "opt_level"
  | crateType => "crate_type"
  | compile => "compile"
  | externs => "externs"
  | included => "include"
  | excluded => "exclude"

/-- The place of a key's value in a section that is given as an array. -/
def position : Key → Nat
  | symbolName | contexts | directory | compiler | included => 0
  | edition | mappings | crates | optLevel | excluded => 1
  | manifest | crateType => 2
  | compile => 3
  | externs => 4

/-- What kind of value a key has. -/
def Value : Key → Type
  | symbolName | optLevel | crateType => String
  | edition => Edition
  | contexts | crates | included | excluded => List String
  | mappings | externs => KeyedTexts
  | directory | compiler => FilePath
  | manifest => Option FilePath
  | compile => Bool

end Key

/-- The value of a key. -/
def value (s : Settings) : (k : Key) → k.Value
  | .symbolName => s.unit.symbolName
  | .edition => s.unit.edition
  | .contexts => s.types.contexts
  | .mappings => s.types.mappings
  | .directory => s.output.directory
  | .crates => s.output.crates
  | .manifest => s.output.manifest
  | .compiler => s.toolchain.compiler
  | .optLevel => s.toolchain.optLevel
  | .crateType => s.toolchain.crateType
  | .compile => s.toolchain.compile
  | .externs => s.toolchain.externs
  | .included => s.paths.included
  | .excluded => s.paths.excluded

/-- Settings are known by the values of their keys. -/
theorem ext_value {s t : Settings} (h : ∀ k, s.value k = t.value k) : s = t := by
  obtain ⟨⟨_, _⟩, ⟨_, _⟩, ⟨_, _, _⟩, ⟨_, _, _, _, _⟩, ⟨_, _⟩⟩ := s
  obtain ⟨⟨_, _⟩, ⟨_, _⟩, ⟨_, _, _⟩, ⟨_, _, _, _, _⟩, ⟨_, _⟩⟩ := t
  simp only [Settings.mk.injEq, UnitSettings.mk.injEq, TypeSettings.mk.injEq,
    OutputSettings.mk.injEq, ToolchainSettings.mk.injEq, PathSettings.mk.injEq]
  exact ⟨⟨h .symbolName, h .edition⟩, ⟨h .contexts, h .mappings⟩,
    ⟨h .directory, h .crates, h .manifest⟩,
    ⟨h .compiler, h .optLevel, h .crateType, h .compile, h .externs⟩, ⟨h .included, h .excluded⟩⟩

/-- The values of keys in sections that do not set them. -/
def blank : Settings := { standard with paths := .blank }

theorem value_blank {k : Key} (hk : k ≠ .excluded) : blank.value k = standard.value k := by
  cases k
  case excluded => exact absurd rfl hk
  all_goals rfl

/-- Whether a section, given as a table or as an array, sets a key. -/
def sectionSets (v : Toml) (k : Key) : Bool :=
  match v with
  | .table _ es => (es.lookup k.name).isSome
  | .array ts | .tables ts => k.position < ts.length
  | _ => false

/-- Whether a text sets a key. -/
def sets (es : Toml.Entries) (k : Key) : Bool :=
  es.any fun (section', v) => section' = k.sectionName && sectionSets v k

/-! ## What a section brings -/

theorem toSection_of_unset {α : Type} {motive : α → Prop} {title : String} {keys : List String}
    {field : α → String → Toml → Toml.Decoded α} {start a : α} {v : Toml} {k : Key}
    (hkeys : k.name ∉ keys.take k.position) (hstart : motive start)
    (hfield : ∀ a key v a', key ≠ k.name → motive a → field a key v = .ok a' → motive a')
    (hunset : sectionSets v k = false) (h : v.toSection title keys field start = .ok a) :
    motive a := by
  -- An array has values for the first keys only, and `k` is none of them.
  have hzip : ∀ ts : List Toml, ts.length ≤ k.position → ∀ e ∈ keys.zip ts, e.1 ≠ k.name := by
    intro ts hlength e he hname
    obtain ⟨i, hi, rfl⟩ := List.getElem_of_mem he
    rw [List.length_zip] at hi
    have hmem : keys[i] ∈ keys.take k.position :=
      List.mem_take_iff_getElem.mpr ⟨i, by omega, rfl⟩
    rw [List.getElem_zip] at hname
    exact hkeys (hname ▸ hmem)
  unfold Toml.toSection at h
  split at h
  next es =>
    have hnone : es.lookup k.name = none := by simpa [sectionSets] using hunset
    refine foldlM_keeps_of_mem hstart (fun a e a' he => hfield a e.1 e.2 a' ?_) h
    exact (bne_iff_ne.mp (List.lookup_eq_none_iff.mp hnone e he)).symm
  next ts =>
    refine foldlM_keeps_of_mem hstart (fun a e a' he => hfield a e.1 e.2 a' ?_) h
    exact hzip ts (by simpa [sectionSets] using hunset) e he
  next ts =>
    refine foldlM_keeps_of_mem hstart (fun a e a' he => hfield a e.1 e.2 a' ?_) h
    exact hzip ts (by simpa [sectionSets] using hunset) e he
  · cases h

/-! ## Sections -/

/-- The sections of a text of settings. -/
inductive Section where
  | unit | types | output | toolchain | paths
  deriving DecidableEq, Repr

/-- The section in which a key stands. -/
def Key.section : Key → Section
  | symbolName | edition => .unit
  | contexts | mappings => .types
  | directory | crates | manifest => .output
  | compiler | optLevel | crateType | compile | externs => .toolchain
  | included | excluded => .paths

namespace Section

def name : Section → String
  | unit => "unit"
  | types => "types"
  | output => "output"
  | toolchain => "toolchain"
  | paths => "paths"

/-- What a section has the values of. -/
abbrev Values : Section → Type
  | unit => UnitSettings
  | types => TypeSettings
  | output => OutputSettings
  | toolchain => ToolchainSettings
  | paths => PathSettings

/-- The settings with other values in a section. -/
def put (s : Settings) : (c : Section) → c.Values → Settings
  | unit, a => { s with unit := a }
  | types, a => { s with types := a }
  | output, a => { s with output := a }
  | toolchain, a => { s with toolchain := a }
  | paths, a => { s with paths := a }

/-- Reads a value of a section. -/
def field : (c : Section) → c.Values → String → Toml → Toml.Decoded c.Values
  | unit => UnitSettings.field
  | types => TypeSettings.field
  | output => OutputSettings.field
  | toolchain => ToolchainSettings.field
  | paths => PathSettings.field

/-- What the type of a section's values is called in errors. -/
def title : Section → String
  | unit => "UnitConfig"
  | types => "TypesConfig"
  | output => "OutputConfig"
  | toolchain => "ToolchainConfig"
  | paths => "PathsConfig"

/-- The names of a section's values, in the order of an array. -/
def keys : Section → List String
  | unit => ["symbol_prefix", "edition"]
  | types => ["contexts", "mappings"]
  | output => ["dir", "extern_crates", "manifest"]
  | toolchain => ["rustc", "opt_level", "crate_type", "compile", "externs"]
  | paths => ["include", "exclude"]

def blank : (c : Section) → c.Values
  | unit => .standard
  | types => .standard
  | output => .standard
  | toolchain => .standard
  | paths => .blank

/-- Reads the values of a section. -/
def read (c : Section) (v : Toml) : Toml.Decoded c.Values :=
  v.toSection c.title c.keys c.field c.blank

variable {s : Settings} {c : Section} {k : Key} {v : Toml}

theorem name_section (k : Key) : k.section.name = k.sectionName := by cases k <;> rfl

theorem name_injective {c d : Section} (h : c.name = d.name) : c = d := by
  cases c <;> cases d <;> first | rfl | exact absurd h (by decide)

theorem name_notMem_keys (k : Key) : k.name ∉ k.section.keys.take k.position := by
  cases k <;> decide

theorem value_put_of_ne (hne : c ≠ k.section) (a : c.Values) : (c.put s a).value k = s.value k := by
  cases c <;> cases k <;> first | rfl | exact absurd rfl hne

theorem value_put_congr (s t : Settings) (hsection : k.section = c) (a : c.Values) :
    (c.put s a).value k = (c.put t a).value k := by
  subst hsection
  cases k <;> rfl

theorem value_put_blank (s : Settings) (k : Key) :
    (k.section.put s k.section.blank).value k = Settings.blank.value k := by
  cases k <;> rfl

/-- A field changes the value of its key only. -/
theorem value_field {a a' : c.Values} {key : String} (hkey : key ≠ k.name)
    (h : c.field a key v = .ok a') : (c.put s a').value k = (c.put s a).value k := by
  cases c <;>
    simp only [field, UnitSettings.field, TypeSettings.field, OutputSettings.field,
      ToolchainSettings.field, PathSettings.field] at h <;>
    split at h <;>
    first
    | rw [← Except.ok.inj h]
    | obtain ⟨x, -, h⟩ := except_bind_eq_ok h
      rw [← Except.ok.inj h]
      cases k <;> first | rfl | exact absurd rfl hkey

/-- A section gives its keys that it does not set their blank values. -/
theorem value_read {a : k.section.Values} (s : Settings) (hunset : sectionSets v k = false)
    (h : k.section.read v = .ok a) : (k.section.put s a).value k = Settings.blank.value k :=
  toSection_of_unset (motive := fun a => (k.section.put s a).value k = Settings.blank.value k)
    (name_notMem_keys k) (value_put_blank s k)
    (fun _ _ _ _ hkey ha h => (value_field hkey h).trans ha) hunset h

end Section

variable {s s' t : Settings} {v : Toml} {k : Key} {es : Toml.Entries}

/-- A section is read under its name. -/
theorem field_name (s : Settings) (c : Section) (v : Toml) :
    s.field c.name v = (c.read v).bind fun a => .ok (c.put s a) := by
  cases c <;> rfl

/-- Under other names nothing is read. -/
theorem field_of_forall_ne {section' : String} (s : Settings) (v : Toml)
    (hne : ∀ c : Section, section' ≠ c.name) : s.field section' v = .ok s := by
  unfold field
  split
  case h_6 => rfl
  · exact absurd rfl (hne .unit)
  · exact absurd rfl (hne .types)
  · exact absurd rfl (hne .output)
  · exact absurd rfl (hne .toolchain)
  · exact absurd rfl (hne .paths)

theorem field_eq_ok {section' : String} (h : s.field section' v = .ok s') :
    (s' = s ∧ ∀ c : Section, section' ≠ c.name) ∨
      ∃ (c : Section) (a : c.Values), section' = c.name ∧ c.read v = .ok a ∧ c.put s a = s' := by
  by_cases hname : ∃ c : Section, section' = c.name
  · obtain ⟨c, rfl⟩ := hname
    rw [field_name] at h
    obtain ⟨a, ha, h⟩ := except_bind_eq_ok h
    exact .inr ⟨c, a, rfl, ha, Except.ok.inj h⟩
  · rw [not_exists] at hname
    rw [field_of_forall_ne s v hname] at h
    exact .inl ⟨(Except.ok.inj h).symm, hname⟩

/-- A section leaves the keys of the other sections. -/
theorem value_field_of_ne {section' : String} (hne : section' ≠ k.sectionName)
    (h : s.field section' v = .ok s') : s'.value k = s.value k := by
  obtain ⟨rfl, -⟩ | ⟨c, a, rfl, -, rfl⟩ := field_eq_ok h
  · rfl
  · rw [← Section.name_section] at hne
    exact Section.value_put_of_ne (ne_of_apply_ne Section.name hne) a

/-- A section gives its keys that it does not set their blank values. -/
theorem value_field_of_unset (hunset : sectionSets v k = false)
    (h : s.field k.sectionName v = .ok s') : s'.value k = blank.value k := by
  rw [← Section.name_section, field_name] at h
  obtain ⟨a, ha, h⟩ := except_bind_eq_ok h
  rw [← Except.ok.inj h]
  exact Section.value_read s hunset ha

/-! ## Whole settings -/

/-- A key that no section sets is blank if its section is there, and stays as it is if not. -/
theorem value_foldlM_field (hunset : sets es k = false)
    (h : es.foldlM (fun s e => field s e.1 e.2) s = .ok s') :
    s'.value k = if (es.lookup k.sectionName).isSome then blank.value k else s.value k := by
  induction es generalizing s with
  | nil => rw [← Except.ok.inj h]; rfl
  | cons e es ih =>
    obtain ⟨section', v⟩ := e
    rw [List.foldlM_cons] at h
    obtain ⟨s₁, hs₁, h⟩ := except_bind_eq_ok h
    rw [sets, List.any_cons, Bool.or_eq_false_iff] at hunset
    rw [ih hunset.2 h, List.lookup_cons]
    by_cases hsection : section' = k.sectionName
    · subst hsection
      have hv : sectionSets v k = false := by simpa using hunset.1
      rw [value_field_of_unset hv hs₁, ite_self, beq_self_eq_true]
      rfl
    · rw [value_field_of_ne hsection hs₁, beq_false_of_ne (Ne.symm hsection)]

theorem value_foldlM_of_absent (habsent : es.lookup k.sectionName = none)
    (h : es.foldlM (fun s e => field s e.1 e.2) s = .ok s') : s'.value k = s.value k := by
  have hunset : sets es k = false := by
    rw [sets, List.any_eq_false]
    intro e he
    have hne := bne_iff_ne.mp (List.lookup_eq_none_iff.mp habsent e he)
    simp [hne.symm]
  rw [value_foldlM_field hunset h, habsent]
  rfl

/-- What a section brings does not depend on the settings before it. -/
theorem field_congr {section' : String} (h : s.field section' v = .ok s') (t : Settings) :
    ∃ t', t.field section' v = .ok t' ∧
      ∀ k : Key, k.sectionName = section' → t'.value k = s'.value k := by
  obtain ⟨-, hne⟩ | ⟨c, a, rfl, ha, rfl⟩ := field_eq_ok h
  · refine ⟨t, field_of_forall_ne t v hne, fun k hk => ?_⟩
    exact absurd (hk.symm.trans (Section.name_section k).symm) (hne k.section)
  · refine ⟨c.put t a, by rw [field_name, ha]; rfl, fun k hk => ?_⟩
    rw [← Section.name_section] at hk
    exact Section.value_put_congr t s (Section.name_injective hk) a

/-- Sections decide over their own keys, whatever the settings before them. -/
theorem foldlM_field_congr (h : es.foldlM (fun s e => field s e.1 e.2) s = .ok s') (t : Settings) :
    ∃ t', es.foldlM (fun s e => field s e.1 e.2) t = .ok t' ∧
      ∀ k : Key, t'.value k =
        if (es.lookup k.sectionName).isSome then s'.value k else t.value k := by
  induction es generalizing s t with
  | nil => exact ⟨t, rfl, fun _ => rfl⟩
  | cons e es ih =>
    obtain ⟨section', v⟩ := e
    rw [List.foldlM_cons] at h
    obtain ⟨s₁, hs₁, h⟩ := except_bind_eq_ok h
    obtain ⟨t₁, ht₁, hsame⟩ := field_congr hs₁ t
    obtain ⟨t', ht', hvalue⟩ := ih h t₁
    refine ⟨t', ?_, fun k => ?_⟩
    · rw [List.foldlM_cons, ht₁]
      exact ht'
    · rw [hvalue, List.lookup_cons]
      by_cases hsection : section' = k.sectionName
      · rw [beq_iff_eq.mpr hsection.symm]
        cases hlater : es.lookup k.sectionName with
        | some _ => rfl
        | none =>
          show t₁.value k = s'.value k
          rw [hsame k hsection.symm, value_foldlM_of_absent hlater h]
      · rw [beq_false_of_ne (Ne.symm hsection), value_field_of_ne hsection ht₁]

/-! ## An empty section -/

/-- The same settings with no path excluded. -/
def excludingNothing (s : Settings) : Settings :=
  { s with paths := { s.paths with excluded := [] } }

/-- An empty section that is added makes the keys of its section blank. -/
theorem value_ofEntries_added {front back : Toml.Entries} (origin : TableOrigin) {name : String}
    (hback : back.lookup name = none) (h : ofEntries (front ++ back) = .ok s) :
    ∃ t, ofEntries (front ++ (name, .table origin []) :: back) = .ok t ∧
      ∀ k : Key, t.value k = if k.sectionName = name then blank.value k else s.value k := by
  unfold ofEntries at h ⊢
  rw [List.foldlM_append] at h ⊢
  obtain ⟨s₁, hs₁, h⟩ := except_bind_eq_ok h
  obtain ⟨t₁, ht₁⟩ : ∃ t₁, s₁.field name (.table origin []) = .ok t₁ := by
    unfold field
    split <;> exact ⟨_, rfl⟩
  obtain ⟨t, ht, hvalue⟩ := foldlM_field_congr h t₁
  refine ⟨t, ?_, fun k => ?_⟩
  · simp only [hs₁, bind, Except.bind, List.foldlM_cons, ht₁]
    exact ht
  · rw [hvalue]
    by_cases hname : k.sectionName = name
    · subst hname
      rw [hback, if_pos rfl]
      exact value_field_of_unset rfl ht₁
    · rw [if_neg hname, value_field_of_ne (Ne.symm hname) ht₁]
      cases hlater : back.lookup k.sectionName with
      | some _ => rfl
      | none => exact (value_foldlM_of_absent hlater h).symm

/-- Only an empty section of paths changes anything. -/
theorem ofEntries_added {front back : Toml.Entries} {origin : TableOrigin} {name : String}
    (habsent : (front ++ back).lookup name = none) (h : ofEntries (front ++ back) = .ok s) :
    ofEntries (front ++ (name, .table origin []) :: back) =
      .ok (if name = "paths" then s.excludingNothing else s) := by
  have hback : back.lookup name = none := by
    rw [List.lookup_append] at habsent
    exact (Option.or_eq_none_iff.mp habsent).2
  obtain ⟨t, ht, hvalue⟩ := value_ofEntries_added origin hback h
  rw [ht]
  refine congrArg _ (ext_value fun k => ?_)
  rw [hvalue]
  have hstandard : k.sectionName = name → s.value k = standard.value k := fun hk =>
    value_foldlM_of_absent (hk ▸ habsent) h
  by_cases hpaths : name = "paths"
  · subst hpaths
    rw [if_pos rfl]
    cases k
    case included => exact (hstandard rfl).symm
    all_goals rfl
  · rw [if_neg hpaths]
    split
    next hk =>
      rw [hstandard hk]
      exact value_blank fun hexcluded => hpaths (hk.symm.trans (hexcluded ▸ rfl))
    next => rfl

/-! ## Texts -/

theorem ofText_eq_ok_iff {text : String} :
    ofText text = .ok s ↔ ∃ es, Toml.read text = some es ∧ ofEntries es = .ok s := by
  unfold ofText
  cases Toml.read text with
  | none => simp
  | some es => cases hentries : ofEntries es <;> simp [Except.mapError, hentries]

/-- **What a text does not set.** A key that a text of settings does not set has its standard value,
whether its section is missing, is empty or sets other keys. The patterns of excluded paths are the
exception: with a section of paths that does not set them there are none. So an empty section that
is added, at the start of a line behind which no pair is without a header, changes nothing unless it
is the section of paths. -/
theorem ofText_unset {text : String} (h : ofText text = .ok s) :
    ∃ es, Toml.read text = some es ∧
      (∀ k : Key, k ≠ .excluded → ¬sets es k → s.value k = standard.value k) ∧
      (¬sets es .excluded → s.paths.excluded =
        if (es.lookup "paths").isSome then [] else standard.paths.excluded) ∧
      ∀ before after headed name : String,
        (text = before ++ after ∨ ∃ lineEnd ∈ Toml.lineEnds, text ++ lineEnd = before ++ after) →
        Toml.LineStart before → Toml.EndsSection after.toList →
        Toml.HeaderLine name headed.toList after.toList → es.lookup name = none →
        ofText (before ++ headed) = .ok (if name = "paths" then s.excludingNothing else s) := by
  obtain ⟨es, hread, hentries⟩ := ofText_eq_ok_iff.mp h
  refine ⟨es, hread, fun k hk hunset => ?_, fun hunset => ?_, ?_⟩
  · rw [value_foldlM_field (Bool.eq_false_iff.mpr hunset) hentries, value_blank hk, ite_self]
  · exact value_foldlM_field (k := .excluded) (Bool.eq_false_iff.mpr hunset) hentries
  · intro before after headed name htext hbefore hafter hheader hnone
    have hsplit : Toml.read (before ++ after) = some es := by
      obtain rfl | ⟨lineEnd, hend, htext⟩ := htext
      · exact hread
      · rw [← htext]
        exact Toml.read_lineEnd hend hread
    obtain ⟨es', hread', front, back, rfl, rfl⟩ :=
      Toml.read_added hbefore hafter hheader hsplit hnone
    exact ofText_eq_ok_iff.mpr ⟨_, hread', ofEntries_added hnone hentries⟩

/-- A section of paths that is added in front of an empty section, where nothing of paths was set:
build products are no longer left out. -/
theorem ofText_unset_paths :
    let unit := "[unit]\nedition = \"2018\"\n"
    ∃ s, ofText (unit ++ "\n" ++ "[output]\n") = .ok s ∧
      s.unit.symbolName = standard.unit.symbolName ∧
      s.paths.excluded = standard.paths.excluded ∧
      ofText (unit ++ "\n" ++ ("[" ++ "paths" ++ "]\n" ++ "[output]\n")) =
        .ok s.excludingNothing := by
  intro unit
  let s : Settings := { standard with unit := ⟨standard.unit.symbolName, .e2018⟩ }
  have hs : ofText (unit ++ "\n" ++ "[output]\n") = .ok s :=
    eq_ok_of_toOption (by decide +kernel)
  obtain ⟨es, hread, hvalue, hexcluded, hadded⟩ := ofText_unset hs
  have hunset : (Toml.read (unit ++ "\n" ++ "[output]\n")).all fun es =>
      !sets es .symbolName && !sets es .excluded && (es.lookup "paths").isNone := by
    decide +kernel
  rw [hread] at hunset
  simp only [Option.all_some, Bool.and_eq_true, Bool.not_eq_true', Option.isNone_iff_eq_none]
    at hunset
  obtain ⟨⟨hsymbol, hpatterns⟩, hpaths⟩ := hunset
  refine ⟨s, hs, hvalue .symbolName (by decide) (by simp [hsymbol]), ?_, ?_⟩
  · rw [hexcluded (by simp [hpatterns]), hpaths, Option.isSome_none, if_neg Bool.false_ne_true]
  · have hbare : Toml.IsBare "paths" := ⟨by decide, by decide⟩
    have hafter : Toml.skipSpaces "[output]\n".toList = '[' :: "output]\n".toList := rfl
    exact hadded (unit ++ "\n") "[output]\n" _ "paths" (.inl rfl)
      (.behind (by decide +kernel) (by decide)) (.header hafter) (.bare hbare "[output]\n") hpaths

/-- An empty section of paths sets no key. It is read with no path excluded, and the text without it
with the standard ones. -/
theorem ofText_excludes_nothing :
    ∃ es s, Toml.read "[paths]\n" = some es ∧ (∀ k, ¬sets es k) ∧ ofText "[paths]\n" = .ok s ∧
      s.paths.excluded ≠ standard.paths.excluded ∧ ofText "" = .ok standard := by
  have hempty : Toml.read ("" ++ "") = some [] := by
    rw [Toml.read_eq, Toml.Draft.lines]
    rfl
  have hheader : Toml.HeaderLine "paths" "[paths]\n".toList [] :=
    .bare ⟨by decide, by decide⟩ ""
  have hafter : Toml.EndsSection "".toList := .nil
  obtain ⟨es, hread, front, back, hnil, rfl⟩ :=
    Toml.read_added .first hafter hheader hempty rfl
  obtain ⟨rfl, rfl⟩ := List.append_eq_nil_iff.mp hnil.symm
  exact ⟨_, blank, hread, fun k => by cases k <;> decide,
    eq_ok_of_toOption (by decide +kernel), by decide, eq_ok_of_toOption (by decide +kernel)⟩

end Graft.Settings

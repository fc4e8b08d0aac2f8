import Graft.Command.Run
import Graft.Proofs.Files.Tree
import Graft.Proofs.Unit.Sink

/-!
# Outputs of different host files

The outputs of a host file go below the output directory, by the ordinary names of its path. Two
host files have outputs of their own if they differ in these names in more than the extension of the
last; then nothing that one of them has written is lost while the other is expanded.
-/

namespace Graft

/-! ## Where outputs go -/

/-- A path that may be that of a host file: it ends with a name, which is not that of a foreign
file. -/
structure FilePath.IsHost (p : FilePath) : Prop where
  named : p.fileName?.isSome
  extension : p.extension? ≠ some foreignExtension

/-- What of a path tells its outputs from others: the ordinary names above its last, and that one
without its extension. -/
def FilePath.outputKey (p : FilePath) : List String × Option String := (p.names.dropLast, p.stem?)

/-- The ordinary names of a path, with the extension of foreign files. -/
def FilePath.foreignNames (p : FilePath) : List String :=
  p.names.dropLast ++ p.fileName?.toList.map (extended foreignExtension)

/-- The outputs of a host file. -/
def outputs (s : OutputSettings) (file : FilePath) : List FilePath :=
  [hostOutput s file, foreignOutput s file]

namespace FilePath.IsHost

variable {p q : FilePath}

theorem exists_names (h : p.IsHost) : ∃ above n, p.fileName? = some n ∧ p.names = above ++ [n] := by
  obtain ⟨n, hn⟩ := Option.isSome_iff_exists.mp h.named
  obtain ⟨above, habove⟩ := exists_names_concat hn
  exact ⟨above, n, hn, habove⟩

theorem hostOutput_below (h : p.IsHost) (s : OutputSettings) :
    (hostOutput s p).Below s.directory.front p.names := by
  obtain ⟨above, n, -, hnames⟩ := h.exists_names
  exact below_join_ordinary s.directory (by simp [hnames])

theorem foreignOutput_below (h : p.IsHost) (s : OutputSettings) :
    (foreignOutput s p).Below s.directory.front p.foreignNames := by
  obtain ⟨above, n, hn, hnames⟩ := h.exists_names
  have hbelow := h.hostOutput_below s
  rw [hnames] at hbelow
  rw [foreignNames, hnames, hn, List.dropLast_concat]
  exact hbelow.withExtension (by decide) (by decide)

theorem outputKey_eq {above : List String} {n : String} (hn : p.fileName? = some n)
    (hnames : p.names = above ++ [n]) :
    p.outputKey = (above, some (.ofList (splitExtension n.toList).1)) := by
  rw [outputKey, hnames, List.dropLast_concat, stem?, hn]
  rfl

/-- The new text of a host file and a foreign file never go to the same place. -/
theorem names_ne_foreignNames (hp : p.IsHost) (hq : q.IsHost) : p.names ≠ q.foreignNames := by
  obtain ⟨above, n, hn, hnames⟩ := hp.exists_names
  obtain ⟨above', n', hn', hnames'⟩ := hq.exists_names
  intro h
  rw [hnames, foreignNames, hn', Option.toList_some, List.map_singleton,
    List.append_singleton_inj] at h
  have hname : IsName n' := isName_of_mem_names (by rw [hnames']; simp)
  apply hp.extension
  rw [extension?, hn, h.2]
  simp only [extended, String.toList_ofList, Option.bind_some]
  rw [splitExtension_append (splitExtension_fst_ne_nil hname.ne_nil) (by decide)]
  simp

theorem foreignNames_inj (hp : p.IsHost) (hq : q.IsHost) :
    p.foreignNames = q.foreignNames ↔ p.outputKey = q.outputKey := by
  obtain ⟨above, n, hn, hnames⟩ := hp.exists_names
  obtain ⟨above', n', hn', hnames'⟩ := hq.exists_names
  rw [outputKey_eq hn hnames, outputKey_eq hn' hnames', foreignNames, foreignNames, hn, hn', hnames,
    hnames']
  simp only [List.dropLast_concat, Option.toList_some, List.map_singleton, Prod.mk.injEq,
    Option.some.injEq, String.ofList_inj]
  rw [List.append_singleton_inj, extended_inj]

theorem outputKey_eq_of_names (hp : p.IsHost) (hq : q.IsHost) (h : p.names = q.names) :
    p.outputKey = q.outputKey := by
  obtain ⟨above, n, hn, hnames⟩ := hp.exists_names
  obtain ⟨above', n', hn', hnames'⟩ := hq.exists_names
  rw [hnames, hnames', List.append_singleton_inj] at h
  rw [outputKey_eq hn hnames, outputKey_eq hn' hnames', h.1, h.2]

end FilePath.IsHost

/-- Outputs of different host files go to different places exactly where the keys of these files
differ. -/
theorem outputs_pairwise_iff (s : OutputSettings) {files : List FilePath}
    (hfiles : ∀ file ∈ files, file.IsHost) :
    (files.flatMap (outputs s)).Pairwise (fun p q => ¬ p.same q) ↔
      files.Pairwise fun file other => file.outputKey ≠ other.outputKey := by
  have hapart : ∀ file ∈ files, ∀ other ∈ files,
      (∀ p ∈ outputs s file, ∀ q ∈ outputs s other, ¬ p.same q) ↔
        file.outputKey ≠ other.outputKey := by
    intro file hfile other hother
    replace hfile := hfiles file hfile
    replace hother := hfiles other hother
    have hhost := hfile.hostOutput_below s
    have hforeign := hfile.foreignOutput_below s
    have hhost' := hother.hostOutput_below s
    have hforeign' := hother.foreignOutput_below s
    simp only [outputs, List.forall_mem_cons, List.not_mem_nil, false_imp_iff, implies_true,
      and_true, hhost.same_iff hhost', hhost.same_iff hforeign', hforeign.same_iff hhost',
      hforeign.same_iff hforeign', hfile.foreignNames_inj hother]
    constructor
    · exact fun h => h.2.2
    · intro h
      exact ⟨⟨mt (hfile.outputKey_eq_of_names hother) h, hfile.names_ne_foreignNames hother⟩,
        (hother.names_ne_foreignNames hfile).symm, h⟩
  -- The two outputs of one file differ in their extensions.
  have hone : ∀ file ∈ files, (outputs s file).Pairwise fun p q => ¬ p.same q := by
    intro file hfile
    replace hfile := hfiles file hfile
    rw [outputs, List.pairwise_pair,
      (hfile.hostOutput_below s).same_iff (hfile.foreignOutput_below s)]
    exact hfile.names_ne_foreignNames hfile
  rw [List.pairwise_flatMap]
  constructor
  · rintro ⟨-, h⟩
    exact h.imp_of_mem fun hfile hother => (hapart _ hfile _ hother).mp
  · intro h
    exact ⟨hone, h.imp_of_mem fun hfile hother => (hapart _ hfile _ hother).mpr⟩

/-! ## What a turn writes -/

/-- A compiler leaves the text of a file as it is. -/
def Compiler.Spares (compiler : Compiler) (p : FilePath) : Prop :=
  ∀ program args t r, compiler program args t = .ok r → ∀ text, t.readText p = .ok text →
    r.tree.readText p = .ok text

section Turn

variable {front : List (List Char)} {names : List String} {t t' : FileTree} {p : FilePath}
  {text : String}

/-- A file that is written with what is to hold it can be read, and no other one has changed. -/
theorem writes_of_ok {made : FileTree} (hp : p.Below front names)
    (hmade : t.withParent p = .ok made) (h : made.writeText p text = .ok t') :
    t.Grows (· = t.base front ++ names) t' ∧ t'.readText p = .ok text := by
  have hparent : t.Grows (· = t.base front ++ names) made := FileTree.withParent_grows hmade
  obtain ⟨hwritten, hread⟩ := FileTree.writeText_eq_ok hp h
  rw [hparent.base_eq] at hwritten
  exact ⟨hparent.trans hwritten, hread⟩

theorem Sink.flush_eq_ok {sink : Sink} {flushed : Option FlushedUnit} (hp : p.Below front names)
    (h : sink.flush t p = .ok (flushed, t')) :
    t.Grows (· = t.base front ++ names) t' ∧
      (sink.isEmpty = false → t'.readText p = .ok sink.render) := by
  cases hempty : sink.isEmpty with
  | true =>
    rw [Sink.flush_of_isEmpty hempty] at h
    obtain ⟨-, rfl⟩ := Prod.mk.inj (Except.ok.inj h)
    exact ⟨.refl t, fun hsome => Bool.noConfusion hsome⟩
  | false =>
    obtain ⟨⟨made, hmade, hwritten⟩, -⟩ := (Sink.flush_eq_ok_iff hempty).mp h
    obtain ⟨hgrows, hread⟩ := writes_of_ok hp hmade hwritten
    exact ⟨hgrows, fun _ => hread⟩

theorem writeHost_eq_ok (hp : p.Below front names) (h : writeHost t p text = .ok t') :
    t.Grows (· = t.base front ++ names) t' ∧ t'.readText p = .ok text := by
  obtain ⟨made, hmade, h⟩ := except_bind_eq_ok h
  exact writes_of_ok hp (except_mapError_eq_ok hmade) (except_mapError_eq_ok h)

variable {s : Settings} {context : TypeContext} {compiler : Compiler} {clock : Clock}

/-- Compiling leaves the text of a file below the output directory as it is. -/
theorem compileUnit_keeps (hcompiler : s.toolchain.compile → compiler.Spares p)
    (hp : p.Below front names) (file : FilePath) (unit : String) (foreign : Option FlushedUnit)
    (h : t.readText p = .ok text) :
    (compileUnit s compiler file unit foreign t).2.readText p = .ok text := by
  unfold compileUnit
  split
  · exact h
  split
  next f hcompile =>
    have hrun : ((unitInvocation s file ⟨f.path⟩ unit).run compiler t).2.readText p = .ok text := by
      unfold Invocation.run
      split
      · exact h
      next made hmade =>
        have hgrows : t.Grows (fun _ => False) made := FileTree.makeDirectories_grows hmade
        have hread := hgrows.readText hp not_false h
        split
        · exact hread
        next r hr =>
          have hspared := hcompiler hcompile _ _ _ _ hr _ hread
          split
          · exact hspared
          · exact hspared
    split
    next heq => rwa [heq] at hrun
    next heq => rwa [heq] at hrun
  · exact h

/-- Writing a unit leaves all texts below the output directory but those of its own outputs. -/
theorem writeUnit_keeps {file : FilePath} (hfile : file.IsHost)
    (hp : p.Below s.output.directory.front names) (hhost : names ≠ file.names)
    (hforeign : names ≠ file.foreignNames) (hcompiler : s.toolchain.compile → compiler.Spares p)
    (unit : CompilationUnit) (rewritten : String) (h : t.readText p = .ok text) :
    (writeUnit s compiler clock file unit rewritten t).2.readText p = .ok text := by
  cases hflush : unit.sink.flush t (foreignOutput s.output file) with
  | error fault =>
    simp only [writeUnit, hflush]
    exact h
  | ok flushed =>
    obtain ⟨flushed, t₁⟩ := flushed
    obtain ⟨hgrows, -⟩ := Sink.flush_eq_ok (hfile.foreignOutput_below s.output) hflush
    have hread := hgrows.readText hp (by simpa using hforeign) h
    cases hwrite : writeHost t₁ (hostOutput s.output file) rewritten with
    | error e =>
      simp only [writeUnit, hflush, hwrite]
      exact hread
    | ok t₂ =>
      obtain ⟨hgrows', -⟩ := writeHost_eq_ok (hfile.hostOutput_below s.output) hwrite
      have hread' := hgrows'.readText hp (by simpa using hhost) hread
      have hcompiled := compileUnit_keeps hcompiler hp file unit.name flushed hread'
      simp only [writeUnit, hflush, hwrite]
      split
      next heq => rwa [heq] at hcompiled
      next heq => rwa [heq] at hcompiled

/-- Once a unit has been written, the new text of its host file and its functions can be read. -/
theorem writeUnit_writes {file : FilePath} (hfile : file.IsHost)
    (hcompiler : ∀ p ∈ outputs s.output file, s.toolchain.compile → compiler.Spares p)
    {unit : CompilationUnit} {outcome : FileOutcome}
    (h : (writeUnit s compiler clock file unit text t).1 = .ok outcome) :
    let t' := (writeUnit s compiler clock file unit text t).2
    t'.readText (hostOutput s.output file) = .ok text ∧
      (unit.isEmpty = false →
        t'.readText (foreignOutput s.output file) = .ok unit.sink.render) := by
  have hhost := hfile.hostOutput_below s.output
  have hforeign := hfile.foreignOutput_below s.output
  cases hflush : unit.sink.flush t (foreignOutput s.output file) with
  | error fault =>
    simp only [writeUnit, hflush] at h
    cases h
  | ok flushed =>
    obtain ⟨flushed, t₁⟩ := flushed
    obtain ⟨-, hrendered⟩ := Sink.flush_eq_ok hforeign hflush
    cases hwrite : writeHost t₁ (hostOutput s.output file) text with
    | error e =>
      simp only [writeUnit, hflush, hwrite] at h
      cases h
    | ok t₂ =>
      obtain ⟨hgrows, hread⟩ := writeHost_eq_ok hhost hwrite
      -- The host file goes to another place than the foreign one, which therefore stays.
      have hapart := (hfile.names_ne_foreignNames hfile).symm
      have hcompiled := compileUnit_keeps (hcompiler _ (by simp [outputs])) hhost file unit.name
        flushed hread
      have hcompiled' (hsome : unit.isEmpty = false) :=
        compileUnit_keeps (hcompiler _ (by simp [outputs])) hforeign file unit.name flushed
          (hgrows.readText hforeign (by simpa using hapart) (hrendered hsome))
      simp only [writeUnit, hflush, hwrite]
      split
      next heq =>
        rw [heq] at hcompiled hcompiled'
        exact ⟨hcompiled, hcompiled'⟩
      next heq =>
        rw [heq] at hcompiled hcompiled'
        exact ⟨hcompiled, hcompiled'⟩

theorem expandFile_keeps {file : FilePath} (hfile : file.IsHost)
    (hp : p.Below s.output.directory.front names) (hhost : names ≠ file.names)
    (hforeign : names ≠ file.foreignNames) (hcompiler : s.toolchain.compile → compiler.Spares p)
    (h : t.readText p = .ok text) :
    (expandFile s context compiler clock t file).2.readText p = .ok text := by
  unfold expandFile
  rw [if_neg hfile.extension]
  split
  · exact h
  split
  · exact h
  · exact writeUnit_keeps hfile hp hhost hforeign hcompiler _ _ h

/-- What a host file became in its turn, which started with the tree `t`, can be read in the tree
`t'`. -/
def OutputsKept (s : Settings) (context : TypeContext) (compiler : Compiler) (clock : Clock)
    (t t' : FileTree) (file : FilePath) : Prop :=
  ∀ source text unit report link, t.readText file = .ok source →
    (CompilationUnit.ofName file.text s.unitOptions context).expandSource source haskell .open =
      (.ok text, unit) →
    (expandFile s context compiler clock t file).1 = .ok (.expanded report link) →
    t'.readText (hostOutput s.output file) = .ok text ∧
      (unit.isEmpty = false → t'.readText (foreignOutput s.output file) = .ok unit.sink.render)

theorem expandFile_writes {file : FilePath} (hfile : file.IsHost)
    (hcompiler : ∀ p ∈ outputs s.output file, s.toolchain.compile → compiler.Spares p) :
    OutputsKept s context compiler clock t (expandFile s context compiler clock t file).2 file := by
  intro source text unit report link hsource hexpand houtcome
  have hturn : expandFile s context compiler clock t file =
      writeUnit s compiler clock file unit text t := by
    rw [expandFile, if_neg hfile.extension, hsource]
    simp only
    rw [hexpand]
  rw [hturn] at houtcome ⊢
  exact writeUnit_writes hfile hcompiler houtcome

end Turn

/-! ## Runs over many files -/

section Run

variable {s : Settings} {context : TypeContext} {compiler : Compiler} {clock : Clock}
  {t : FileTree} {files : List FilePath} {p : FilePath} {names : List String} {text : String}

theorem expandFiles_cons (s : Settings) (context : TypeContext) (compiler : Compiler)
    (clock : Clock) (t : FileTree) (file : FilePath) (files : List FilePath) :
    (expandFiles s context compiler clock t (file :: files)).2 =
      (expandFiles s context compiler clock (expandFile s context compiler clock t file).2
        files).2 := rfl

theorem expandFiles_append (s : Settings) (context : TypeContext) (compiler : Compiler)
    (clock : Clock) (t : FileTree) (before after : List FilePath) :
    (expandFiles s context compiler clock t (before ++ after)).2 =
      (expandFiles s context compiler clock (expandFiles s context compiler clock t before).2
        after).2 := by
  induction before generalizing t with
  | nil => rfl
  | cons file before ih =>
    rw [List.cons_append, expandFiles_cons, expandFiles_cons]
    exact ih _

/-- A text below the output directory stays while host files with other outputs are expanded. -/
theorem expandFiles_keeps (hfiles : ∀ file ∈ files, file.IsHost)
    (hp : p.Below s.output.directory.front names)
    (hother : ∀ file ∈ files, names ≠ file.names ∧ names ≠ file.foreignNames)
    (hcompiler : s.toolchain.compile → compiler.Spares p) (h : t.readText p = .ok text) :
    (expandFiles s context compiler clock t files).2.readText p = .ok text := by
  induction files generalizing t with
  | nil => exact h
  | cons file files ih =>
    obtain ⟨hhost, hforeign⟩ := hother file List.mem_cons_self
    rw [expandFiles_cons]
    refine ih (fun f hf => hfiles f (List.mem_cons_of_mem file hf))
      (fun f hf => hother f (List.mem_cons_of_mem file hf)) ?_
    exact expandFile_keeps (hfiles file List.mem_cons_self) hp hhost hforeign hcompiler h

/-- **Outputs are kept apart by the names of the host files.** The outputs of the files of a run go
to different places exactly where their paths differ in more than the extension, the root, `.` and
`..`; and then all that became of each file in its turn is still there when all of them have been
expanded. A compiler must leave the outputs alone. -/
theorem expandFiles_keeps_outputs (s : Settings) (context : TypeContext) (compiler : Compiler)
    (clock : Clock) (t : FileTree) {files : List FilePath} (hfiles : ∀ file ∈ files, file.IsHost)
    (hcompiler : s.toolchain.compile → ∀ p ∈ files.flatMap (outputs s.output), compiler.Spares p) :
    ((files.flatMap (outputs s.output)).Pairwise (fun p q => ¬ p.same q) ↔
      files.Pairwise fun file other => file.outputKey ≠ other.outputKey) ∧
    ((files.Pairwise fun file other => file.outputKey ≠ other.outputKey) →
      ∀ before file after, files = before ++ file :: after →
        OutputsKept s context compiler clock (expandFiles s context compiler clock t before).2
          (expandFiles s context compiler clock t files).2 file) := by
  refine ⟨outputs_pairwise_iff s.output hfiles, ?_⟩
  rintro hapart before file after rfl
  have hfile : file.IsHost := hfiles file (by simp)
  have hafter : ∀ other ∈ after, other.IsHost := fun other hmem => hfiles other (by simp [hmem])
  have hspares : ∀ p ∈ outputs s.output file, s.toolchain.compile → compiler.Spares p :=
    fun p hp hcompile => hcompiler hcompile p (List.mem_flatMap.mpr ⟨file, by simp, hp⟩)
  have hkeys : ∀ other ∈ after, file.outputKey ≠ other.outputKey :=
    (List.pairwise_cons.mp (List.pairwise_append.mp hapart).2.1).1
  intro source text unit report link hsource hexpand houtcome
  obtain ⟨hhost, hforeign⟩ :=
    expandFile_writes hfile hspares source text unit report link hsource hexpand houtcome
  rw [expandFiles_append, expandFiles_cons]
  constructor
  · refine expandFiles_keeps hafter (hfile.hostOutput_below s.output) (fun other hmem => ?_)
      (hspares _ (by simp [outputs])) hhost
    have hother := hafter other hmem
    exact ⟨mt (hfile.outputKey_eq_of_names hother) (hkeys other hmem),
      hfile.names_ne_foreignNames hother⟩
  · intro hsome
    refine expandFiles_keeps hafter (hfile.foreignOutput_below s.output) (fun other hmem => ?_)
      (hspares _ (by simp [outputs])) (hforeign hsome)
    have hother := hafter other hmem
    exact ⟨(hother.names_ne_foreignNames hfile).symm,
      mt (hfile.foreignNames_inj hother).mp (hkeys other hmem)⟩

/-- A compiler that writes one library. -/
def Compiler.writing (library : FilePath) (bytes : String) : Compiler := fun _ _ t =>
  (t.writeText library bytes).map fun t' => ⟨0, "", t'⟩

/-- A library beside other files leaves them alone. -/
theorem Compiler.writing_spares {front : List (List Char)} {library : FilePath} {own : List String}
    (hlibrary : library.Below front own) (hp : p.Below front names) (hne : names ≠ own)
    (bytes : String) : (writing library bytes).Spares p := by
  intro program args t r h text htext
  cases hwritten : t.writeText library bytes with
  | error fault =>
    simp only [writing, hwritten] at h
    cases h
  | ok t' =>
    simp only [writing, hwritten] at h
    rw [← Except.ok.inj h]
    exact (FileTree.writeText_eq_ok hlibrary hwritten).1.readText hp (by simpa using hne) htext

/-- Two host files are expanded and compiled. -/
theorem expandFiles_keeps_outputs_compiled :
    let s : Settings :=
      { Settings.standard with toolchain := { ToolchainSettings.standard with compile := true } }
    let compiler := Compiler.writing ⟨"splicer-out/lib/liba.a"⟩ "!<arch>"
    let clock : Clock := fun _ => 0
    let files : List FilePath := [⟨"a.hs"⟩, ⟨"b.hs"⟩]
    let t : FileTree := ⟨[], [(["a.hs"], .file (.text "[rustItems| struct A; |]\n")),
      (["b.hs"], .file (.text "[rustItems| struct B; |]\n"))]⟩
    (∀ file ∈ files, file.IsHost) ∧
    (s.toolchain.compile → ∀ p ∈ files.flatMap (outputs s.output), compiler.Spares p) ∧
    (files.Pairwise fun file other => file.outputKey ≠ other.outputKey) ∧
    (files.flatMap (outputs s.output)).Pairwise (fun p q => ¬ p.same q) ∧
    (expandFiles s .basic compiler clock t files).2.readText (foreignOutput s.output ⟨"a.hs"⟩) =
      .ok ("// @generated by splicer from a.hs. Do not edit.\n" ++
        "#![allow(unused, non_snake_case, clippy::all)]\n\n// a.hs:1:11 (items)\nstruct A;\n") := by
  intro s compiler clock files t
  have hfiles : ∀ file ∈ files, file.IsHost := by
    intro file hfile
    simp only [files, List.mem_cons, List.not_mem_nil, or_false] at hfile
    rcases hfile with rfl | rfl
    · exact ⟨by decide, by decide⟩
    · exact ⟨by decide, by decide⟩
  have hkeys : files.Pairwise fun file other => file.outputKey ≠ other.outputKey := by decide
  have hspares : s.toolchain.compile → ∀ p ∈ files.flatMap (outputs s.output),
      compiler.Spares p := by
    intro _ p hp
    have hlibrary : FilePath.Below s.output.directory.front ["lib", "liba.a"]
        ⟨"splicer-out/lib/liba.a"⟩ := by
      refine ⟨by decide, by decide, fun n hn => FilePath.isName_iff.mpr ?_⟩
      simp only [List.mem_cons, List.not_mem_nil, or_false] at hn
      rcases hn with rfl | rfl <;> decide
    -- The library lies one directory deeper than all outputs.
    have hone : ∀ file ∈ files, file.names.length = 1 ∧ file.foreignNames.length = 1 := by decide
    obtain ⟨file, hfile, hp⟩ := List.mem_flatMap.mp hp
    simp only [outputs, List.mem_cons, List.not_mem_nil, or_false] at hp
    rcases hp with rfl | rfl
    · have hbelow := (hfiles file hfile).hostOutput_below s.output
      refine Compiler.writing_spares hlibrary hbelow (fun h => ?_) _
      exact absurd (hone file hfile).1 (by rw [h]; decide)
    · have hbelow := (hfiles file hfile).foreignOutput_below s.output
      refine Compiler.writing_spares hlibrary hbelow (fun h => ?_) _
      exact absurd (hone file hfile).2 (by rw [h]; decide)
  obtain ⟨hiff, hkept⟩ := expandFiles_keeps_outputs s .basic compiler clock t hfiles hspares
  refine ⟨hfiles, hspares, hkeys, hiff.mpr hkeys, ?_⟩
  let first := (CompilationUnit.ofName "a.hs" s.unitOptions .basic).expandSource
    "[rustItems| struct A; |]\n" haskell .open
  have hexpand : first = (.ok "\n", first.2) := Prod.ext (by decide +kernel) rfl
  obtain ⟨report, link, houtcome⟩ : ∃ report link,
      (expandFile s .basic compiler clock t ⟨"a.hs"⟩).1 = .ok (.expanded report link) := by
    have hunits : (expandFile s .basic compiler clock t ⟨"a.hs"⟩).1.toOption.map
        (fun outcome => (Run.manifestOf [outcome]).units.length) = some 1 := by decide +kernel
    generalize (expandFile s .basic compiler clock t ⟨"a.hs"⟩).1 = result at hunits
    cases result with
    | error e => cases hunits
    | ok outcome =>
      cases outcome with
      | failed failures => cases hunits
      | expanded report link => exact ⟨report, link, rfl⟩
  have hread : t.readText ⟨"a.hs"⟩ = .ok "[rustItems| struct A; |]\n" := by decide
  obtain ⟨-, hforeign⟩ := hkept hkeys [] ⟨"a.hs"⟩ [⟨"b.hs"⟩] rfl _ _ _ _ _ hread hexpand houtcome
  rw [hforeign (by decide +kernel)]
  decide +kernel

/-- Names that differ in the extension only share a foreign file, and `..` leads to the outputs of
another directory: what became of the first file is lost. -/
theorem expandFiles_loses_outputs :
    let files : List FilePath := [⟨"a.hs"⟩, ⟨"a.lhs"⟩]
    let t : FileTree := ⟨[], [(["a.hs"], .file (.text "[rustItems| struct A; |]\n")),
      (["a.lhs"], .file (.text "[rustItems| struct B; |]\n"))]⟩
    let clock : Clock := fun _ => 0
    let t' := (expandFiles .standard .basic .none clock t files).2
    (∀ file ∈ files, file.IsHost ∧ t.isFile file) ∧ files.Pairwise (fun p q => ¬ p.same q) ∧
    (expandFiles .standard .basic .none clock t files).1.all (·.isOk) ∧
    foreignOutput .standard ⟨"a.hs"⟩ = foreignOutput .standard ⟨"a.lhs"⟩ ∧
    t'.readText (foreignOutput .standard ⟨"a.hs"⟩) =
      .ok ("// @generated by splicer from a.lhs. Do not edit.\n" ++
        "#![allow(unused, non_snake_case, clippy::all)]\n\n// a.lhs:1:11 (items)\nstruct B;\n") ∧
    ¬ FilePath.same ⟨"b/../a.hs"⟩ ⟨"b/a.hs"⟩ ∧
    hostOutput .standard ⟨"b/../a.hs"⟩ = hostOutput .standard ⟨"b/a.hs"⟩ := by
  intro files t clock t'
  have hfiles : ∀ file ∈ files, file.IsHost ∧ t.isFile file := by
    intro file hfile
    simp only [files, List.mem_cons, List.not_mem_nil, or_false] at hfile
    rcases hfile with rfl | rfl
    · exact ⟨⟨by decide, by decide⟩, by decide⟩
    · exact ⟨⟨by decide, by decide⟩, by decide⟩
  refine ⟨hfiles, ?_, ?_, ?_, ?_, ?_, ?_⟩ <;> decide +kernel

end Run

end Graft

import Graft.Proofs.Command.Outputs
import Graft.Proofs.Files.Order
import Graft.Proofs.Files.Write
import Graft.Proofs.Json.Read
import Graft.Proofs.Unit.Verdict

/-!
# Host files in one run

What a run writes for a host file depends on this file alone. All that is written for the files that
can be expanded is there at the end, and nothing else has changed, whatever the other files hold.
-/

namespace Graft

section Turn

variable {s : Settings} {context : TypeContext} {t t' : FileTree}
  {file : FilePath} {texts : List (FilePath × String)}

/-! ## What a host file becomes -/

/-- The expansion of a host file with the text that it has in a tree. -/
def expansionOf (s : Settings) (context : TypeContext) (t : FileTree) (file : FilePath) :
    Except (List Diagnostic) String × CompilationUnit :=
  (CompilationUnit.ofName file.text s.unitOptions context).expandSource
    ((t.readText file).toOption.getD "") haskell .open

/-- Whether a host file can be expanded. -/
def expands (s : Settings) (context : TypeContext) (t : FileTree) (file : FilePath) : Bool :=
  (expansionOf s context t file).1.isOk

/-- What is written for a host file: its new text, and its foreign file if that holds anything. -/
def textsOf (s : Settings) (context : TypeContext) (t : FileTree) (file : FilePath) :
    List (FilePath × String) :=
  match expansionOf s context t file with
  | (.ok text, unit) =>
    (hostOutput s.output file, text) ::
      if unit.isEmpty then [] else [(foreignOutput s.output file, unit.sink.render)]
  | (.error _, _) => []

/-- The report of a host file that can be expanded. -/
def reportOf (s : Settings) (context : TypeContext) (clock : Clock) (t : FileTree)
    (file : FilePath) : UnitReport :=
  let unit := (expansionOf s context t file).2
  ⟨file, hostOutput s.output file, unit.name,
    (unit.sink.flushed? (foreignOutput s.output file).text).map (·.2), unit.callSites, clock file⟩

/-- What comes of a host file when nothing is compiled. -/
def outcomeOf (s : Settings) (context : TypeContext) (clock : Clock) (t : FileTree)
    (file : FilePath) : FileOutcome :=
  match expansionOf s context t file with
  | (.ok _, _) => .expanded (reportOf s context clock t file) none
  | (.error failures, _) => .failed failures

theorem expandSource_error_ne_nil {u v : CompilationUnit} {source : String} {l : HostLanguage}
    {scope : HostScope} {failures : List Diagnostic}
    (h : u.expandSource source l scope = (.error failures, v)) : failures ≠ [] := by
  rcases CompilationUnit.expandSource_eq_error_iff.mp (congrArg Prod.fst h) with
    ⟨d, -, rfl⟩ | ⟨quotes, -, hsome, -⟩
  · exact List.cons_ne_nil _ _
  · exact hsome

/-! ## Expanding one file -/

theorem flush_wrote (h : t.Wrote texts t') {p : FilePath} (hp : t.Writable p)
    (hapart : t.Apart texts p) (sink : Sink) :
    ∃ t'', sink.flush t' p = .ok ((sink.flushed? p.text).map (·.2), t'') ∧
      t.Wrote (texts ++ if sink.isEmpty then [] else [(p, sink.render)]) t'' := by
  cases hempty : sink.isEmpty with
  | true => exact ⟨t', by simp [Sink.flush, Sink.flushed?, hempty], by simpa using h⟩
  | false =>
    obtain ⟨made, t'', hmade, hwritten, hwrote⟩ := h.write hp hapart sink.render
    refine ⟨t'', (Sink.flush_eq_ok_iff hempty).mpr ⟨⟨made, hmade, hwritten⟩, ?_⟩, hwrote⟩
    simp [Sink.flushed?, hempty]

theorem writeHost_wrote (h : t.Wrote texts t') {p : FilePath} (hp : t.Writable p)
    (hapart : t.Apart texts p) (text : String) :
    ∃ t'', writeHost t' p text = .ok t'' ∧ t.Wrote (texts ++ [(p, text)]) t'' := by
  obtain ⟨made, t'', hmade, hwritten, hwrote⟩ := h.write hp hapart text
  exact ⟨t'', by simp [writeHost, hmade, hwritten, Except.mapError, bind, Except.bind], hwrote⟩

theorem compileUnit_of_not (compiler : Compiler) (hcompile : s.toolchain.compile = false)
    (unit : String) (foreign : Option FlushedUnit) (t : FileTree) :
    compileUnit s compiler file unit foreign t = (.ok none, t) := by
  cases foreign with
  | none => rfl
  | some f => rw [compileUnit, hcompile, if_neg Bool.false_ne_true]

/-- What becomes of a unit is written, the foreign file only if it holds anything. -/
theorem writeUnit_wrote (compiler : Compiler) (clock : Clock)
    (hcompile : s.toolchain.compile = false) (h : t.Wrote texts t')
    (hclear : t.Clear (texts.map (·.1) ++ outputs s.output file)) (unit : CompilationUnit)
    (text : String) :
    ∃ t'', writeUnit s compiler clock file unit text t' =
        (.ok (.expanded ⟨file, hostOutput s.output file, unit.name,
          (unit.sink.flushed? (foreignOutput s.output file).text).map (·.2), unit.callSites,
          clock file⟩ none), t'') ∧
      t.Wrote (texts ++ (hostOutput s.output file, text) ::
        if unit.isEmpty then [] else [(foreignOutput s.output file, unit.sink.render)]) t'' := by
  -- The foreign file is written first.
  replace hclear := hclear.perm (List.Perm.append_left _ (List.Perm.swap _ _ []))
  have hforeign : t.Writable (foreignOutput s.output file) ∧
      t.Apart texts (foreignOutput s.output file) := hclear.next (by simp)
  obtain ⟨t₁, hflush, hwrote₁⟩ := flush_wrote h hforeign.1 hforeign.2 unit.sink
  have hhost : t.Writable (hostOutput s.output file) ∧ t.Apart
      (texts ++ if unit.sink.isEmpty then [] else [(foreignOutput s.output file, unit.sink.render)])
      (hostOutput s.output file) := by
    refine hclear.next ?_
    rw [List.map_append, List.append_assoc]
    refine List.Sublist.append_left ?_ _
    split <;> simp
  obtain ⟨t₂, hwrite, hwrote₂⟩ := writeHost_wrote hwrote₁ hhost.1 hhost.2 text
  refine ⟨t₂, ?_, hwrote₂.congr fun w => ?_⟩
  · simp only [writeUnit, hflush, hwrite, compileUnit_of_not compiler hcompile]
  · rw [CompilationUnit.isEmpty]
    split <;> simp [or_comm]

/-- A host file in its turn: it is expanded with the text it had at the start, and what it becomes
is written. -/
theorem expandFile_wrote (compiler : Compiler) (clock : Clock)
    (hcompile : s.toolchain.compile = false) (h : t.Wrote texts t')
    (hread : (t.readText file).isOk) (hextension : file.extension? ≠ some foreignExtension)
    (hkept : ∀ w ∈ texts, t.place w.1 ≠ t.place file)
    (hclear : t.Clear (texts.map (·.1) ++ outputs s.output file)) :
    ∃ t'', expandFile s context compiler clock t' file = (.ok (outcomeOf s context clock t file), t'') ∧
      t.Wrote (texts ++ textsOf s context t file) t'' := by
  obtain ⟨source, hsource⟩ := except_eq_ok_of_isOk hread
  have hexpansion : expansionOf s context t file =
      (CompilationUnit.ofName file.text s.unitOptions context).expandSource source haskell
        .open := by
    rw [expansionOf, hsource]
    rfl
  rw [expandFile, if_neg hextension, h.readText_of_ne hkept hsource]
  dsimp only
  rw [← hexpansion]
  unfold outcomeOf textsOf reportOf
  obtain ⟨result, unit⟩ := expansionOf s context t file
  cases result with
  | error failures => exact ⟨t', rfl, by simpa using h⟩
  | ok text => exact writeUnit_wrote compiler clock hcompile h hclear unit text

theorem textsOf_sublist (s : Settings) (context : TypeContext) (t : FileTree) (file : FilePath) :
    ((textsOf s context t file).map (·.1)).Sublist (outputs s.output file) := by
  unfold textsOf outputs
  split
  · split <;> simp
  · exact List.nil_sublist _

end Turn

section Run

variable {s : Settings} {context : TypeContext} {t t' : FileTree}
  {files : List FilePath} {texts : List (FilePath × String)}

/-! ## Expanding several files -/

/-- Host files in their turns, none of which is written over before it has been read. -/
theorem expandFiles_wrote (compiler : Compiler) (clock : Clock)
    (hcompile : s.toolchain.compile = false) (h : t.Wrote texts t')
    (hfiles : ∀ file ∈ files,
      (t.readText file).isOk ∧ file.extension? ≠ some foreignExtension)
    (hclear : t.Clear (texts.map (·.1) ++ files.flatMap (outputs s.output)))
    (hkept : ∀ p ∈ texts.map (·.1) ++ files.flatMap (outputs s.output), ∀ file ∈ files,
      t.place p ≠ t.place file) :
    ∃ t'', expandFiles s context compiler clock t' files =
        (files.map fun file => .ok (outcomeOf s context clock t file), t'') ∧
      t.Wrote (texts ++ files.flatMap (textsOf s context t)) t'' := by
  induction files generalizing texts t' with
  | nil => exact ⟨t', rfl, by simpa using h⟩
  | cons file files ih =>
    rw [List.flatMap_cons, ← List.append_assoc] at hclear hkept
    obtain ⟨hread, hextension⟩ := hfiles file List.mem_cons_self
    obtain ⟨t₁, hfile, hwrote₁⟩ := expandFile_wrote compiler clock hcompile h hread hextension
      (fun w hw => hkept _ (by simp [List.mem_map_of_mem hw]) file List.mem_cons_self)
      (hclear.sublist (List.sublist_append_left _ _))
    have hsub : ((texts ++ textsOf s context t file).map (·.1) ++
        files.flatMap (outputs s.output)).Sublist
          (texts.map (·.1) ++ outputs s.output file ++ files.flatMap (outputs s.output)) := by
      rw [List.map_append]
      exact ((textsOf_sublist s context t file).append_left _).append_right _
    obtain ⟨t₂, hrest, hwrote₂⟩ := ih hwrote₁ (fun f hf => hfiles f (List.mem_cons_of_mem file hf))
      (hclear.sublist hsub)
      (fun p hp f hf => hkept p (hsub.subset hp) f (List.mem_cons_of_mem file hf))
    refine ⟨t₂, ?_, ?_⟩
    · rw [expandFiles, hfile]
      simp only [hrest, List.map_cons]
    · rwa [List.flatMap_cons, ← List.append_assoc]

/-! ## The manifest -/

/-- A value tells of a host file what has been made of it: where it and its outputs are, how much is
in its foreign file if there is one, the symbols that its snippets call, and how long it took. -/
structure ReportsOn (s : OutputSettings) (file : FilePath) (u : CompilationUnit) (duration : Nat)
    (j : Json) : Prop where
  source : j.field? "source" = some (.string file.text)
  hostOutput : j.field? "host_output" = some (.string (hostOutput s file).text)
  unit : j.field? "unit" = some (.string file.text)
  foreign : j.field? "foreign" = some (
    if u.isEmpty then .null
    else .object [("path", .string (foreignOutput s file).text),
      ("functions", .number (u.sink.entries.countP (·.isFunction))),
      ("items", .number (u.sink.entries.countP (!·.isFunction))),
      ("bytes", .number u.sink.render.utf8ByteSize)])
  callSites : ∃ sites, j.field? "call_sites" = some (.array sites) ∧
    sites.map (·.field? "symbol") = u.callSites.map fun site => some (.string site.symbol)
  duration : j.field? "duration_ms" = some (.number duration)

theorem CompilationUnit.name_expandSource (u : CompilationUnit) (source : String) (l : HostLanguage)
    (scope : HostScope) : (u.expandSource source l scope).2.name = u.name := by
  unfold expandSource
  split
  · rfl
  next quotes _ => exact (Expansion.run_keeps quotes).1

theorem Sink.toJson_flushed? (sink : Sink) (path : String) :
    Json.optional FlushedUnit.toJson ((sink.flushed? path).map (·.2)) =
      if sink.isEmpty then .null
      else .object [("path", .string path),
        ("functions", .number (sink.entries.countP (·.isFunction))),
        ("items", .number (sink.entries.countP (!·.isFunction))),
        ("bytes", .number sink.render.utf8ByteSize)] := by
  have hitems : sink.size - sink.functionCount = sink.entries.countP (!·.isFunction) := by
    rw [size_eq_add, Nat.add_sub_cancel_left]
  unfold flushed?
  split
  · rfl
  · show Json.object [_, _, ("items", .number (sink.size - sink.functionCount)), _] = _
    rw [hitems]
    rfl

theorem reportsOn_toJson (s : Settings) (context : TypeContext) (clock : Clock) (t : FileTree)
    (file : FilePath) :
    ReportsOn s.output file (expansionOf s context t file).2 (clock file)
      (reportOf s context clock t file).toJson := by
  have hname : (expansionOf s context t file).2.name = file.text :=
    CompilationUnit.name_expandSource ..
  refine ⟨rfl, rfl, ?_, ?_, ⟨_, rfl, ?_⟩, rfl⟩
  · exact congrArg (some <| Json.string ·) hname
  · exact congrArg some (Sink.toJson_flushed? ..)
  · rw [List.map_map]
    exact List.map_congr_left fun site _ => rfl

/-- The manifest of a run over host files. -/
def manifestFor (s : Settings) (context : TypeContext) (clock : Clock) (t : FileTree)
    (files : List FilePath) : Manifest :=
  ⟨(files.filter (expands s context t)).map (reportOf s context clock t), .empty⟩

/-- The text of a manifest lists the files that can be expanded, in their order, and nothing else. -/
theorem read_manifestFor (s : Settings) (context : TypeContext) (clock : Clock) (t : FileTree)
    (files : List FilePath) :
    ∃ units,
      Json.read (manifestFor s context clock t files).toJson.pretty =
        some (.object [("units", .array units), ("cargo_directives", .array []),
          ("linker_flags", .array [])]) ∧
      List.Forall₂
        (fun file j => ReportsOn s.output file (expansionOf s context t file).2 (clock file) j)
        (files.filter (expands s context t)) units := by
  refine ⟨(manifestFor s context clock t files).units.map (·.toJson), Json.read_pretty _, ?_⟩
  rw [manifestFor, List.map_map, List.forall₂_map_right_iff, List.forall₂_same]
  exact fun file _ => reportsOn_toJson s context clock t file

/-! ## The end of a run -/

theorem manifestOf_outcomes (s : Settings) (context : TypeContext) (clock : Clock) (t : FileTree)
    (files : List FilePath) :
    Run.manifestOf (files.map (outcomeOf s context clock t)) = manifestFor s context clock t files := by
  unfold Run.manifestOf
  extract_lets add
  suffices h : ∀ units, (files.map (outcomeOf s context clock t)).foldl add ⟨units, .empty⟩ =
      ⟨units ++ (manifestFor s context clock t files).units, .empty⟩ from h []
  induction files with
  | nil => exact fun units => by simp [manifestFor]
  | cons file files ih =>
    intro units
    rw [List.map_cons, List.foldl_cons]
    rcases hresult : expansionOf s context t file with ⟨result, unit⟩
    cases result with
    | error failures =>
      have hadd : add ⟨units, .empty⟩ (outcomeOf s context clock t file) = ⟨units, .empty⟩ := by
        rw [outcomeOf, hresult]
      have hexpands : ¬ expands s context t file := by
        rw [expands, hresult]
        exact Bool.false_ne_true
      rw [hadd, ih, manifestFor, manifestFor, List.filter_cons_of_neg hexpands]
    | ok text =>
      have hadd : add ⟨units, .empty⟩ (outcomeOf s context clock t file) =
          ⟨units ++ [reportOf s context clock t file], .empty⟩ := by
        rw [outcomeOf, hresult]
      have hexpands : expands s context t file := by
        rw [expands, hresult]
        rfl
      rw [hadd, ih, manifestFor, manifestFor, List.filter_cons_of_pos hexpands, List.map_cons,
        List.append_assoc]
      rfl

theorem failuresOf_outcomes (s : Settings) (context : TypeContext) (clock : Clock) (t : FileTree)
    (files : List FilePath) :
    (Run.failuresOf (files.map (outcomeOf s context clock t))).isEmpty =
      files.all (expands s context t) := by
  induction files with
  | nil => rfl
  | cons file files ih =>
    rw [List.all_cons, ← ih, expands, Run.failuresOf, Run.failuresOf, List.map_cons,
      List.flatMap_cons, outcomeOf]
    rcases hresult : expansionOf s context t file with ⟨result, unit⟩
    cases result with
    | error failures =>
      have hne : failures ≠ [] := expandSource_error_ne_nil hresult
      simp [hne, Except.isOk, Except.toBool]
    | ok text => rfl

/-- The manifest is written behind the outputs, into a directory that is there by then. -/
theorem writeManifest_wrote (h : t.Wrote texts t')
    (hclear : t.Clear (texts.map (·.1) ++ s.output.manifest.toList))
    (hway : ∀ p ∈ s.output.manifest, ∀ a ∈ t.way p,
      t.get? a = some .directory ∨ ∃ w ∈ texts, a ∈ t.way w.1) (m : Manifest) :
    ∃ t'', Run.writeManifest s.output m t' = .ok t'' ∧
      t.Wrote (texts ++ s.output.manifest.toList.map fun p => (p, m.toJson.pretty)) t'' := by
  unfold Run.writeManifest
  cases hmanifest : s.output.manifest with
  | none => exact ⟨t', rfl, by simpa using h⟩
  | some p =>
    rw [hmanifest] at hclear hway
    have hnext : t.Writable p ∧ t.Apart texts p := hclear.next (List.Sublist.refl _)
    have hthere : t'.Furnished (t.way p) t' :=
      .refl h.sound fun a ha => (h.directories a).mpr (hway p rfl a ha)
    obtain ⟨t'', hwritten, hwrote⟩ := h.put hnext.1 hnext.2 hthere m.toJson.pretty
    exact ⟨t'', by simp only [hwritten, Except.mapError], hwrote⟩

/-- All places that a run over host files may write to. -/
def destinations (s : Settings) (files : List FilePath) : List FilePath :=
  files.flatMap (outputs s.output) ++ s.output.manifest.toList

/-- Host files that can be expanded together: all that a run over them writes goes to places of its
own, where no host file is. -/
structure Isolated (s : Settings) (context : TypeContext) (t : FileTree)
    (files : List FilePath) : Prop where
  sound : t.Sound
  clear : t.Clear (destinations s files)
  inputs : ∀ p ∈ files.flatMap (outputs s.output), ∀ file ∈ files, t.place p ≠ t.place file
  /-- The manifest goes to a directory that is there, or that is made for an output. -/
  manifest : ∀ p ∈ s.output.manifest, ∀ a ∈ t.way p,
    t.get? a = some .directory ∨ ∃ w ∈ files.flatMap (textsOf s context t), a ∈ t.way w.1

/-- The files that paths stand for, in the order of their parts, each once. -/
def filesOf (paths : List String) : List FilePath :=
  Collect.dropRepeated ((paths.map FilePath.mk).mergeSort FilePath.le)

/-- What a run over host files writes. -/
def writtenBy (s : Settings) (context : TypeContext) (clock : Clock) (t : FileTree)
    (files : List FilePath) : List (FilePath × String) :=
  files.flatMap (textsOf s context t) ++
    s.output.manifest.toList.map fun p => (p, (manifestFor s context clock t files).toJson.pretty)

/-- The files that paths stand for come in order, and all of them come. -/
theorem filesOf_order (paths : List String) :
    (filesOf paths).Pairwise FilePath.Before ∧ (∀ file ∈ filesOf paths, file.text ∈ paths) ∧
      ∀ path ∈ paths, ∃ file ∈ filesOf paths, file.same ⟨path⟩ := by
  refine ⟨Collect.dropRepeated_pairwise (Collect.sorted_mergeSort _), fun file hfile => ?_,
    fun path hpath => ?_⟩
  · have hsorted := List.mem_mergeSort.mp (Collect.dropRepeated_subset _ file hfile)
    obtain ⟨path, hpath, rfl⟩ := List.mem_map.mp hsorted
    exact hpath
  · exact Collect.exists_same_dropRepeated (List.mem_mergeSort.mpr (List.mem_map_of_mem hpath))

theorem paths_textsOf_sublist (s : Settings) (context : TypeContext) (t : FileTree)
    (files : List FilePath) :
    ((files.flatMap (textsOf s context t)).map (·.1)).Sublist
      (files.flatMap (outputs s.output)) := by
  induction files with
  | nil => exact .slnil
  | cons file files ih =>
    rw [List.flatMap_cons, List.map_append]
    exact (textsOf_sublist s context t file).append ih

theorem paths_writtenBy_sublist (s : Settings) (context : TypeContext) (clock : Clock)
    (t : FileTree) (files : List FilePath) :
    ((writtenBy s context clock t files).map (·.1)).Sublist (destinations s files) := by
  rw [writtenBy, List.map_append, List.map_map]
  refine (paths_textsOf_sublist s context t files).append ?_
  simp [Function.comp_def]

/-- A run over files from where they have been collected on. -/
theorem expand_isolates {paths : List String} (compiler : Compiler) (clock : Clock)
    (printLink : Bool) (hcompile : s.toolchain.compile = false)
    (hcontext : s.typeContext = .ok context)
    (hcollected : Collect.files s t paths = .ok files)
    (hfiles : ∀ file ∈ files,
      (t.readText file).isOk ∧ file.extension? ≠ some foreignExtension)
    (hisolated : Isolated s context t files) :
    let run := Run.expand s compiler clock paths printLink t
    run.code = .ok (if files.all (expands s context t) then 0 else 1) ∧
      t.Wrote (writtenBy s context clock t files) run.tree := by
  intro run
  obtain ⟨t₁, hexpanded, hwrote₁⟩ := expandFiles_wrote compiler clock hcompile
    (.nil hisolated.sound) hfiles (hisolated.clear.sublist (List.sublist_append_left _ _))
    hisolated.inputs
  have hclear : t.Clear ((files.flatMap (textsOf s context t)).map (·.1) ++
      s.output.manifest.toList) :=
    hisolated.clear.sublist ((paths_textsOf_sublist s context t files).append_right _)
  obtain ⟨t₂, hmanifest, hwrote₂⟩ := writeManifest_wrote hwrote₁ hclear hisolated.manifest
    (manifestFor s context clock t files)
  have houtcomes : (files.map fun file => Except.ok (outcomeOf s context clock t file)).mapM id =
      (.ok (files.map (outcomeOf s context clock t)) : Except RunError _) :=
    mapM_eq_ok_iff.mpr (by simp [List.forall₂_map_left_iff, List.forall₂_map_right_iff])
  have hrun : run = Run.finish s.output printLink (files.map (outcomeOf s context clock t)) t₁ := by
    simp only [run, Run.expand, hcollected, hcontext, hexpanded, houtcomes]
  rw [hrun, Run.finish, manifestOf_outcomes, failuresOf_outcomes, hmanifest]
  dsimp only
  split
  next hall => exact ⟨rfl, hwrote₂⟩
  next hall => exact ⟨rfl, hwrote₂⟩

/-- **Every host file is expanded on its own.** A run over paths of files, none of them foreign,
that does not compile and whose destinations are clear looks at the files in the order of their
paths. What it writes is the new text of every file that can be expanded, its foreign file if that
holds anything, and the manifest; each of these texts is there at the end, and nothing else in the
tree has changed but for the directories that hold them. Read as JSON, the manifest lists the files
that can be expanded in their order, each with what has been made of it. The run ends with 0 if all
files can be expanded and with 1 otherwise. -/
theorem Arguments.run_isolates {a : Arguments} {loaded : Settings} {paths : List String}
    {outDirectory manifest : Option FilePath} {compile printLink : Bool} (compiler : Compiler)
    (clock : Clock) (hsettings : Run.settingsFor a t = .ok loaded)
    (hcommand : a.command = .expand paths outDirectory compile manifest printLink)
    (hoptions : Run.withOptions loaded outDirectory compile manifest = s)
    (hcompile : s.toolchain.compile = false) (hcontext : s.typeContext = .ok context)
    (hpaths : ∀ path ∈ paths,
      (t.readText ⟨path⟩).isOk ∧ FilePath.extension? ⟨path⟩ ≠ some foreignExtension)
    (hisolated : Isolated s context t (filesOf paths)) :
    let files := filesOf paths
    let run := a.run compiler t clock
    (files.Pairwise FilePath.Before ∧ (∀ file ∈ files, file.text ∈ paths) ∧
      ∀ path ∈ paths, ∃ file ∈ files, file.same ⟨path⟩) ∧
    run.code = .ok (if files.all (expands s context t) then 0 else 1) ∧
    t.Wrote (writtenBy s context clock t files) run.tree ∧
    (∀ w ∈ writtenBy s context clock t files, run.tree.readText w.1 = .ok w.2) ∧
    ∀ p ∈ s.output.manifest, ∃ text units, run.tree.readText p = .ok text ∧
      Json.read text = some (.object [("units", .array units), ("cargo_directives", .array []),
        ("linker_flags", .array [])]) ∧
      List.Forall₂
        (fun file j => ReportsOn s.output file (expansionOf s context t file).2 (clock file) j)
        (files.filter (expands s context t)) units := by
  intro files run
  obtain ⟨hsorted, hpath, hall⟩ := filesOf_order paths
  have hcollected : Collect.files s t paths = .ok files := Collect.files_eq s fun path hmem => by
    obtain ⟨source, hsource⟩ := except_eq_ok_of_isOk (hpaths path hmem).1
    exact FileTree.isFile_of_readText hsource
  have hrun : run = Run.expand s compiler clock paths printLink t := by
    simp only [run, Arguments.run, hsettings, hcommand, hoptions]
  obtain ⟨hcode, hwrote⟩ := expand_isolates compiler clock printLink hcompile hcontext hcollected
    (fun file hfile => hpaths file.text (hpath file hfile)) hisolated
  rw [← hrun] at hcode hwrote
  have hread : ∀ w ∈ writtenBy s context clock t files, run.tree.readText w.1 = .ok w.2 := by
    intro w hw
    have hdestination : w.1 ∈ destinations s files :=
      (paths_writtenBy_sublist s context clock t files).subset (List.mem_map_of_mem hw)
    exact hwrote.readText hw
      (FileTree.writable_of_canWrite (hisolated.clear.writable _ hdestination))
  refine ⟨⟨hsorted, hpath, hall⟩, hcode, hwrote, hread, fun p hp => ?_⟩
  obtain ⟨units, hunits, htells⟩ := read_manifestFor s context clock t files
  refine ⟨_, units, hread (p, _) (List.mem_append_right _ ?_), hunits, htells⟩
  exact List.mem_map_of_mem (Option.mem_toList.mpr hp)

/-- A file with foreign parts, one that cannot be expanded, and one without foreign parts. -/
theorem Arguments.run_isolates_mixed :
    let paths := ["a.hs", "b.hs", "c.hs"]
    let a : Arguments :=
      ⟨0, .compact, none, none, .expand paths none false (some ⟨"units.json"⟩) false⟩
    let t : FileTree := ⟨[], [(["a.hs"], .file (.text "[rustItems| struct A; |]\n")),
      (["b.hs"], .file (.text "b = [rust| i32")), (["c.hs"], .file (.text "main = pure ()\n"))]⟩
    let s := Run.withOptions .standard none false (some ⟨"units.json"⟩)
    let context := s.typeContext.toOption.getD .empty
    let clock : Clock := fun file => file.text.length
    let run := a.run .none t clock
    let report := "\n".intercalate ["\x7b",
      "  \"units\": [",
      "    \x7b",
      "      \"source\": \"a.hs\",",
      "      \"host_output\": \"splicer-out/a.hs\",",
      "      \"unit\": \"a.hs\",",
      "      \"foreign\": \x7b",
      "        \"path\": \"splicer-out/a.rs\",",
      "        \"functions\": 0,",
      "        \"items\": 1,",
      "        \"bytes\": 128",
      "      \x7d,",
      "      \"call_sites\": [],",
      "      \"duration_ms\": 4",
      "    \x7d,",
      "    \x7b",
      "      \"source\": \"c.hs\",",
      "      \"host_output\": \"splicer-out/c.hs\",",
      "      \"unit\": \"c.hs\",",
      "      \"foreign\": null,",
      "      \"call_sites\": [],",
      "      \"duration_ms\": 4",
      "    \x7d",
      "  ],",
      "  \"cargo_directives\": [],",
      "  \"linker_flags\": []",
      "\x7d"]
    Run.settingsFor a t = .ok .standard ∧ s.toolchain.compile = false ∧
    s.typeContext = .ok context ∧
    (∀ path ∈ paths,
      (t.readText ⟨path⟩).isOk ∧ FilePath.extension? ⟨path⟩ ≠ some foreignExtension) ∧
    Isolated s context t (filesOf paths) ∧
    run.code = .ok 1 ∧
    run.tree.readText (foreignOutput s.output ⟨"a.hs"⟩) =
      .ok ("// @generated by splicer from a.hs. Do not edit.\n" ++
        "#![allow(unused, non_snake_case, clippy::all)]\n\n// a.hs:1:11 (items)\nstruct A;\n") ∧
    run.tree.readText (hostOutput s.output ⟨"c.hs"⟩) = .ok "main = pure ()\n" ∧
    (∀ content, run.tree.get? ["splicer-out", "b.hs"] ≠ some (.file content)) ∧
    run.tree.readText ⟨"units.json"⟩ = .ok report ∧
    ∃ units, Json.read report = some (.object [("units", .array units),
        ("cargo_directives", .array []), ("linker_flags", .array [])]) ∧
      List.Forall₂
        (fun file j => ReportsOn s.output file (expansionOf s context t file).2 (clock file) j)
        [⟨"a.hs"⟩, ⟨"c.hs"⟩] units := by
  intro paths a t s context clock run report
  have hfiles : filesOf paths = [⟨"a.hs"⟩, ⟨"b.hs"⟩, ⟨"c.hs"⟩] :=
    congrArg Collect.dropRepeated (List.mergeSort_of_pairwise (by decide))
  have hsettings : Run.settingsFor a t = .ok .standard := by
    have hancestors : (Run.absolutePath []).ancestors = [⟨"/"⟩] := by decide +kernel
    have hnone : t.isFile (FilePath.join ⟨"/"⟩ Settings.fileName) = false := by decide +kernel
    simp only [Run.settingsFor, a, Settings.discover, t, hancestors, Settings.firstOf]
    rw [hnone, if_neg Bool.false_ne_true]
    rfl
  have hcontext : s.typeContext = .ok context := by
    have hok : s.typeContext.isOk := by decide +kernel
    obtain ⟨c, hc⟩ := except_eq_ok_of_isOk hok
    simp only [context, hc, Except.toOption, Option.getD_some]
  have hpaths : ∀ path ∈ paths,
      (t.readText ⟨path⟩).isOk ∧ FilePath.extension? ⟨path⟩ ≠ some foreignExtension := by
    decide +kernel
  have hisolated : Isolated s context t (filesOf paths) := by
    rw [hfiles]
    have hway : ∀ a ∈ t.way ⟨"units.json"⟩, t.get? a = some .directory := by decide +kernel
    refine ⟨FileTree.sound_of_entries (by decide +kernel) (by decide +kernel),
      ⟨by decide +kernel, by decide +kernel, by decide +kernel⟩, by decide +kernel,
      fun p hp a ha => .inl (hway a ?_)⟩
    obtain rfl : ⟨"units.json"⟩ = p := Option.some.inj hp
    exact ha
  obtain ⟨-, hcode, hwrote, hread, htells⟩ :=
    run_isolates .none clock hsettings rfl rfl rfl hcontext hpaths hisolated
  rw [hfiles] at hcode hwrote hread htells
  have hexpanded : [⟨"a.hs"⟩, ⟨"b.hs"⟩, ⟨"c.hs"⟩].filter (expands s context t) =
      [⟨"a.hs"⟩, ⟨"c.hs"⟩] := by decide +kernel
  have hreport : run.tree.readText ⟨"units.json"⟩ = .ok report :=
    hread (⟨"units.json"⟩, report) (by decide +kernel)
  refine ⟨hsettings, rfl, hcontext, hpaths, hisolated, ?_, hread (_, _) ?_, hread (_, _) ?_, ?_,
    hreport, ?_⟩
  · have hfailed : [⟨"a.hs"⟩, ⟨"b.hs"⟩, ⟨"c.hs"⟩].all (expands s context t) = false := by
      decide +kernel
    rw [hcode, hfailed, if_neg Bool.false_ne_true]
  · decide +kernel
  · decide +kernel
  · intro content hfile
    have hnone : ∀ w ∈ writtenBy s context clock t [⟨"a.hs"⟩, ⟨"b.hs"⟩, ⟨"c.hs"⟩],
        t.place w.1 ≠ ["splicer-out", "b.hs"] := by decide +kernel
    rcases (hwrote.files _ content).mp hfile with ⟨w, hw, hplace, -⟩ | ⟨hbefore, -⟩
    · exact hnone w hw hplace.symm
    · cases hbefore
  · obtain ⟨text, units, htext, hunits, htold⟩ := htells ⟨"units.json"⟩ rfl
    rw [hexpanded] at htold
    obtain rfl : report = text := Except.ok.inj (hreport.symm.trans htext)
    exact ⟨units, hunits, htold⟩

end Run

end Graft

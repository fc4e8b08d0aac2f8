import Graft.Call.Haskell
import Graft.Command.Arguments
import Graft.Command.Collect
import Graft.Command.Report
import Graft.Settings.Text
import Graft.Types.Listing
import Graft.Unit.Expand

/-!
# Running a command

A run takes a file tree and gives another, with what it prints and its exit code. Every host file is
expanded on its own: a file that cannot be expanded keeps none of the others from being written.
-/

namespace Graft

/-! ## One host file -/

/-- Where the new text of a host file goes: below the output directory, by its ordinary names. -/
def hostOutput (s : OutputSettings) (file : FilePath) : FilePath := s.directory.join file.ordinary

def foreignExtension : String := "rs"

def foreignOutput (s : OutputSettings) (file : FilePath) : FilePath :=
  (hostOutput s file).withExtension foreignExtension

inductive FileOutcome where
  | expanded (report : UnitReport) (link : Option LinkSpec)
  | failed (failures : List Diagnostic)
  deriving DecidableEq, Repr

/-- How the foreign file of a unit is compiled. The crate is named after the host file and tagged
like its symbols, so that no two units make the same library. -/
def unitInvocation (s : Settings) (file foreign : FilePath) (unit : String) : Invocation :=
  (Invocation.ofSettings s.toolchain s.unit.edition foreign
    (Invocation.artifactDirectory s.output.directory)).named
      (Invocation.stemOf file ++ "_" ++ Symbol.unitTag unit)

def compileUnit (s : Settings) (compiler : Compiler) (file : FilePath) (unit : String)
    (foreign : Option FlushedUnit) (t : FileTree) : Except RunError (Option LinkSpec) × FileTree :=
  match foreign with
  | none => (.ok none, t)
  | some f =>
    if s.toolchain.compile then
      match (unitInvocation s file ⟨f.path⟩ unit).run compiler t with
      | (.ok link, t) => (.ok (some link), t)
      | (.error fault, t) => (.error (.toolchain fault), t)
    else (.ok none, t)

def writeHost (t : FileTree) (p : FilePath) (text : String) : Except RunError FileTree := do
  let t ← (t.withParent p).mapError fun (parent, fault) => .write parent fault
  (t.writeText p text).mapError (.write p)

/-- How many milliseconds the expansion of each host file takes. -/
abbrev Clock := FilePath → Nat

def writeUnit (s : Settings) (compiler : Compiler) (clock : Clock) (file : FilePath)
    (unit : CompilationUnit) (text : String) (t : FileTree) :
    Except RunError FileOutcome × FileTree :=
  let output := hostOutput s.output file
  -- The foreign file comes first, so that no host file calls what is not there.
  match unit.sink.flush t (foreignOutput s.output file) with
  | .error fault => (.error (.flush fault), t)
  | .ok (foreign, t) =>
    match writeHost t output text with
    | .error e => (.error e, t)
    | .ok t =>
      match compileUnit s compiler file unit.name foreign t with
      | (.error e, t) => (.error e, t)
      | (.ok link, t) =>
        (.ok (.expanded ⟨file, output, unit.name, foreign, unit.callSites, clock file⟩ link), t)

def expandFile (s : Settings) (context : TypeContext) (compiler : Compiler) (clock : Clock)
    (t : FileTree) (file : FilePath) : Except RunError FileOutcome × FileTree :=
  if file.extension? = some foreignExtension then (.error (.foreignExtension file), t)
  else
    match t.readText file with
    | .error fault => (.error (.read file fault), t)
    | .ok source =>
      match (CompilationUnit.ofName file.text s.unitOptions context).expandSource source haskell
          .open with
      | (.error failures, _) => (.ok (.failed failures), t)
      | (.ok text, unit) => writeUnit s compiler clock file unit text t

def expandFiles (s : Settings) (context : TypeContext) (compiler : Compiler) (clock : Clock)
    (t : FileTree) : List FilePath → List (Except RunError FileOutcome) × FileTree
  | [] => ([], t)
  | file :: files =>
    let (outcome, t) := expandFile s context compiler clock t file
    let (outcomes, t) := expandFiles s context compiler clock t files
    (outcome :: outcomes, t)

/-! ## A whole run -/

structure Run where
  code : Except RunError Nat
  output : String
  messages : String
  tree : FileTree

namespace Run

def stopped (e : RunError) (t : FileTree) : Run := ⟨.error e, "", "", t⟩

def manifestOf (outcomes : List FileOutcome) : Manifest :=
  let add (m : Manifest) : FileOutcome → Manifest
    | .expanded report link =>
      { m with
        units := m.units ++ [report]
        link := match link with
          | some l => m.link.merge l
          | none => m.link }
    | .failed _ => m
  outcomes.foldl add ⟨[], .empty⟩

def failuresOf (outcomes : List FileOutcome) : List Diagnostic :=
  outcomes.flatMap fun
    | .failed failures => failures
    | .expanded .. => []

def writeManifest (s : OutputSettings) (m : Manifest) (t : FileTree) : Except RunError FileTree :=
  match s.manifest with
  | none => .ok t
  | some p => (t.writeText p m.toJson.pretty).mapError (.write p)

def finish (s : OutputSettings) (printLink : Bool) (outcomes : List FileOutcome) (t : FileTree) :
    Run :=
  let m := manifestOf outcomes
  let failures := failuresOf outcomes
  -- The manifest tells of the files that succeeded, whether or not others failed.
  match writeManifest s m t with
  | .error e => stopped e t
  | .ok t =>
    let link := if printLink then String.join (m.link.cargoDirectives.map (· ++ "\n")) else ""
    if failures.isEmpty then ⟨.ok 0, link ++ m.summary, "", t⟩
    else ⟨.ok 1, link, failureSummary failures, t⟩

/-- Expands all files that arguments stand for. The first error, by the order of the files, ends the
run once all files have been looked at. -/
def expand (s : Settings) (compiler : Compiler) (clock : Clock) (arguments : List String)
    (printLink : Bool) (t : FileTree) : Run :=
  match Collect.files s t arguments with
  | .error e => stopped e t
  | .ok files =>
    match s.typeContext with
    | .error e => stopped (.settings e) t
    | .ok context =>
      let (outcomes, t) := expandFiles s context compiler clock t files
      -- By now all files that can be expanded are written.
      match outcomes.mapM id with
      | .error e => stopped e t
      | .ok outcomes => finish s.output printLink outcomes t

def init (directory : FilePath) (force : Bool) (t : FileTree) : Run :=
  let p := directory.join Settings.fileName
  if t.contains p && !force then stopped (.alreadyExists p) t
  else
    match t.writeText p Settings.standard.render with
    | .error fault => stopped (.write p fault) t
    | .ok t => ⟨.ok 0, "Wrote " ++ p.text ++ "\n", "", t⟩

def types (s : Settings) (t : FileTree) : Run :=
  match s.typeContext with
  | .error e => stopped (.settings e) t
  | .ok context => ⟨.ok 0, context.listing, "", t⟩

def absolutePath (a : Address) : FilePath := ⟨"/" ++ "/".intercalate a⟩

def settingsFor (a : Arguments) (t : FileTree) : Except SettingsError Settings :=
  match a.config with
  | some p => Settings.load t p
  | none => (Settings.discover t (absolutePath t.current)).map (·.1)

def withOptions (s : Settings) (outDirectory : Option FilePath) (compile : Bool)
    (manifest : Option FilePath) : Settings :=
  { s with
    output := { s.output with
      directory := outDirectory.getD s.output.directory
      manifest := manifest <|> s.output.manifest }
    toolchain := { s.toolchain with compile := s.toolchain.compile || compile } }

end Run

/-- Runs a command. Without a clock no time passes. -/
def Arguments.run (a : Arguments) (compiler : Compiler) (t : FileTree)
    (clock : Clock := fun _ => 0) : Run :=
  match Run.settingsFor a t with
  | .error e => .stopped (.settings e) t
  | .ok s =>
    match a.command with
    | .expand paths outDirectory compile manifest printLink =>
      .expand (Run.withOptions s outDirectory compile manifest) compiler clock paths printLink t
    | .init directory force => .init directory force t
    | .types => .types s t

end Graft

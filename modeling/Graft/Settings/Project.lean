import Graft.Diagnostic.EditDistance
import Graft.Files.Pattern
import Graft.Files.Tree
import Graft.Settings.Decode

/-!
# Settings at work

Finding and loading settings, the type context they ask for, and the files they let through.
-/

namespace Graft

inductive SettingsError where
  | unreadable (path : FilePath) (fault : FileFault)
  | notToml
  | misfit (fault : SettingsFault)
  | unknownContext (name : String) (close : List String)
  | invalidMapping (key reason : String)
  | invalidPattern (pattern : String) (fault : PatternFault)
  deriving Repr

def SettingsError.message : SettingsError → String
  | unreadable path fault => "failed to read config " ++ path.text ++ ": " ++ fault.message
  | notToml => "failed to parse config"
  | misfit fault => "failed to parse config: " ++ fault.message
  | unknownContext name close =>
    "unknown type context `" ++ name ++ "`" ++
      if close.isEmpty then "" else " (did you mean `" ++ "`, `".intercalate close ++ "`?)"
  | invalidMapping key reason =>
    "invalid foreign type `" ++ key ++ "` in [types.mappings]: " ++ reason
  | invalidPattern pattern fault =>
    "invalid path pattern `" ++ pattern ++ "`: " ++ fault.message

namespace Settings

def fileName : FilePath := ⟨"splicer.toml"⟩

def ofText (s : String) : Except SettingsError Settings :=
  match Toml.read s with
  | none => .error .notToml
  | some es => (ofEntries es).mapError .misfit

def load (t : FileTree) (p : FilePath) : Except SettingsError Settings :=
  match t.readText p with
  | .ok s => ofText s
  | .error fault => .error (.unreadable p fault)

def firstOf (t : FileTree) : List FilePath → Except SettingsError (Settings × Option FilePath)
  | [] => .ok (standard, none)
  | directory :: more =>
    let p := directory.join fileName
    if t.isFile p then (load t p).map fun s => (s, some p) else firstOf t more

def discover (t : FileTree) (start : FilePath) :
    Except SettingsError (Settings × Option FilePath) :=
  firstOf t start.ancestors

/-! ## Types -/

def namedContext (name : String) : Except SettingsError TypeContext :=
  match TypeContext.builtin? name with
  | some c => .ok c
  | none =>
    .error (.unknownContext name (similarNames name (TypeContext.builtins.map (·.1)) 3))

def correspondence (mapping : String × String) : Except SettingsError (ForeignType × HostType) :=
  match ForeignType.read mapping.1 with
  | .ok t => .ok (t, .ofText mapping.2)
  | .error e => .error (.invalidMapping mapping.1 e.message)

/-- The context that is active at the start of every unit: the named contexts one over the other,
and the mappings over all of them. -/
def typeContext (s : Settings) : Except SettingsError TypeContext := do
  let contexts ← s.types.contexts.mapM namedContext
  let mapped ← s.types.mappings.mapM correspondence
  return (contexts.foldl TypeContext.extend .empty).extend (.ofEntries mapped)

/-! ## Paths -/

/-- Whether one of some patterns matches a path. Patterns behind that one are not read. -/
def anyMatches (patterns : List String) (p : FilePath) : Except SettingsError Bool :=
  match patterns with
  | [] => .ok false
  | s :: more =>
    match PathPattern.ofText s with
    | .error fault => .error (.invalidPattern s fault)
    | .ok pattern => if pattern.accepts p.text then .ok true else anyMatches more p

def admits (s : Settings) (p : FilePath) : Except SettingsError Bool := do
  if ← anyMatches s.paths.excluded p then return false
  else if s.paths.included.isEmpty then return true
  else anyMatches s.paths.included p

end Settings

end Graft

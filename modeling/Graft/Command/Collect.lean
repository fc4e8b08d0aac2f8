import Graft.Files.Search
import Graft.Settings.Project
import Graft.Toolchain.Compiler
import Graft.Unit.Flush

/-!
# Files to expand

An argument is a file, a directory whose files the settings let through, or a pattern. All files
are taken together in the order of their paths, each once.
-/

namespace Graft

inductive RunError where
  | settings (e : SettingsError)
  | flush (fault : FlushFault)
  | toolchain (fault : ToolchainFault)
  | pattern (text : String) (fault : PatternFault)
  | foreignExtension (path : FilePath)
  | pathNotFound (path : FilePath)
  | alreadyExists (path : FilePath)
  | read (path : FilePath) (fault : FileFault)
  | write (path : FilePath) (fault : FileFault)
  deriving Repr

def RunError.message : RunError → String
  | settings e => e.message
  | flush fault => fault.message
  | toolchain fault => fault.message
  | pattern text fault => "invalid glob pattern `" ++ text ++ "`: " ++ fault.message
  | foreignExtension path =>
    path.text ++ " has the `.rs` extension of generated foreign units"
  | pathNotFound path => "path not found: " ++ path.text
  | alreadyExists path => path.text ++ " already exists (use --force to overwrite)"
  | read path fault => "failed to read " ++ path.text ++ ": " ++ fault.message
  | write path fault => "failed to write " ++ path.text ++ ": " ++ fault.message

namespace Collect

def matching (t : FileTree) (pattern : String) : Except RunError (List FilePath) :=
  match FileSearch.ofText pattern with
  | .ok search => .ok (search.results t)
  | .error fault => .error (.pattern pattern fault)

def patternBelow (directory : String) : String :=
  -- The name of the directory is taken for a pattern as it stands.
  .ofList (directory.toList.reverse.dropWhile (· = '/')).reverse ++ "/**/*"

def isAdmitted (s : Settings) (t : FileTree) (directory p : FilePath) : Except RunError Bool :=
  if t.isFile p then
    (s.admits ((p.relativeTo? directory).getD p)).mapError .settings
  else .ok false

def ofArgument (s : Settings) (t : FileTree) (argument : String) :
    Except RunError (List FilePath) := do
  let p : FilePath := ⟨argument⟩
  if t.isFile p then return [p]
  else if t.isDirectory p then
    (← matching t (patternBelow argument)).filterM (isAdmitted s t p)
  -- What exists under this very name is no pattern, whatever its characters.
  else if argument.toList.any fun c => c = '*' || c = '?' || c = '[' then
    return (← matching t argument).filter t.isFile
  else throw (.pathNotFound p)

/-- Drops paths with the same parts as the one before them. -/
def dropRepeated : List FilePath → List FilePath
  | [] => []
  | p :: ps =>
    match dropRepeated ps with
    | [] => [p]
    | q :: qs => if p.same q then p :: qs else p :: q :: qs

def files (s : Settings) (t : FileTree) (arguments : List String) :
    Except RunError (List FilePath) := do
  let found ← arguments.mapM (ofArgument s t)
  return dropRepeated (found.flatten.mergeSort FilePath.le)

end Collect

end Graft

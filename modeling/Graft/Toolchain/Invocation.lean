import Graft.Settings.Basic
import Graft.Toolchain.Link

/-!
# Calling the compiler

The command line for the foreign file of a unit, and what comes of it.
-/

namespace Graft

structure Invocation where
  compiler : FilePath
  source : FilePath
  directory : FilePath
  crateName : String
  crateType : String
  edition : Edition
  optLevel : String
  externs : List (String × FilePath)
  deriving DecidableEq, Repr

namespace Invocation

def lowerCase (s : String) : String := .ofList (s.toList.flatMap lowercaseAscii)

def stemOf (file : FilePath) : String := lowerCase (file.stem?.getD "")

/-- The call for a file where nothing else is set. The crate is named after the file. -/
def ofFile (source directory : FilePath) : Invocation where
  compiler := ToolchainSettings.standard.compiler
  source := source
  directory := directory
  crateName := Symbol.sanitize (stemOf source)
  crateType := ToolchainSettings.standard.crateType
  edition := .standard
  optLevel := ToolchainSettings.standard.optLevel
  externs := []

def ofSettings (s : ToolchainSettings) (edition : Edition) (source directory : FilePath) :
    Invocation :=
  { ofFile source directory with
    compiler := s.compiler
    crateType := s.crateType
    optLevel := s.optLevel
    edition := edition
    externs := s.externs.map fun (name, path) => (name, ⟨path⟩) }

def named (i : Invocation) (name : String) : Invocation :=
  { i with crateName := Symbol.sanitize name }

def isStatic (i : Invocation) : Bool := i.crateType = "staticlib"

def args (i : Invocation) : List String :=
  ["--crate-name", i.crateName, "--crate-type", i.crateType, "--edition", i.edition.name,
    "-C", "opt-level=" ++ i.optLevel, "--out-dir", i.directory.text] ++
    (if i.isStatic then ["--print", "native-static-libs"] else []) ++
    (i.externs.flatMap fun (name, path) => ["--extern", name ++ "=" ++ path.text]) ++
    [i.source.text]

def artifactName (i : Invocation) : String :=
  match i.crateType with
  | "staticlib" => "lib" ++ i.crateName ++ ".a"
  | "cdylib" | "dylib" => "lib" ++ i.crateName ++ ".so"
  | "bin" => i.crateName
  | _ => "lib" ++ i.crateName ++ ".rlib"

def artifact (i : Invocation) : FilePath := i.directory.join ⟨i.artifactName⟩

def linkSpec (i : Invocation) : LinkSpec :=
  ⟨[i.directory], [(if i.isStatic then .static else .dynamic, i.crateName)], []⟩

def artifactDirectory (output : FilePath) : FilePath := output.join ⟨"lib"⟩

end Invocation

end Graft

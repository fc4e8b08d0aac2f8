import Graft.Files.Tree
import Graft.Toolchain.Invocation

/-!
# Compilers

A compiler is a program that is called with arguments on a file tree. What it does there is its own
business; what is known of it afterwards are its exit status and its messages.
-/

namespace Graft

structure CompilerRun where
  status : Nat
  messages : String
  tree : FileTree

/-- Runs a program with arguments, if there is such a program. -/
abbrev Compiler := FilePath → List String → FileTree → Except FileFault CompilerRun

def Compiler.none : Compiler := fun _ _ _ => .error .notFound

inductive ToolchainFault where
  | spawn (compiler : FilePath) (fault : FileFault)
  | directory (path : FilePath) (fault : FileFault)
  | failed (source : FilePath) (status : Nat) (messages : String)
  deriving DecidableEq, Repr

def ToolchainFault.message : ToolchainFault → String
  | spawn compiler fault => "failed to run " ++ compiler.text ++ ": " ++ fault.message
  | directory path fault => "failed to create " ++ path.text ++ ": " ++ fault.message
  | failed source status messages =>
    "rustc failed on " ++ source.text ++ " (exit status: " ++ toString status ++ "):\n" ++ messages

def Invocation.run (i : Invocation) (compiler : Compiler) (t : FileTree) :
    Except ToolchainFault LinkSpec × FileTree :=
  match t.makeDirectories i.directory with
  | .error fault => (.error (.directory i.directory fault), t)
  | .ok t =>
    match compiler i.compiler i.args t with
    | .error fault => (.error (.spawn i.compiler fault), t)
    | .ok r =>
      if r.status = 0 then
        (.ok { i.linkSpec with native := LinkSpec.nativeFlags r.messages }, r.tree)
      else (.error (.failed i.source r.status r.messages), r.tree)

end Graft

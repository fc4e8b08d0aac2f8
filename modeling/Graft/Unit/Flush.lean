import Graft.Files.Tree
import Graft.Unit.Sink

/-!
# Writing foreign files

A unit that holds anything is written as one file; a unit that holds nothing leaves no trace.
-/

namespace Graft

inductive FlushFault where
  | directory (path : FilePath) (fault : FileFault)
  | file (path : FilePath) (fault : FileFault)
  deriving DecidableEq, Repr

def FlushFault.message : FlushFault → String
  | directory path fault => "failed to create directory " ++ path.text ++ ": " ++ fault.message
  | file path fault => "failed to write " ++ path.text ++ ": " ++ fault.message

def FileTree.withParent (t : FileTree) (p : FilePath) : Except (FilePath × FileFault) FileTree :=
  match p.parent? with
  | none => .ok t
  | some parent => (t.makeDirectories parent).mapError fun fault => (parent, fault)

def Sink.flush (s : Sink) (t : FileTree) (p : FilePath) :
    Except FlushFault (Option FlushedUnit × FileTree) :=
  match s.flushed? p.text with
  | none => .ok (none, t)
  | some (text, flushed) => do
    let t ← (t.withParent p).mapError fun (parent, fault) => .directory parent fault
    let t ← (t.writeText p text).mapError (.file p)
    return (some flushed, t)

end Graft

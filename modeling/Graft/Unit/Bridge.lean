import Graft.Call.Host
import Graft.Text.Bytes
import Graft.Text.Position

/-!
# What a unit asks of its host file

A unit never edits host text. It asks which variables a snippet may name, and reports the
declarations and calls that are to be put into the file.
-/

namespace Graft

structure Site where
  /-- The whole quote, which the call replaces. -/
  span : ByteSpan
  /-- Where the text of the snippet starts. -/
  location : Location
  deriving DecidableEq, Repr

inductive HostScope where
  /-- Whatever can name a variable; the host compiler finds the names that are not bound. -/
  | open
  /-- The given names, sorted and each once. -/
  | fixed (names : List String)
  deriving DecidableEq, Repr

namespace HostScope

def insertName (name : String) : List String → List String
  | [] => [name]
  | n :: ns =>
    if name = n then n :: ns else if name < n then name :: n :: ns else n :: insertName name ns

def ofNames (names : List String) : HostScope :=
  fixed (names.foldl (fun ns n => insertName n ns) [])

def admits (s : HostScope) (isVariable : String → Bool) (name : String) : Bool :=
  match s with
  | .open => isVariable name
  | .fixed names => names.contains name

def names : HostScope → List String
  | .open => []
  | .fixed names => names

end HostScope

structure HostBridge where
  lookup : String → Site → Option String
  /-- The host name that the declaration of a symbol binds. -/
  bindingName : String → String
  visible : Site → List String

inductive BridgeEvent where
  | lookup (name : String)
  | declare (declaration : HostDeclaration)
  | substitute (site : Site) (call : HostCall)
  deriving DecidableEq, Repr

/-- The bridge of a host language and a scope: a variable in scope stands for itself. -/
def HostBridge.ofScope (l : HostLanguage) (scope : HostScope) : HostBridge where
  lookup name _ := if scope.admits l.isVariable name then some name else none
  bindingName := l.bindingName
  visible _ := scope.names

end Graft

import Graft.Call.Foreign
import Graft.Call.Host
import Graft.Types.Context

/-!
# Boundaries

What one snippet becomes on both sides. Types are resolved before anything is generated, so that a
snippet with an unknown type leaves nothing behind.
-/

namespace Graft

structure Signature where
  params : List HostType
  result : HostType
  deriving DecidableEq, Repr

def TypeContext.resolve (c : TypeContext) (type : ForeignType) (position : TypePosition)
    (location : Location) : Except Diagnostic HostType :=
  match c.lookup type with
  | some host => .ok host
  | none => .error (.unmappedType type.spelling position location c.spellings)

namespace Signature

/-- Resolves the types of the parameters, of which the first has the number `index`. -/
def resolveParams (c : TypeContext) (index : Nat) :
    List Placeholder → Except Diagnostic (List HostType)
  | [] => .ok []
  | p :: ps => do
    let host ← c.resolve p.key (.argument index p.name) p.location
    return host :: (← resolveParams c (index + 1) ps)

def resolve (c : TypeContext) (s : Snippet) : Except Diagnostic Signature := do
  let result ← c.resolve s.resultKey .result s.location
  return ⟨← resolveParams c 0 s.params, result⟩

end Signature

structure Boundary where
  function : ForeignFunction
  declaration : HostDeclaration
  call : HostCall
  deriving DecidableEq, Repr

namespace Boundary

/-- The declaration and the call around a foreign function. `binding` is the name declared for it
in the host, `args` are the host expressions that it is applied to. -/
def around (function : ForeignFunction) (binding : String) (signature : Signature)
    (args : List String) : Boundary where
  function := function
  declaration :=
    ⟨function.symbol, binding, function.entry.safety, function.entry.purity, signature.params,
      signature.result⟩
  call := ⟨binding, args⟩

end Boundary

end Graft

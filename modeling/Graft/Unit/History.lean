import Graft.Unit.Basic

/-!
# Histories of a unit

A unit is worked on by operations, one after the other. A history keeps each operation with its
answer, and what the host file was asked and told on the way.
-/

namespace Graft

/-- An operation on a unit. Each expansion has a host file of its own that answers it. -/
inductive UnitOp where
  | setContext (context : TypeContext)
  | expand (entry : EntryPoint) (text : String) (site : Site) (bridge : HostBridge)
  | emitItems (text : String) (location : Location)

inductive UnitReply where
  | contextSet
  | expanded (record : CallSite)
  | emitted (handle : Nat)
  deriving DecidableEq, Repr

def CompilationUnit.perform (u : CompilationUnit) : UnitOp → CompilationUnit.Outcome UnitReply
  | .setContext context =>
    match u.setContext context with
    | .ok v => ⟨.ok .contextSet, v, []⟩
    | .error d => ⟨.error d, u, []⟩
  | .expand entry text site bridge =>
    let o := u.expand entry text site bridge
    ⟨o.result.map .expanded, o.unit, o.events⟩
  | .emitItems text location =>
    match u.emitItems text location with
    | .ok (handle, v) => ⟨.ok (.emitted handle), v, []⟩
    | .error d => ⟨.error d, u, []⟩

/-- Whether the host file is told something, rather than asked. -/
def BridgeEvent.isReport : BridgeEvent → Bool
  | .lookup _ => false
  | .declare _ | .substitute .. => true

structure History where
  unit : CompilationUnit
  answers : List (UnitOp × Except Diagnostic UnitReply)
  events : List BridgeEvent

namespace History

def start (u : CompilationUnit) : History := ⟨u, [], []⟩

def reports (h : History) : List BridgeEvent := h.events.filter (·.isReport)

def succeeded (h : History) : List UnitOp := (h.answers.filter (·.2.isOk)).map (·.1)

def step (h : History) (op : UnitOp) : History :=
  let o := h.unit.perform op
  ⟨o.unit, h.answers ++ [(op, o.result)], h.events ++ o.events⟩

end History

def CompilationUnit.run (u : CompilationUnit) (ops : List UnitOp) : History :=
  ops.foldl History.step (.start u)

end Graft

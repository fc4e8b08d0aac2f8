import Graft.Quote.Scan
import Graft.Unit.Basic
import Graft.Unit.Edits

/-!
# Expanding a host file

Every quote of the file is expanded in turn, also behind one that failed, so that all that is wrong
with the file is reported at once. Only without any failure is there a new host text.
-/

namespace Graft

structure Expansion where
  unit : CompilationUnit
  edits : Edits
  failures : Collector

namespace Expansion

def step (l : HostLanguage) (scope : HostScope) (e : Expansion) (q : Quote) : Expansion :=
  let site : Site := ⟨q.span, q.bodyLocation⟩
  match QuoteKind.ofQuoter? q.quoter with
  -- A scan for these quoters finds no others.
  | none => e
  | some (.expression entry) =>
    let o := e.unit.expand entry q.body site (.ofScope l scope)
    { unit := o.unit
      edits := o.events.foldl (Edits.record l) e.edits
      failures := match o.result with
        | .ok _ => e.failures
        | .error d => e.failures.add d }
  | some .items =>
    match e.unit.emitItems q.body site.location with
    -- Items leave nothing behind in the host text.
    | .ok (_, unit) => { e with unit := unit, edits := e.edits.remove q.span }
    | .error d => { e with failures := e.failures.add d }

def run (l : HostLanguage) (scope : HostScope) (unit : CompilationUnit) (quotes : List Quote) :
    Expansion :=
  quotes.foldl (step l scope) ⟨unit, .empty, .empty Collector.standardBound⟩

/-- The host text, unless something failed. The spans of scanned quotes lie in the source in order,
so all of them can be replaced and the source is never given back for want of that. -/
def finish (l : HostLanguage) (source : String) (e : Expansion) :
    Except (List Diagnostic) String :=
  if e.failures.collected.isEmpty then
    match e.edits.apply l e.unit.name source with
    | .ok text => .ok text
    | .error _ => .ok source
  else .error e.failures.collected

end Expansion

def CompilationUnit.expandSource (unit : CompilationUnit) (source : String) (l : HostLanguage)
    (scope : HostScope) : Except (List Diagnostic) String × CompilationUnit :=
  match Quote.scan source l.comments QuoteKind.isQuoter with
  | .error d => (.error [d.inFile unit.name], unit)
  | .ok quotes =>
    let e := Expansion.run l scope unit quotes
    (e.finish l source, e.unit)

end Graft

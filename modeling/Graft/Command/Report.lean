import Graft.Json.Records
import Graft.Toolchain.Link

/-!
# Reports

What a run tells of itself: a manifest of every unit and call, and a summary.
-/

namespace Graft

structure UnitReport where
  source : FilePath
  hostOutput : FilePath
  unit : String
  foreign : Option FlushedUnit
  callSites : List CallSite
  /-- In milliseconds. -/
  duration : Nat
  deriving DecidableEq, Repr

def UnitReport.toJson (r : UnitReport) : Json :=
  .object [("source", .string r.source.text), ("host_output", .string r.hostOutput.text),
    ("unit", .string r.unit), ("foreign", Json.optional FlushedUnit.toJson r.foreign),
    ("call_sites", .array (r.callSites.map (·.toJson))), ("duration_ms", .number r.duration)]

structure Manifest where
  units : List UnitReport
  link : LinkSpec
  deriving DecidableEq, Repr

namespace Manifest

def toJson (m : Manifest) : Json :=
  .object [("units", .array (m.units.map (·.toJson))),
    ("cargo_directives", Json.strings m.link.cargoDirectives),
    ("linker_flags", Json.strings m.link.linkerFlags)]

def snippetCount (m : Manifest) : Nat := m.units.foldr (fun u n => u.callSites.length + n) 0

end Manifest

def coloured (code s : String) : String := "\x1b[" ++ code ++ "m" ++ s ++ "\x1b[0m"

def counted (n : Nat) (noun : String) : String :=
  toString n ++ " " ++ noun ++ if n = 1 then "" else "s"

def Manifest.summary (m : Manifest) : String :=
  coloured "32" ("✓ Expanded " ++ counted m.units.length "file" ++ ", " ++
    counted m.snippetCount "snippet") ++ "\n"

def failureSummary (failures : List Diagnostic) : String :=
  String.join (failures.map fun d => coloured "31" d.render ++ "\n") ++ "\n" ++
    coloured "31" ("Found " ++ counted failures.length "error") ++ "\n"

end Graft

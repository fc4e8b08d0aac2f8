import Graft.Json.Basic
import Graft.Unit.Basic

/-!
# Records as JSON

How locations, declarations, calls and call sites are written in a manifest.
-/

namespace Graft

open Json

def Location.toJson (l : Location) : Json :=
  object [("line", number l.line), ("col", number l.col), ("end_line", number l.endLine),
    ("end_col", number l.endCol)]

def EntryPoint.toJson (e : EntryPoint) : Json :=
  object [("safety", string e.safety.keyword), ("purity", string e.purity.keyword)]

def HostDeclaration.toJson (d : HostDeclaration) : Json :=
  object [("symbol", string d.symbol), ("name", string d.name),
    ("safety", string d.safety.keyword), ("purity", string d.purity.keyword),
    ("params", strings (d.params.map (·.text))), ("ret", string d.result.text)]

def HostCall.toJson (c : HostCall) : Json :=
  object [("function", string c.function), ("args", strings c.args)]

def ForeignFunction.toJson (f : ForeignFunction) : Json :=
  object [("symbol", string f.symbol), ("source", string f.source),
    ("return_type", string f.result.spelling), ("param_names", strings f.paramNames),
    ("param_types", strings (f.paramTypes.map (·.spelling))), ("location", f.location.toJson),
    ("entry", f.entry.toJson)]

def CallSite.toJson (c : CallSite) : Json :=
  object [("handle", number c.handle), ("entry", c.entry.toJson), ("symbol", string c.symbol),
    ("location", c.location.toJson), ("arg_names", strings c.argNames),
    ("foreign_params", strings (c.foreignParams.map (·.spelling))),
    ("foreign_return", string c.foreignResult.spelling),
    ("declaration", c.declaration.toJson), ("call", c.call.toJson)]

def FlushedUnit.toJson (f : FlushedUnit) : Json :=
  object [("path", string f.path), ("functions", number f.functions), ("items", number f.items),
    ("bytes", number f.bytes)]

end Graft

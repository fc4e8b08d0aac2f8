import Graft.Json.Decode
import Graft.Settings.Basic
import Graft.Toml.Reader

/-!
# Reading settings

Settings as the table of a TOML text. Every section is a table, or an array of its values in their
order; keys that nobody knows do not matter, and the first value of a wrong kind is reported.
-/

namespace Graft

inductive SettingsFault where
  | invalidType (found : Toml) (expected : String)
  | unknownEdition (word : String)
  | notWordOrTable
  | keyMissing
  | severalKeys
  | notTable (found : Toml)
  | notEmpty
  | notEmptyArray
  deriving Repr

def SettingsFault.message : SettingsFault → String
  | invalidType found expected => "invalid type: " ++ found.describe ++ ", expected " ++ expected
  | unknownEdition word =>
    "unknown variant `" ++ word ++ "`, " ++ Json.alternatives (Edition.all.map (·.name))
  | notWordOrTable => "wanted string or table"
  | keyMissing => "wanted exactly 1 element, found 0 elements"
  | severalKeys => "wanted exactly 1 element, more than 1 element"
  | notTable found => "expected table, found " ++ found.kind
  | notEmpty => "expected empty table"
  | notEmptyArray => "expected empty array"

namespace Toml

abbrev Decoded (α : Type) := Except SettingsFault α

def toText : Toml → Decoded String
  | string s => .ok s
  | other => .error (.invalidType other "a string")

def toPath : Toml → Decoded FilePath
  | string s => .ok ⟨s⟩
  | other => .error (.invalidType other "path string")

def toBool : Toml → Decoded Bool
  | boolean b => .ok b
  | other => .error (.invalidType other "a boolean")

def toList {α : Type} (item : Toml → Decoded α) : Toml → Decoded (List α)
  | array ts | tables ts => ts.mapM item
  | other => .error (.invalidType other "a sequence")

def toTexts (item : Toml → Decoded String) : Toml → Decoded KeyedTexts
  | table _ es => es.foldlM (fun texts (k, v) => return texts.insert k (← item v)) []
  | other => .error (.invalidType other "a map")

def editionOf (word : String) : Decoded Edition :=
  match Edition.ofName? word with
  | some e => .ok e
  | none => .error (.unknownEdition word)

/-- Reads an edition: a word, or the only key of a table with nothing in what stands under it. -/
def toEdition : Toml → Decoded Edition
  | string s => editionOf s
  | table _ [] => .error .keyMissing
  | table _ [(key, value)] => do
    let e ← editionOf key
    match value with
    | table _ [] | array [] | tables [] => return e
    | table .. | array _ => throw .notEmpty
    | tables _ => throw .notEmptyArray
    | other => throw (.notTable other)
  | table .. => .error .severalKeys
  | _ => .error .notWordOrTable

/-- Reads a section whose values `field` adds one by one, starting with those of `blank`. -/
def toSection {α : Type} (name : String) (keys : List String)
    (field : α → String → Toml → Decoded α) (blank : α) : Toml → Decoded α
  | table _ es => es.foldlM (fun a (k, v) => field a k v) blank
  | array ts | tables ts => (keys.zip ts).foldlM (fun a (k, v) => field a k v) blank
  | other => .error (.invalidType other ("struct " ++ name))

end Toml

open Toml

def UnitSettings.field (s : UnitSettings) (key : String) (v : Toml) : Decoded UnitSettings :=
  match key with
  | "symbol_prefix" => do return { s with symbolName := ← v.toText }
  | "edition" => do return { s with edition := ← v.toEdition }
  | _ => .ok s

def TypeSettings.field (s : TypeSettings) (key : String) (v : Toml) : Decoded TypeSettings :=
  match key with
  | "contexts" => do return { s with contexts := ← v.toList toText }
  | "mappings" => do return { s with mappings := ← v.toTexts toText }
  | _ => .ok s

def OutputSettings.field (s : OutputSettings) (key : String) (v : Toml) : Decoded OutputSettings :=
  match key with
  | "dir" => do return { s with directory := ← v.toPath }
  | "extern_crates" => do return { s with crates := ← v.toList toText }
  | "manifest" => do return { s with manifest := some (← v.toPath) }
  | _ => .ok s

def ToolchainSettings.field (s : ToolchainSettings) (key : String) (v : Toml) :
    Decoded ToolchainSettings :=
  match key with
  | "rustc" => do return { s with compiler := ← v.toPath }
  | "opt_level" => do return { s with optLevel := ← v.toText }
  | "crate_type" => do return { s with crateType := ← v.toText }
  | "compile" => do return { s with compile := ← v.toBool }
  | "externs" => do return { s with externs := ← v.toTexts fun t => (·.text) <$> t.toPath }
  | _ => .ok s

def PathSettings.field (s : PathSettings) (key : String) (v : Toml) : Decoded PathSettings :=
  match key with
  | "include" => do return { s with included := ← v.toList toText }
  | "exclude" => do return { s with excluded := ← v.toList toText }
  | _ => .ok s

namespace Settings

def field (s : Settings) (key : String) (v : Toml) : Decoded Settings :=
  match key with
  | "unit" => do
    let keys := ["symbol_prefix", "edition"]
    return { s with unit := ← v.toSection "UnitConfig" keys UnitSettings.field .standard }
  | "types" => do
    let keys := ["contexts", "mappings"]
    return { s with types := ← v.toSection "TypesConfig" keys TypeSettings.field .standard }
  | "output" => do
    let keys := ["dir", "extern_crates", "manifest"]
    return { s with output := ← v.toSection "OutputConfig" keys OutputSettings.field .standard }
  | "toolchain" => do
    let keys := ["rustc", "opt_level", "crate_type", "compile", "externs"]
    return { s with
      toolchain := ← v.toSection "ToolchainConfig" keys ToolchainSettings.field .standard }
  | "paths" => do
    let keys := ["include", "exclude"]
    return { s with paths := ← v.toSection "PathsConfig" keys PathSettings.field .blank }
  | _ => .ok s

def ofEntries (es : Entries) : Decoded Settings :=
  es.foldlM (fun s (k, v) => field s k v) standard

end Settings

end Graft

import Graft.Call.Foreign
import Graft.Json.Basic

/-!
# Settings as JSON

The words for safety, purity, editions and entry points, read from JSON values. A word may also be
the only key of an object with the value null, and an entry point an array of its two words.
-/

namespace Graft

namespace Json

def describe : Json → String
  | null => "null"
  | bool b => "boolean `" ++ toString b ++ "`"
  | number n => "integer `" ++ toString n ++ "`"
  | string s => "string " ++ Quoted.shown s
  | array _ => "sequence"
  | object _ => "map"

inductive DecodeError where
  | invalidType (found : Json) (expected : String)
  | severalKeys
  | unknownVariant (word : String) (known : List String)
  | invalidLength (length : Nat) (expected : String)
  | missingField (name : String)

def alternatives : List String → String
  | [] => "there are no variants"
  | [a] => "expected `" ++ a ++ "`"
  | [a, b] => "expected `" ++ a ++ "` or `" ++ b ++ "`"
  | words => "expected one of " ++ ", ".intercalate (words.map fun w => "`" ++ w ++ "`")

def DecodeError.message : DecodeError → String
  | invalidType found expected => "invalid type: " ++ found.describe ++ ", expected " ++ expected
  | severalKeys => "invalid value: map, expected map with a single key"
  | unknownVariant word known => "unknown variant `" ++ word ++ "`, " ++ alternatives known
  | invalidLength length expected =>
    "invalid length " ++ toString length ++ ", expected " ++ expected
  | missingField name => "missing field `" ++ name ++ "`"

def ofWord {α : Type} (word : α → String) (all : List α) (s : String) : Except DecodeError α :=
  match all.find? fun a => word a = s with
  | some a => .ok a
  | none => .error (.unknownVariant s (all.map word))

def decodeWord {α : Type} (word : α → String) (all : List α) : Json → Except DecodeError α
  | string s => ofWord word all s
  | object [(key, value)] => do
    let a ← ofWord word all key
    match value with
    | null => return a
    | other => throw (.invalidType other "unit")
  | object _ => .error .severalKeys
  | other => .error (.invalidType other "string or map")

end Json

def Safety.ofJson (j : Json) : Except Json.DecodeError Safety := j.decodeWord keyword all

def Purity.ofJson (j : Json) : Except Json.DecodeError Purity := j.decodeWord keyword all

def Edition.ofJson (j : Json) : Except Json.DecodeError Edition := j.decodeWord name all

namespace EntryPoint

structure Fields where
  safety : Option Safety
  purity : Option Purity

def Fields.read (f : Fields) (field : String × Json) : Except Json.DecodeError Fields :=
  match field with
  | ("safety", j) => (Safety.ofJson j).map fun s => { f with safety := some s }
  | ("purity", j) => (Purity.ofJson j).map fun p => { f with purity := some p }
  | _ => .ok f

/-- Reads an entry point. The fields of an object come in the order of their names. -/
def ofJson : Json → Except Json.DecodeError EntryPoint
  | .object fields => do
    let f ← fields.foldlM Fields.read ⟨none, none⟩
    match f.safety, f.purity with
    | some s, some p => return ⟨s, p⟩
    | none, _ => throw (.missingField "safety")
    | _, none => throw (.missingField "purity")
  | .array (s :: p :: more) => do
    let safety ← Safety.ofJson s
    let purity ← Purity.ofJson p
    if more.isEmpty then return ⟨safety, purity⟩
    else throw (.invalidLength (more.length + 2) "fewer elements in array")
  | .array [s] => do
    let _ ← Safety.ofJson s
    throw (.invalidLength 1 "struct EntryPoint with 2 elements")
  | .array [] => .error (.invalidLength 0 "struct EntryPoint with 2 elements")
  | other => .error (.invalidType other "struct EntryPoint")

end EntryPoint

end Graft

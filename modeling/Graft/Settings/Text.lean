import Graft.Settings.Basic
import Graft.Toml.Writer

/-!
# Writing settings

Settings as a TOML text, from which the same settings are read.
-/

namespace Graft

open Toml

def KeyedTexts.pairs (texts : KeyedTexts) : List String :=
  texts.map fun (k, v) => writePair k (writeText v)

namespace Settings

def unitTable (s : UnitSettings) : String :=
  writeTable "unit"
    [writePair "symbol_prefix" (writeText s.symbolName),
     writePair "edition" (writeText s.edition.name)]

def typesTable (s : TypeSettings) : String :=
  writeTable "types" [writePair "contexts" (writeTexts s.contexts)]

def outputTable (s : OutputSettings) : String :=
  writeTable "output"
    ([writePair "dir" (writeText s.directory.text),
      writePair "extern_crates" (writeTexts s.crates)] ++
      (s.manifest.map fun p => writePair "manifest" (writeText p.text)).toList)

def toolchainTable (s : ToolchainSettings) : String :=
  writeTable "toolchain"
    [writePair "rustc" (writeText s.compiler.text), writePair "opt_level" (writeText s.optLevel),
     writePair "crate_type" (writeText s.crateType), writePair "compile" (toString s.compile)]

def pathsTable (s : PathSettings) : String :=
  writeTable "paths"
    [writePair "include" (writeTexts s.included), writePair "exclude" (writeTexts s.excluded)]

def render (s : Settings) : String :=
  writeDocument
    [unitTable s.unit, typesTable s.types, writeTable "types.mappings" s.types.mappings.pairs,
     outputTable s.output, toolchainTable s.toolchain,
     writeTable "toolchain.externs" s.toolchain.externs.pairs, pathsTable s.paths]

end Settings

end Graft

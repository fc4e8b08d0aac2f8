import Graft.Files.Path
import Graft.Unit.Basic

/-!
# Settings

What a user can set for a project, with the values used where nothing is set.
-/

namespace Graft

abbrev KeyedTexts := List (String × String)

/-- Adds a text under a key, in place of the one that is there. -/
def KeyedTexts.insert (key value : String) : KeyedTexts → KeyedTexts
  | [] => [(key, value)]
  | (k, v) :: es =>
    if key = k then (key, value) :: es
    else if key < k then (key, value) :: (k, v) :: es
    else (k, v) :: insert key value es

structure UnitSettings where
  symbolName : String
  edition : Edition
  deriving DecidableEq, Repr

def UnitSettings.standard : UnitSettings := ⟨Symbol.standardName, .standard⟩

structure TypeSettings where
  /-- The names of built-in contexts, the later winning over the earlier. -/
  contexts : List String
  /-- Host types by foreign type, which win over all contexts. -/
  mappings : KeyedTexts
  deriving DecidableEq, Repr

def TypeSettings.standard : TypeSettings := ⟨["prelude"], []⟩

structure OutputSettings where
  directory : FilePath
  crates : List String
  manifest : Option FilePath
  deriving DecidableEq, Repr

def OutputSettings.standard : OutputSettings := ⟨⟨"splicer-out"⟩, [], none⟩

structure ToolchainSettings where
  compiler : FilePath
  optLevel : String
  crateType : String
  compile : Bool
  externs : KeyedTexts
  deriving DecidableEq, Repr

def ToolchainSettings.standard : ToolchainSettings := ⟨⟨"rustc"⟩, "2", "staticlib", false, []⟩

structure PathSettings where
  /-- Patterns of which one has to match; without any pattern all files do. -/
  included : List String
  excluded : List String
  deriving DecidableEq, Repr

namespace PathSettings

/-- The paths where nothing is said of paths: build products are left out. -/
def standard : PathSettings := ⟨["**/*.hs"], ["**/dist-newstyle/**", "**/.stack-work/**"]⟩

/-- The paths where something is said of paths, but neither which to take nor which to leave out. -/
def blank : PathSettings := ⟨["**/*.hs"], []⟩

end PathSettings

structure Settings where
  unit : UnitSettings
  types : TypeSettings
  output : OutputSettings
  toolchain : ToolchainSettings
  paths : PathSettings
  deriving DecidableEq, Repr

namespace Settings

def standard : Settings := ⟨.standard, .standard, .standard, .standard, .standard⟩

def unitOptions (s : Settings) : UnitOptions :=
  ⟨s.unit.symbolName, s.unit.edition, s.output.crates⟩

end Settings

end Graft

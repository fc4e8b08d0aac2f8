import Graft.Command.Run

/-!
# Places

The places of a file system that a run looks at. They can be found before the run, so that a tree
that holds them, and no more, is enough for it.
-/

namespace Graft

def FileTree.addressOf (t : FileTree) (p : FilePath) : Address :=
  p.parts.foldl (fun a part =>
    match part with
    | .root => []
    | .here => a
    | .parent => a.dropLast
    | .name n => a ++ [n]) (t.origin p)

def isWildSegment (s : List Char) : Bool := s.any fun c => c = '*' || c = '?' || c = '['

/-- The path that all matches of a pattern start with: what stands before the first wildcard. -/
def searchRoot (pattern : String) : FilePath :=
  let p : FilePath := ⟨pattern⟩
  let fixed := p.segments.takeWhile fun s => !isWildSegment s
  if fixed.length = p.segments.length then p
  else if fixed = [] then ⟨"."⟩
  else .ofSegments p.isAbsolute fixed

namespace Run

def settingsPlaces (a : Arguments) (t : FileTree) : List FilePath :=
  match a.config with
  | some p => [p]
  | none => (absolutePath t.current).ancestors.map (·.join Settings.fileName)

def outputPlaces (s : Settings) (files : List FilePath) : List FilePath :=
  files.flatMap (fun file => [hostOutput s.output file, foreignOutput s.output file]) ++
    s.output.manifest.toList ++
    [Invocation.artifactDirectory s.output.directory, s.toolchain.compiler]

end Run

end Graft

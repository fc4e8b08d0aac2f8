import Graft.Files.Pattern
import Graft.Files.Tree

/-!
# Searching a file tree

All paths that match a pattern, component by component. A component without wildcards is followed
without looking at what else there is, so `..` and `.` may be given; the names found under a
wildcard never are these two unless the component starts with a point.
-/

namespace Graft

inductive SearchStep where
  | literal (name : List Char)
  | wild (p : PathPattern)
  | anywhere
  deriving DecidableEq, Repr

namespace SearchStep

def ofPattern (p : PathPattern) : SearchStep :=
  if p = [.components] then anywhere
  else
    match p.literal? with
    | some name => literal name
    | none => wild p

def accepts (s : SearchStep) (name : String) : Bool :=
  match s with
  | literal n => n = name.toList
  | wild p => p.accepts name
  | anywhere => false

def collapse : List SearchStep → List SearchStep
  | [] => []
  | anywhere :: steps =>
    match collapse steps with
    | anywhere :: more => anywhere :: more
    | more => anywhere :: more
  | step :: steps => step :: collapse steps

end SearchStep

structure FileSearch where
  start : FilePath
  steps : List SearchStep
  directories : Bool
  deriving DecidableEq, Repr

namespace FileSearch

/-- The components of a pattern; what is behind the last separator counts only if it is there. -/
def componentTexts (cs : List Char) : List (List Char) :=
  let ss := FilePath.splitSegments cs
  if ss.getLast? = some [] then ss.dropLast else ss

def ofText (s : String) : Except PatternFault FileSearch := do
  -- A fault is reported at its place in the whole pattern.
  let _ ← PathPattern.ofText s
  let absolute := s.toList.head? = some '/'
  let rest := if absolute then s.toList.drop 1 else s.toList
  let patterns ← (componentTexts rest).mapM fun c => PathPattern.ofText (.ofList c)
  let patterns := if rest.isEmpty then [[]] else patterns
  return ⟨⟨if absolute then "/" else "."⟩, SearchStep.collapse (patterns.map SearchStep.ofPattern),
    s.toList.getLast? = some '/'⟩

/-- The path of a name in a directory. In the current directory it is the name alone. -/
def childPath (p : FilePath) (name : String) : FilePath :=
  if p.same ⟨"."⟩ then ⟨name⟩ else p.join ⟨name⟩

/-- Whether a component leads on from a directory without a look at its entries. -/
def follows (t : FileTree) (p : FilePath) (name : List Char) : Bool :=
  if name = ['.'] || name = ['.', '.'] then t.isDirectory p
  else t.contains (childPath p (.ofList name))

def pathsBelow (t : FileTree) (p : FilePath) : List FilePath :=
  match t.resolve p with
  | .ok a => (t.below a).map fun names => names.foldl childPath p
  | .error _ => []

def childPaths (t : FileTree) (p : FilePath) : List FilePath :=
  match t.resolve p with
  | .ok a => (t.childNames a).map (childPath p)
  | .error _ => []

/-- The paths of a directory itself and of what holds it, as far as a component that starts with a
point matches their names. -/
def dotPaths (t : FileTree) (p : FilePath) (pattern : PathPattern) : List FilePath :=
  if t.isDirectory p && pattern.head? = some (.char '.') then
    ([".", ".."].filter pattern.accepts).map fun s => p.join ⟨s⟩
  else []

def follow (t : FileTree) (directories : Bool) : List SearchStep → FilePath → List FilePath
  | [], p => if directories && !t.isDirectory p then [] else [p]
  | .literal name :: steps, p =>
    if follows t p name then follow t directories steps (childPath p (.ofList name)) else []
  | .wild pattern :: steps, p =>
    let named := (childPaths t p).filter fun q => q.fileName?.any pattern.accepts
    (named ++ dotPaths t p pattern).flatMap (follow t directories steps)
  -- At the end of a pattern two stars find directories alone.
  | [.anywhere], p => (pathsBelow t p).filter t.isDirectory
  | .anywhere :: step :: steps, p =>
    ((pathsBelow t p).filter fun q => q.fileName?.any step.accepts).flatMap
      (follow t directories steps)

def results (s : FileSearch) (t : FileTree) : List FilePath :=
  follow t s.directories s.steps s.start

end FileSearch

end Graft

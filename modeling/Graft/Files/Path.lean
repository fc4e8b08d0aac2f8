/-!
# File paths

A path is kept as the text it was given as, since messages and outputs show that text. Two paths
stand for the same place when they have the same parts: repeated separators, a separator at the end
and a `.` behind the first part do not matter.
-/

namespace Graft

structure FilePath where
  text : String
  deriving DecidableEq, Repr, Inhabited

inductive PathPart where
  | root
  | here
  | parent
  | name (s : String)
  deriving DecidableEq, Repr

namespace PathPart

def rank : PathPart → Nat
  | root => 0
  | here => 1
  | parent => 2
  | name _ => 3

def isBefore : PathPart → PathPart → Bool
  | name a, name b => a < b
  | a, b => a.rank < b.rank

/-- The part that a segment stands for, except at the start of a path. -/
def ofSegment? (s : List Char) : Option PathPart :=
  if s = [] || s = ['.'] then none
  else if s = ['.', '.'] then some parent
  else some (name (.ofList s))

def name? : PathPart → Option String
  | name s => some s
  | _ => none

end PathPart

namespace FilePath

def splitSegments : List Char → List (List Char)
  | [] => [[]]
  | c :: cs =>
    if c = '/' then [] :: splitSegments cs
    else
      match splitSegments cs with
      | [] => [[c]]
      | s :: ss => (c :: s) :: ss

def joinSegments : List (List Char) → List Char
  | [] => []
  | [s] => s
  | s :: ss => s ++ '/' :: joinSegments ss

theorem splitSegments_ne_nil (cs : List Char) : splitSegments cs ≠ [] := by
  cases cs with
  | nil => simp [splitSegments]
  | cons c cs =>
    rw [splitSegments]
    split
    · simp
    · split <;> simp

theorem joinSegments_cons (s : List Char) {ss : List (List Char)} (h : ss ≠ []) :
    joinSegments (s :: ss) = s ++ '/' :: joinSegments ss := by
  cases ss with
  | nil => exact absurd rfl h
  | cons t ts => rfl

theorem joinSegments_splitSegments (cs : List Char) : joinSegments (splitSegments cs) = cs := by
  induction cs with
  | nil => rfl
  | cons c cs ih =>
    rw [splitSegments]
    split
    · next h => rw [joinSegments_cons [] (splitSegments_ne_nil cs), ih, h, List.nil_append]
    · split
      · next h => exact absurd h (splitSegments_ne_nil cs)
      · next s ss h =>
        rw [h] at ih
        cases ss with
        | nil => rw [← ih]; rfl
        | cons t ts => rw [← ih]; rfl

/-- The segments of a path. The first is empty in an absolute path and in the empty one. -/
def segments (p : FilePath) : List (List Char) := splitSegments p.text.toList

/-- The path of the given segments; a single empty one is the root if `absolute` holds. -/
def ofSegments (absolute : Bool) (ss : List (List Char)) : FilePath :=
  if absolute && ss = [[]] then ⟨"/"⟩ else ⟨.ofList (joinSegments ss)⟩

def isAbsolute (p : FilePath) : Bool := p.text.toList.head? = some '/'

def isIdle (s : List Char) : Bool := s = [] || s = ['.']

def trimBack (ss : List (List Char)) : List (List Char) := (ss.reverse.dropWhile isIdle).reverse

def firstPart? (absolute : Bool) (s : List Char) : Option PathPart :=
  if absolute then some .root else if s = ['.'] then some .here else PathPart.ofSegment? s

def parts (p : FilePath) : List PathPart :=
  match p.segments with
  | [] => []
  | s :: ss => (firstPart? p.isAbsolute s).toList ++ ss.filterMap PathPart.ofSegment?

def same (p q : FilePath) : Bool := p.parts = q.parts

def partsLe : List PathPart → List PathPart → Bool
  | [], _ => true
  | _ :: _, [] => false
  | a :: as, b :: bs => if a = b then partsLe as bs else a.isBefore b

def le (p q : FilePath) : Bool := partsLe p.parts q.parts

/-- A path as seen from another; an absolute path is the same from everywhere. -/
def join (p q : FilePath) : FilePath :=
  if q.isAbsolute || p.text.isEmpty then q
  else if p.text.toList.getLast? = some '/' then ⟨p.text ++ q.text⟩
  else ⟨p.text ++ "/" ++ q.text⟩

/-- The path of what holds the last part of a path; nothing for the root and the empty path. -/
def parent? (p : FilePath) : Option FilePath :=
  match p.segments with
  | [] => none
  | s :: ss =>
    match trimBack ss with
    | [] => if s = [] then none else some ⟨""⟩
    | used => some (ofSegments p.isAbsolute (s :: trimBack used.dropLast))

def ancestorsWithin : Nat → FilePath → List FilePath
  | 0, _ => []
  | n + 1, p => p :: (p.parent?.map (ancestorsWithin n)).getD []

/-- A path and all that are above it, the nearest first. Each has fewer segments than the one
before it, except that the empty path follows a single segment. -/
def ancestors (p : FilePath) : List FilePath := ancestorsWithin (p.segments.length + 1) p

def lastSegment? (p : FilePath) : Option (List (List Char) × List Char) :=
  match p.segments with
  | [] => none
  | s :: ss => (trimBack (s :: ss)).getLast?.map fun last => ((trimBack (s :: ss)).dropLast, last)

def fileName? (p : FilePath) : Option String := p.parts.getLast?.bind PathPart.name?

/-- Splits a name at its last point, unless it starts with that point. -/
def splitExtension (name : List Char) : List Char × Option (List Char) :=
  let ext := (name.reverse.takeWhile (· ≠ '.')).reverse
  let stem := (name.take (name.length - ext.length)).dropLast
  if ext.length = name.length || stem = [] then (name, none) else (stem, some ext)

def stem? (p : FilePath) : Option String :=
  p.fileName?.map fun n => .ofList (splitExtension n.toList).1

def extension? (p : FilePath) : Option String :=
  p.fileName?.bind fun n => (splitExtension n.toList).2.map String.ofList

/-- Gives the name at the end of a path the extension `ext`. A path without such a name stays as
it is. -/
def withExtension (p : FilePath) (ext : String) : FilePath :=
  match p.stem?, p.lastSegment? with
  | some stem, some (before, _) =>
    ⟨.ofList (joinSegments (before ++ [stem.toList ++ '.' :: ext.toList]))⟩
  | _, _ => p

def dropParts : List PathPart → List (List Char) → Option (List (List Char))
  | [], ss => some ss
  | _ :: _, [] => none
  | a :: as, s :: ss =>
    match PathPart.ofSegment? s with
    | none => dropParts (a :: as) ss
    | some b => if a = b then dropParts as ss else none

def relativeTo? (p base : FilePath) : Option FilePath :=
  match base.parts, p.segments with
  | [], _ => some p
  | a :: as, s :: ss =>
    if firstPart? p.isAbsolute s = some a then
      (dropParts as ss).map fun rest => ⟨.ofList (joinSegments (trimBack (rest.dropWhile isIdle)))⟩
    else none
  | _ :: _, [] => none

/-- The ordinary names of a path, below one another: neither the root nor `.` or `..` remain. -/
def ordinary (p : FilePath) : FilePath := ⟨"/".intercalate (p.parts.filterMap PathPart.name?)⟩

end FilePath

end Graft

import Graft.Files.Path

/-!
# File trees

The part of a file system that a run sees: directories, files, and the directory that relative
paths start from. A path is followed segment by segment, so `..` leads to what holds the directory
reached so far, and nothing is found behind a file.
-/

namespace Graft

abbrev Address := List String

inductive FileContent where
  | text (s : String)
  | binary
  deriving DecidableEq, Repr

inductive FileEntry where
  | file (content : FileContent)
  | directory
  deriving DecidableEq, Repr

inductive FileFault where
  | notFound
  | denied
  | exists
  | notDirectory
  | isDirectory
  | notText
  deriving DecidableEq, Repr

def FileFault.message : FileFault → String
  | notFound => "No such file or directory (os error 2)"
  | denied => "Permission denied (os error 13)"
  | .exists => "File exists (os error 17)"
  | notDirectory => "Not a directory (os error 20)"
  | isDirectory => "Is a directory (os error 21)"
  | notText => "stream did not contain valid UTF-8"

/-- What lies where. What holds an entry is a directory; the root is one without being listed. -/
structure FileTree where
  current : Address
  entries : List (Address × FileEntry)
  deriving DecidableEq, Repr

namespace FileTree

def empty : FileTree := ⟨[], []⟩

def get? (t : FileTree) : Address → Option FileEntry
  | [] => some .directory
  | a => t.entries.lookup a

def putEntry (a : Address) (e : FileEntry) :
    List (Address × FileEntry) → List (Address × FileEntry)
  | [] => [(a, e)]
  | (b, f) :: es => if a = b then (a, e) :: es else (b, f) :: putEntry a e es

def put (t : FileTree) (a : Address) (e : FileEntry) : FileTree :=
  { t with entries := putEntry a e t.entries }

theorem lookup_entry (a b : Address) (e : FileEntry) (es : List (Address × FileEntry)) :
    ((a, e) :: es).lookup b = if b = a then some e else es.lookup b := by
  by_cases h : b = a
  · simp [h]
  · simp [List.lookup_cons, beq_false_of_ne h, h]

theorem lookup_putEntry (a b : Address) (e : FileEntry) (es : List (Address × FileEntry)) :
    (putEntry a e es).lookup b = if b = a then some e else es.lookup b := by
  induction es with
  | nil => exact lookup_entry a b e []
  | cons x es ih =>
    obtain ⟨k, f⟩ := x
    rw [putEntry]
    by_cases hk : a = k
    · rw [if_pos hk, lookup_entry, lookup_entry, ← hk]
      by_cases h : b = a <;> simp [h]
    · rw [if_neg hk, lookup_entry, lookup_entry, ih]
      by_cases h : b = k
      · simp [h, Ne.symm hk]
      · simp [h]

/-- What is put at an address other than the root lies there, and nothing else changes. -/
theorem get?_put (t : FileTree) {a : Address} (h : a ≠ []) (e : FileEntry) (b : Address) :
    (t.put a e).get? b = if b = a then some e else t.get? b := by
  cases b with
  | nil => simp [get?, Ne.symm h]
  | cons n ns => exact lookup_putEntry a (n :: ns) e t.entries

def ensureFrom (t : FileTree) (here : Address) : List String → FileTree
  | [] => t
  | n :: ns =>
    let next := here ++ [n]
    (if (t.get? next).isSome then t else t.put next .directory).ensureFrom next ns

def withDirectory (t : FileTree) (a : Address) : FileTree := t.ensureFrom [] a

def withFile (t : FileTree) (a : Address) (content : FileContent) : FileTree :=
  (t.withDirectory a.dropLast).put a (.file content)

/-! ## Following a path -/

def walk (t : FileTree) (here : Address) : List (List Char) → Except FileFault Address
  | [] => .ok here
  | s :: ss =>
    -- Not even a point leads on from a file.
    match t.get? here with
    | none => .error .notFound
    | some (.file _) => .error .notDirectory
    | some .directory =>
      match PathPart.ofSegment? s with
      | some (.name n) =>
        if (t.get? (here ++ [n])).isSome then t.walk (here ++ [n]) ss else .error .notFound
      | some .parent => t.walk here.dropLast ss
      | _ => t.walk here ss

def origin (t : FileTree) (p : FilePath) : Address := if p.isAbsolute then [] else t.current

/-- The address that a path leads to. A separator at the end leads to directories only. -/
def resolve (t : FileTree) (p : FilePath) : Except FileFault Address :=
  if p.text.isEmpty then .error .notFound else t.walk (t.origin p) p.segments

def find? (t : FileTree) (p : FilePath) : Option FileEntry :=
  match t.resolve p with
  | .ok a => t.get? a
  | .error _ => none

def contains (t : FileTree) (p : FilePath) : Bool := (t.find? p).isSome

def isFile (t : FileTree) (p : FilePath) : Bool :=
  match t.find? p with
  | some (.file _) => true
  | _ => false

def isDirectory (t : FileTree) (p : FilePath) : Bool := t.find? p = some .directory

def readText (t : FileTree) (p : FilePath) : Except FileFault String := do
  match t.get? (← t.resolve p) with
  | some (.file (.text s)) => return s
  | some (.file .binary) => throw .notText
  | some .directory => throw .isDirectory
  | none => throw .notFound

/-! ## Writing -/

inductive PathEnd where
  | name (directory : Address) (n : String)
  | dots
  deriving DecidableEq, Repr

def pathEnd (t : FileTree) (p : FilePath) : Except FileFault PathEnd :=
  if p.text.isEmpty then .error .notFound
  else
    match p.segments.reverse.dropWhile (·.isEmpty) with
    | [] => .ok .dots
    | last :: before => do
      -- The point behind the way makes sure that it ends in a directory.
      let directory ← t.walk (t.origin p) (before.reverse ++ [['.']])
      match PathPart.ofSegment? last with
      | some (.name n) => return .name directory n
      | _ => return .dots

def writeText (t : FileTree) (p : FilePath) (s : String) : Except FileFault FileTree := do
  match ← t.pathEnd p with
  | .dots => throw .isDirectory
  | .name directory n =>
    let a := directory ++ [n]
    if p.text.toList.getLast? = some '/' || t.get? a = some .directory then throw .isDirectory
    return t.put a (.file (.text s))

def makeDirectory (t : FileTree) (p : FilePath) : Except FileFault FileTree := do
  match ← t.pathEnd p with
  | .dots => throw .exists
  | .name directory n =>
    let a := directory ++ [n]
    if (t.get? a).isSome then throw .exists
    return t.put a .directory

/-- Makes the first of the given directories, and those behind it, each of which is to hold the one
before it, as far as they are missing. -/
def makeAll (t : FileTree) : List FilePath → Except FileFault FileTree
  | [] => .ok t
  | p :: above =>
    let orThere (t : FileTree) : Except FileFault FileTree :=
      match t.makeDirectory p with
      | .ok t' => .ok t'
      | .error e => if t.isDirectory p then .ok t else .error e
    if p.text.isEmpty then .ok t
    else
      -- Only where something on the way is missing are the directories above made.
      match t.makeDirectory p with
      | .error .notFound => do orThere (← t.makeAll above)
      | _ => orThere t

def makeDirectories (t : FileTree) (p : FilePath) : Except FileFault FileTree :=
  t.makeAll p.ancestors

/-! ## Listing -/

def below (t : FileTree) (a : Address) : List Address :=
  t.entries.filterMap fun (b, _) => if a.isPrefixOf b && a ≠ b then some (b.drop a.length) else none

def childNames (t : FileTree) (a : Address) : List String :=
  (t.below a).filterMap fun
    | [n] => some n
    | _ => none

end FileTree

end Graft

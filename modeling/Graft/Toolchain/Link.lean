import Graft.Files.Path
import Graft.Text.CharClass

/-!
# Linking

What the host build has to pass to its linker for the compiled units: where to search, which
libraries to link, and which system libraries these need in turn.
-/

namespace Graft

inductive LibraryKind where
  | static
  | dynamic
  deriving DecidableEq, Repr

def LibraryKind.name : LibraryKind → String
  | static => "static"
  | dynamic => "dylib"

structure LinkSpec where
  searchPaths : List FilePath
  libraries : List (LibraryKind × String)
  native : List String
  deriving DecidableEq, Repr

namespace LinkSpec

def empty : LinkSpec := ⟨[], [], []⟩

def addNew {α : Type} (same : α → α → Bool) (known more : List α) : List α :=
  more.foldl (fun known a => if known.any (same a) then known else known ++ [a]) known

/-- The needs of two units together. Paths and flags are named once, libraries as often as they
are needed. -/
def merge (a b : LinkSpec) : LinkSpec where
  searchPaths := addNew FilePath.same a.searchPaths b.searchPaths
  libraries := a.libraries ++ b.libraries
  native := addNew (fun x y => x = y) a.native b.native

def libraryOfFlag? (flag : String) : Option String :=
  match flag.toList with
  | '-' :: 'l' :: name => some (.ofList name)
  | _ => none

def cargoDirectives (s : LinkSpec) : List String :=
  (s.searchPaths.map fun p => "cargo:rustc-link-search=native=" ++ p.text) ++
    (s.libraries.map fun (kind, name) =>
      "cargo:rustc-link-lib=" ++ kind.name ++ "=" ++ name) ++
    ((s.native.filterMap libraryOfFlag?).map fun name => "cargo:rustc-link-lib=" ++ name)

def linkerFlags (s : LinkSpec) : List String :=
  (s.searchPaths.map fun p => "-L" ++ p.text) ++ (s.libraries.map fun (_, name) => "-l" ++ name) ++
    s.native

/-! ## What a compiler says -/

def noteMark : List Char := "native-static-libs:".toList

def behindMark? : List Char → Option (List Char)
  | [] => none
  | c :: cs =>
    if noteMark.isPrefixOf (c :: cs) then some ((c :: cs).drop noteMark.length) else behindMark? cs

def wordsOf (word : List Char) : List Char → List String
  | [] => if word.isEmpty then [] else [.ofList word.reverse]
  | c :: cs =>
    if isBlank c then if word.isEmpty then wordsOf [] cs else .ofList word.reverse :: wordsOf [] cs
    else wordsOf (c :: word) cs

/-- The flags that a compiler notes for a static library: those on the first line with a mark. -/
def nativeFlags (messages : String) : List String :=
  match behindMark? messages.toList with
  | none => []
  | some rest => wordsOf [] (rest.takeWhile (· ≠ '\n'))

end LinkSpec

end Graft

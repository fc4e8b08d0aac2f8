import Graft.Command.Places
import Graft.Toolchain.Script

/-!
# The program

Loads the part of the file system that a run looks at, runs the command on it, and stores what has
changed.
-/

open Graft

namespace Graft.Program

/-- How deep directories are searched. A chain of links may have no end. -/
def searchDepth : Nat := 64

/-- What lies at an address, a file without its content. -/
def kindAt (a : Address) : IO (Option FileEntry) := do
  let place := (← IO.currentDir) / (Run.absolutePath a).text
  if ← place.isDir then return some .directory
  else if ← place.pathExists then return some (.file .binary)
  else return none

def namesIn (a : Address) : IO (List String) := do
  let place := (← IO.currentDir) / (Run.absolutePath a).text
  try return (← place.readDir).toList.map (·.fileName)
  catch _ => return []

def contentAt (a : Address) : IO FileContent := do
  let bytes ← IO.FS.readBinFile (Run.absolutePath a).text
  match String.fromUTF8? bytes with
  | some s => return .text s
  | none => return .binary

def addPlace (t : FileTree) (a : Address) : IO FileTree := do
  let mut t := t
  for n in List.range a.length do
    let b := a.take (n + 1)
    if (t.get? b).isNone then
      if let some e ← kindAt b then t := t.put b e
  return t

def addBelow (t : FileTree) (a : Address) : Nat → IO FileTree
  | 0 => return t
  | depth + 1 => do
    let t ← addPlace t a
    if t.get? a = some .directory then
      (← namesIn a).foldlM (fun t name => addBelow t (a ++ [name]) depth) t
    else return t

def addContent (t : FileTree) (p : FilePath) : IO FileTree := do
  let a := t.addressOf p
  let t ← addPlace t a
  match t.get? a with
  | some (.file _) => return t.put a (.file (← contentAt a))
  | _ => return t

def addFiles (s : Settings) (paths : List String) (t : FileTree) : IO FileTree := do
  let t ← paths.foldlM (fun t p => addBelow t (t.addressOf (searchRoot p)) searchDepth) t
  match Collect.files s t paths with
  | .error _ => return t
  | .ok files =>
    let t ← files.foldlM addContent t
    let t ← (Run.outputPlaces s files).foldlM (fun t p => addPlace t (t.addressOf p)) t
    addContent t s.toolchain.compiler

def load (a : Arguments) : IO FileTree := do
  let here : FilePath := ⟨(← IO.currentDir).toString⟩
  let t := FileTree.empty
  let current := t.addressOf here
  let t := { t.withDirectory current with current := current }
  let t ← (Run.settingsPlaces a t).foldlM addContent t
  match Run.settingsFor a t, a.command with
  | .ok s, .expand paths outDirectory compile manifest _ =>
    addFiles (Run.withOptions s outDirectory compile manifest) paths t
  | _, .init directory _ => addPlace t (t.addressOf (directory.join Settings.fileName))
  | _, _ => return t

def measure (a : Arguments) (t : FileTree) : IO Clock := do
  match Run.settingsFor a t, a.command with
  | .ok s, .expand paths outDirectory compile manifest _ =>
    let s := Run.withOptions s outDirectory compile manifest
    match Collect.files s t paths, s.typeContext with
    | .ok files, .ok context =>
      let times ← files.mapM fun file => do
        let start ← IO.monoMsNow
        let _ ← IO.lazyPure fun _ => (expandFile s context .scripted (fun _ => 0) t file).1.isOk
        return (file, (← IO.monoMsNow) - start)
      return fun file => (times.lookup file).getD 0
    | _, _ => return fun _ => 0
  | _, _ => return fun _ => 0

def store (before after : FileTree) : IO Unit := do
  for (a, e) in after.entries do
    if before.get? a ≠ some e then
      match e with
      | .directory => IO.FS.createDirAll (Run.absolutePath a).text
      | .file (.text s) => IO.FS.writeFile (Run.absolutePath a).text s
      | .file .binary => pure ()

end Graft.Program

def main (args : List String) : IO UInt32 := do
  match Arguments.ofWords args with
  | .error .help =>
    IO.println ArgumentFault.usage
    return 0
  | .error fault =>
    IO.eprintln ("error: " ++ fault.message ++ "\n\n" ++ ArgumentFault.usage)
    return 2
  | .ok a =>
    let before ← Program.load a
    let r := a.run .scripted before (← Program.measure a before)
    Program.store before r.tree
    IO.print r.output
    IO.eprint r.messages
    match r.code with
    | .ok code => return code.toUInt32
    | .error e =>
      IO.eprintln ("Error: " ++ e.message)
      return 1

import Graft.Call.Foreign

/-!
# The foreign file of a unit

Functions and items are gathered in the order in which they are emitted, and none is ever dropped
or merged. Rendered, each stands under a comment that names its place in the host file.
-/

namespace Graft

inductive SinkEntry where
  | function (f : ForeignFunction)
  | items (text : String) (location : Location)
  deriving DecidableEq, Repr

namespace SinkEntry

def isFunction : SinkEntry → Bool
  | function _ => true
  | items .. => false

def render (unit : String) : SinkEntry → String
  | function f =>
    "\n// " ++ unit ++ ":" ++ f.location.render ++ " (" ++ f.entry.quoter ++ ")\n" ++ f.source ++
      "\n"
  | items text location =>
    "\n// " ++ unit ++ ":" ++ location.render ++ " (items)\n" ++
      .ofList (trimBlanks text.toList) ++ "\n"

end SinkEntry

structure Sink where
  unit : String
  crates : List String
  entries : List SinkEntry
  deriving DecidableEq, Repr

namespace Sink

def ofUnit (unit : String) (crates : List String) : Sink := ⟨unit, crates, []⟩

def size (s : Sink) : Nat := s.entries.length

def nextHandle (s : Sink) : Nat := s.size

def push (s : Sink) (e : SinkEntry) : Sink := { s with entries := s.entries ++ [e] }

def emit (s : Sink) (e : SinkEntry) : Nat × Sink := (s.nextHandle, s.push e)

def entryAt? (s : Sink) (handle : Nat) : Option SinkEntry := s.entries[handle]?

def emitAll (s : Sink) : List SinkEntry → List Nat × Sink
  | [] => ([], s)
  | e :: es =>
    let (handle, s) := s.emit e
    let (handles, s) := s.emitAll es
    (handle :: handles, s)

def isEmpty (s : Sink) : Bool := s.entries.isEmpty

def functionCount (s : Sink) : Nat := s.entries.countP (·.isFunction)

def header (s : Sink) : String :=
  "// @generated by splicer from " ++ s.unit ++ ". Do not edit.\n" ++
    "#![allow(unused, non_snake_case, clippy::all)]\n" ++
    String.join (s.crates.map fun name => "extern crate " ++ name ++ ";\n")

def render (s : Sink) : String := s.header ++ String.join (s.entries.map (·.render s.unit))

@[simp] theorem size_push (s : Sink) (e : SinkEntry) : (s.push e).size = s.size + 1 := by
  simp [size, push]

theorem functionCount_push (s : Sink) (e : SinkEntry) :
    (s.push e).functionCount = s.functionCount + if e.isFunction then 1 else 0 := by
  simp [functionCount, push, List.countP_append, List.countP_cons]

end Sink

structure FlushedUnit where
  path : String
  functions : Nat
  items : Nat
  bytes : Nat
  deriving DecidableEq, Repr

def Sink.flushed? (s : Sink) (path : String) : Option (String × FlushedUnit) :=
  if s.isEmpty then none
  else
    let text := s.render
    some (text, ⟨path, s.functionCount, s.size - s.functionCount, text.utf8ByteSize⟩)

end Graft

import Graft.Diagnostic.EditDistance
import Graft.Text.Position

/-!
# Diagnostics

What can be wrong with a snippet, where it is wrong, and how it is reported.
-/

namespace Graft

inductive TypePosition where
  | result
  /-- The placeholder of the given name, counted from zero. -/
  | argument (index : Nat) (name : String)
  deriving DecidableEq, Repr

def TypePosition.describe : TypePosition → String
  | result => "the return type"
  | argument index name => "argument " ++ toString (index + 1) ++ " (`" ++ name ++ "`)"

inductive Fault where
  | malformed (message : String)
  | missingReturnType
  | missingBody
  | malformedPlaceholder (text reason : String)
  | conflictingPlaceholder (name first second : String)
  | unterminatedQuote (quoter : String)
  | unmappedType (type : String) (position : TypePosition)
  | unresolvedIdentifier (name : String)
  /-- The context was to change after snippets had been expanded. -/
  | configurationOrder (expanded : Nat)
  deriving DecidableEq, Repr

def Fault.message : Fault → String
  | malformed message => "Malformed snippet: " ++ message
  | missingReturnType => "Missing return type annotation before the snippet body"
  | missingBody => "Missing snippet body: expected `\x7b ... \x7d` after the return type"
  | malformedPlaceholder text reason =>
    "Malformed placeholder `$(" ++ text ++ ")`: " ++ reason
  | conflictingPlaceholder name first second =>
    "Placeholder `" ++ name ++ "` declared as `" ++ first ++ "` and again as `" ++ second ++ "`"
  | unterminatedQuote quoter => "Unterminated `[" ++ quoter ++ "|` quote: missing closing `|]`"
  | unmappedType type position =>
    "No host type registered for foreign type `" ++ type ++ "` used as " ++ position.describe
  | unresolvedIdentifier name =>
    "Placeholder `" ++ name ++ "` does not name a variable in the enclosing host scope"
  | configurationOrder expanded =>
    "Active type context changed after " ++ toString expanded ++
      " snippet(s) were already expanded"

structure Diagnostic where
  fault : Fault
  location : Location
  file : String
  hints : List String
  deriving DecidableEq, Repr

namespace Diagnostic

def ofFault (fault : Fault) (location : Location) : Diagnostic := ⟨fault, location, "", []⟩

def inFile (d : Diagnostic) (file : String) : Diagnostic := { d with file := file }

def nameHints (target : String) (names : List String) : List String :=
  ((similarNames target names 2).take 3).map fun n => "Did you mean '" ++ n ++ "'?"

def unmappedType (type : String) (position : TypePosition) (location : Location)
    (known : List String) : Diagnostic :=
  let hints := nameHints type known
  ⟨.unmappedType type position, location, "",
    if hints.isEmpty then ["Register a correspondence for it in the active type context"]
    else hints⟩

def unresolvedIdentifier (name : String) (location : Location) (visible : List String) :
    Diagnostic :=
  ⟨.unresolvedIdentifier name, location, "", nameHints name visible⟩

def render (d : Diagnostic) : String :=
  (if d.file.isEmpty then "" else d.file ++ ":") ++ d.location.render ++ ": " ++ d.fault.message ++
    String.join (d.hints.map ("\n  hint: " ++ ·))

end Diagnostic

/-- Diagnostics gathered up to a bound; later ones are dropped. -/
structure Collector where
  bound : Nat
  collected : List Diagnostic
  deriving Repr

namespace Collector

def empty (bound : Nat) : Collector := ⟨bound, []⟩

def standardBound : Nat := 100

def add (c : Collector) (d : Diagnostic) : Collector :=
  if c.collected.length < c.bound then { c with collected := c.collected ++ [d] } else c

end Collector

end Graft

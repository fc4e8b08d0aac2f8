/-!
# Logging

What is logged by how often the user asks for more.
-/

namespace Graft

inductive LogLevel where
  | warn
  | info
  | debug
  | trace
  deriving DecidableEq, Repr

inductive LogFormat where
  | pretty
  | compact
  | json
  deriving DecidableEq, Repr

structure LogSettings where
  level : LogLevel
  format : LogFormat
  /-- Whether the start and the end of longer work is logged. -/
  spans : Bool
  /-- What to log in place of all that the level lets through. -/
  filter : Option String
  deriving DecidableEq, Repr

def LogFormat.all : List LogFormat := [.pretty, .compact, .json]

def LogFormat.word : LogFormat → String
  | pretty => "pretty"
  | compact => "compact"
  | json => "json"

namespace LogSettings

def standard : LogSettings := ⟨.warn, .compact, false, none⟩

def levelOf : Nat → LogLevel
  | 0 => .warn
  | 1 => .info
  | 2 => .debug
  | _ => .trace

def ofVerbosity (verbosity : Nat) : LogSettings :=
  { standard with level := levelOf verbosity, spans := 2 ≤ verbosity }

end LogSettings

end Graft

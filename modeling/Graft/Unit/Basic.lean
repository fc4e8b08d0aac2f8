import Graft.Call.Boundary
import Graft.Types.Builtin
import Graft.Unit.Bridge
import Graft.Unit.Items
import Graft.Unit.Sink

/-!
# Compilation units

A unit is all that is kept for one host file: the active context, the symbols minted, the foreign
file, and a record of every call. Its operations either fail and leave all of this as it was, but
for the count of attempts, or emit one entry.
-/

namespace Graft

structure UnitOptions where
  symbolName : String
  edition : Edition
  crates : List String
  deriving DecidableEq, Repr

def UnitOptions.standard : UnitOptions := ⟨Symbol.standardName, .standard, []⟩

structure CallSite where
  /-- The place of its function in the foreign file. -/
  handle : Nat
  entry : EntryPoint
  symbol : String
  location : Location
  argNames : List String
  foreignParams : List ForeignType
  foreignResult : ForeignType
  declaration : HostDeclaration
  call : HostCall
  deriving DecidableEq, Repr

structure CompilationUnit where
  name : String
  options : UnitOptions
  context : TypeContext
  minter : SymbolMinter
  sink : Sink
  callSites : List CallSite
  /-- The number of snippets that were to be expanded, whether or not it succeeded. -/
  attempts : Nat
  deriving DecidableEq, Repr

namespace CompilationUnit

def ofName (name : String) (options : UnitOptions) (context : TypeContext) : CompilationUnit where
  name := name
  options := options
  context := context
  minter := .ofUnit options.symbolName name
  sink := .ofUnit name options.crates
  callSites := []
  attempts := 0

def setContext (u : CompilationUnit) (context : TypeContext) :
    Except Diagnostic CompilationUnit :=
  -- An attempt that failed counts as well.
  if 0 < u.attempts then
    .error ((Diagnostic.ofFault (.configurationOrder u.attempts) .none).inFile u.name)
  else .ok { u with context := context }

structure Resolved where
  snippet : Snippet
  signature : Signature
  args : List String

def lookUp (bridge : HostBridge) (site : Site) :
    List Placeholder → Except Diagnostic (List String) × List BridgeEvent
  | [] => (.ok [], [])
  | p :: ps =>
    match bridge.lookup p.name site with
    | none =>
      -- The names behind an unknown one are not looked up.
      (.error (.unresolvedIdentifier p.name p.location (bridge.visible site)), [.lookup p.name])
    | some host =>
      let (others, events) := lookUp bridge site ps
      (others.map (host :: ·), .lookup p.name :: events)

def resolve (u : CompilationUnit) (text : String) (site : Site) (bridge : HostBridge) :
    Except Diagnostic Resolved × List BridgeEvent :=
  match Snippet.read text site.location with
  | .error e => (.error e, [])
  | .ok snippet =>
    match Signature.resolve u.context snippet with
    | .error e => (.error e, [])
    | .ok signature =>
      let (args, events) := lookUp bridge site snippet.params
      (args.map fun args => ⟨snippet, signature, args⟩, events)

def boundary (u : CompilationUnit) (entry : EntryPoint) (bridge : HostBridge) (r : Resolved) :
    Boundary :=
  let symbol := u.minter.next
  .around (.ofSnippet symbol r.snippet entry u.options.edition) (bridge.bindingName symbol)
    r.signature r.args

def callSite (u : CompilationUnit) (b : Boundary) : CallSite where
  handle := u.sink.nextHandle
  entry := b.function.entry
  symbol := b.function.symbol
  location := b.function.location
  argNames := b.function.paramNames
  foreignParams := b.function.paramTypes
  foreignResult := b.function.result
  declaration := b.declaration
  call := b.call

structure Outcome (α : Type) where
  result : Except Diagnostic α
  unit : CompilationUnit
  events : List BridgeEvent

def expand (u : CompilationUnit) (entry : EntryPoint) (text : String) (site : Site)
    (bridge : HostBridge) : Outcome CallSite :=
  -- A snippet that fails costs an attempt, but neither a symbol nor an entry.
  let tried := { u with attempts := u.attempts + 1 }
  match u.resolve text site bridge with
  | (.error e, events) => ⟨.error (e.inFile u.name), tried, events⟩
  | (.ok r, events) =>
    let b := u.boundary entry bridge r
    let record := u.callSite b
    ⟨.ok record,
      { tried with
        minter := u.minter.advance
        sink := u.sink.push (.function b.function)
        callSites := u.callSites ++ [record] },
      events ++ [.declare b.declaration, .substitute site b.call]⟩

def emitItems (u : CompilationUnit) (text : String) (location : Location) :
    Except Diagnostic (Nat × CompilationUnit) :=
  match Items.check text with
  | .ok _ => .ok (u.sink.nextHandle, { u with sink := u.sink.push (.items text location) })
  | .error e =>
    .error ((Diagnostic.ofFault (.malformed ("invalid items: " ++ e.message))
      (.point (location.offset e.place))).inFile u.name)

def isEmpty (u : CompilationUnit) : Bool := u.sink.isEmpty

end CompilationUnit

end Graft

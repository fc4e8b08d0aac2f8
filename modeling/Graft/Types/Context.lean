import Graft.Types.ForeignType
import Graft.Types.HostType

/-!
# Type contexts

A context maps foreign types to host types. It holds single correspondences, and rules for types
that cannot be listed one by one because they are built from others. A rule resolves the parts of a
type in the context it belongs to. Contexts are merged so that the later one wins.
-/

namespace Graft

inductive TypeRule where
  /-- A raw pointer is a `Ptr` to what its pointee is. -/
  | pointers
  /-- A function of the C convention is a `FunPtr` to the type of its actions. -/
  | functionPointers
  deriving DecidableEq, Repr

namespace TypeRule

def name : TypeRule → String
  | pointers => "pointers"
  | functionPointers => "function_pointers"

/-- The parts of a type that a rule resolves, if it is a rule for types of this shape. The result of
a function comes behind its parameters. -/
def parts? (rule : TypeRule) (t : TypeTree) : Option (List ForeignType) :=
  match rule, t.shape with
  | pointers, .pointer pointee => some [.ofTree pointee]
  | functionPointers, .function (some "C") params false result =>
    some (params.map .ofTree ++ [(result.map ForeignType.ofTree).getD .nothing])
  | _, _ => none

def build (rule : TypeRule) (hosts : List HostType) : HostType :=
  match rule with
  | pointers => .apply "Ptr" hosts
  | functionPointers =>
    -- The result is the last of the parts.
    .apply "FunPtr" [.arrow hosts.dropLast (.apply "IO" hosts.getLast?.toList)]

end TypeRule

/-- Single correspondences in the order of their spellings, each foreign type once, and rules in
the order in which they were added. -/
structure TypeContext where
  entries : List (ForeignType × HostType)
  rules : List TypeRule
  deriving DecidableEq, Repr

namespace TypeContext

def insertEntry (foreign : ForeignType) (host : HostType) :
    List (ForeignType × HostType) → List (ForeignType × HostType)
  | [] => [(foreign, host)]
  | (f, h) :: es =>
    if foreign = f then (foreign, host) :: es
    else if foreign.spelling < f.spelling then (foreign, host) :: (f, h) :: es
    else (f, h) :: insertEntry foreign host es

def empty : TypeContext := ⟨[], []⟩

def insert (c : TypeContext) (foreign : ForeignType) (host : HostType) : TypeContext :=
  { c with entries := insertEntry foreign host c.entries }

/-- The context of the given correspondences; of two for one type the later wins. -/
def ofEntries (es : List (ForeignType × HostType)) : TypeContext :=
  es.foldl (fun c (f, h) => c.insert f h) empty

def ofRule (rule : TypeRule) : TypeContext := ⟨[], [rule]⟩

def listed? (c : TypeContext) (foreign : ForeignType) : Option HostType := c.entries.lookup foreign

/-- The rule of `c` for types of the shape of `foreign`, the rule added last first, and the parts that
it resolves. -/
def ruled? (c : TypeContext) (foreign : ForeignType) : Option (TypeRule × List ForeignType) := do
  let t ← foreign.tree?
  c.rules.reverse.findSome? fun rule => (rule.parts? t.peel).map (rule, ·)

def derived? (foreign : ForeignType) (c : TypeContext) : Option HostType := do
  let (rule, parts) ← c.ruled? foreign
  let hosts ← parts.mapM fun part =>
    -- A part with a correspondence of its own is not taken apart.
    match c.listed? part with
    | some host => some host
    | none => (derived? (c := c)) part
  return rule.build hosts
partial_fixpoint

/-- The host type of a foreign type: that of its own correspondence, or else what the rules
build. -/
def lookup (c : TypeContext) (foreign : ForeignType) : Option HostType :=
  match c.listed? foreign with
  | some host => some host
  | none => c.derived? foreign

def contains (c : TypeContext) (foreign : ForeignType) : Bool := (c.lookup foreign).isSome

/-- The first foreign type, by spelling, that has a correspondence to `host` of its own. -/
def lookupHost (c : TypeContext) (host : HostType) : Option ForeignType :=
  (c.entries.find? fun (_, h) => h = host).map (·.1)

def addRule (rules : List TypeRule) (rule : TypeRule) : List TypeRule :=
  rules.filter (· ≠ rule) ++ [rule]

/-- The correspondences of `c` that `later` leaves alone, by rules as well as singly. -/
def kept (c later : TypeContext) : List (ForeignType × HostType) :=
  -- Without rules there is nothing to drop: what is listed again is replaced in its place.
  if later.rules.isEmpty then c.entries
  else c.entries.filter fun (f, _) => !later.contains f

/-- Merges two contexts. Whatever `later` resolves, it resolves in the merged context. -/
def extend (c later : TypeContext) : TypeContext where
  entries := later.entries.foldl (fun es (f, h) => insertEntry f h es) (c.kept later)
  rules := later.rules.foldl addRule c.rules

def size (c : TypeContext) : Nat := c.entries.length

def isEmpty (c : TypeContext) : Bool := c.entries.isEmpty && c.rules.isEmpty

def spellings (c : TypeContext) : List String := c.entries.map (·.1.spelling)

end TypeContext

end Graft

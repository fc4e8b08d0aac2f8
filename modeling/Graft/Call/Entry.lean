/-!
# Entry points

How a snippet is called: whether the call may block or come back into the host, and whether it is
a plain value or an action. Each combination has a quoter of its own.
-/

namespace Graft

inductive Safety where
  | safe
  /-- It does neither, which nothing checks. -/
  | unchecked
  /-- As `safe`, and the host may interrupt it while it is blocked. -/
  | interruptible
  deriving DecidableEq, Repr

namespace Safety

def all : List Safety := [safe, unchecked, interruptible]

def keyword : Safety → String
  | safe => "safe"
  | unchecked => "unsafe"
  | interruptible => "interruptible"

def mayBlock (s : Safety) : Bool := s ≠ unchecked

def mayReenter (s : Safety) : Bool := s ≠ unchecked

def cancellable (s : Safety) : Bool := s = interruptible

def quoterPart : Safety → String
  | safe => ""
  | unchecked => "Unsafe"
  | interruptible => "Interruptible"

end Safety

inductive Purity where
  | pure
  | effectful
  deriving DecidableEq, Repr

namespace Purity

def all : List Purity := [pure, effectful]

def keyword : Purity → String
  | pure => "pure"
  | effectful => "effectful"

def isEffectful (p : Purity) : Bool := p = effectful

end Purity

structure EntryPoint where
  safety : Safety
  purity : Purity
  deriving DecidableEq, Repr

namespace EntryPoint

def all : List EntryPoint := Safety.all.flatMap fun s => Purity.all.map fun p => ⟨s, p⟩

def quoter (e : EntryPoint) : String :=
  "rust" ++ e.safety.quoterPart ++ if e.purity.isEffectful then "IO" else ""

def ofQuoter? (name : String) : Option EntryPoint := all.find? fun e => e.quoter = name

theorem ofQuoter?_quoter (e : EntryPoint) : ofQuoter? e.quoter = some e := by
  obtain ⟨s, p⟩ := e
  cases s <;> cases p <;>
    simp [ofQuoter?, all, Safety.all, Purity.all, quoter, Safety.quoterPart, Purity.isEffectful]

end EntryPoint

inductive QuoteKind where
  | expression (entry : EntryPoint)
  | items
  deriving DecidableEq, Repr

namespace QuoteKind

def itemsQuoter : String := "rustItems"

def ofQuoter? (name : String) : Option QuoteKind :=
  if name = itemsQuoter then some items else (EntryPoint.ofQuoter? name).map expression

def isQuoter (name : String) : Bool := (ofQuoter? name).isSome

end QuoteKind

end Graft

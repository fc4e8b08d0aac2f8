import Graft.Grammar.Look

/-!
# What reading gives

A type is kept as the tokens it is written with and its outermost shape, as far as rules look into
it. Of an expression or a pattern only what decides about the tokens behind it is kept.
-/

namespace Graft

inductive TypeShape (α : Type) where
  | paren (inner : α)
  | pointer (pointee : α)
  /-- A function type: the text of its calling convention, its parameters, whether more may
  follow them, and its result if it has one. -/
  | function (abi : Option String) (params : List α) (variadic : Bool) (result : Option α)
  /-- A path. It is `qualified` if it starts in a type, and `single` if it is one name. -/
  | path (qualified single : Bool)
  /-- Bounds without a keyword before them, and whether it is one bound with nothing after. -/
  | bareBounds (single : Bool)
  | other
  deriving Repr

inductive TypeTree where
  | mk (tokens : List Token) (shape : TypeShape TypeTree)

namespace TypeTree

def tokens : TypeTree → List Token
  | mk ts _ => ts

def shape : TypeTree → TypeShape TypeTree
  | mk _ s => s

end TypeTree

inductive ExprForm where
  | range
  | comparison
  /-- An expression that ends a statement or an arm without a mark. -/
  | blockLike
  | braceMacro
  | other
  deriving DecidableEq, Repr

inductive PatternForm where
  | rest
  /-- A range without one of its ends, and where its operator stands. -/
  | openRange (place : Position)
  | other
  deriving DecidableEq, Repr

inductive BoundForm where
  | lifetime
  | trait
  | capture
  deriving DecidableEq, Repr

structure Grammar where
  type (plus : Bool) : Parser TypeTree
  /-- A bound; `capture` allows a capture list, `const` a constness mark. -/
  bound (capture const : Bool) : Parser BoundForm
  /-- An expression; `structs` allows a brace behind a path to open a value. -/
  expr (structs : Bool) : Parser ExprForm
  operand (structs : Bool) : Parser ExprForm
  operators (left : ExprForm) (structs : Bool) (base : Nat) : Parser ExprForm
  /-- An expression at the start of a statement or an arm, where a block ends it. -/
  boundary : Parser ExprForm
  pattern : Parser PatternForm
  statements : Parser PUnit
  item : Parser PUnit
  /-- What a `use` names; `root` allows a path from the root. -/
  useTree (root : Bool) : Parser PUnit

end Graft

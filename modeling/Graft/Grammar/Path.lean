import Graft.Grammar.Tree

/-!
# Paths and generic arguments

A list of generic arguments is written with its lifetimes first, whatever their place in the
source.
-/

namespace Graft.Grammar

open Graft.Parser

def block (g : Grammar) : Parser PUnit := braces g.statements

/-- The delimited tokens of a macro call, which stay as they are. Gives whether they stand in
braces. -/
def macroArguments : Parser Bool := do
  match ← rest with
  | .group d inner span :: _ =>
    drop 1
    inside d inner span everything
    return d = .brace
  | _ => fail "expected delimiter"

def constArgument (g : Grammar) : Parser PUnit := do
  let ts ← rest
  if Look.literal ts then literal
  else if Look.name ts then
    let _ ← name
  else if Look.braces ts then g.block
  else failHere (if ts.isEmpty then "unexpected end of input" else "unexpected token")

structure Argument where
  isLifetime : Bool
  tokens : List Token
  comma : List Token

namespace Argument

def joined : List Argument → List Token
  | [] => []
  | [a] => a.tokens ++ a.comma
  | a :: as => a.tokens ++ (if a.comma.isEmpty then [Token.mark ','] else a.comma) ++ joined as

/-- The written form of generic arguments: lifetimes, then the others. -/
def arrange (as : List Argument) : List Token :=
  let lifetimes := as.filter (·.isLifetime)
  let others := as.filter (!·.isLifetime)
  let meet := lifetimes.getLast?.any (·.comma.isEmpty) && !others.isEmpty
  lifetimes.flatMap (fun a => a.tokens ++ a.comma) ++
    (if meet then [Token.mark ','] else []) ++ joined others

end Argument

def argumentBounds (g : Grammar) : Parser PUnit :=
  whileReading do
    let ts ← rest
    if Look.op "," ts || Look.op ">" ts then return false
    let _ ← g.bound false false
    op? "+"

/-- One generic argument: a lifetime, a constant, a type, or a name with its type or bounds. Gives
whether it is a lifetime. -/
def genericArgument (g : Grammar) : Parser Bool := do
  let ts ← rest
  if Look.lifetime ts && !Look.op "+" (Look.second ts) then
    lifetime
    return true
  if Look.literal ts || Look.braces ts then
    g.constArgument
    return false
  match (← g.type true).shape with
  | .path false true =>
    if ← op? "=" then
      let ts ← rest
      if Look.literal ts || Look.braces ts then g.constArgument
      else
        let _ ← g.type true
    else if ← op? ":" then g.argumentBounds
    return false
  | _ => return false

def argument? (g : Grammar) : Parser (Option Argument) := do
  if ← ahead (Look.op ">") then return none
  let (isLifetime, tokens) ← detached g.genericArgument
  if ← ahead (Look.op ">") then return some ⟨isLifetime, tokens, []⟩
  let (_, comma) ← detached (op ",")
  return some ⟨isLifetime, tokens, comma⟩

def genericArguments (g : Grammar) : Parser Nat := do
  op "<"
  let as ← many g.argument?
  write (Argument.arrange as)
  op ">"
  return as.length

structure PathForm where
  single : Bool
  plain : Bool
  /-- Its last name has no generic arguments, or none between the brackets. -/
  lastBare : Bool
  /-- What was written up to and with its last name, last first. -/
  bare : List Token

/-- The generic arguments behind a name of a path. In expressions their bracket needs `::` before
it. -/
def segmentRest (g : Grammar) (inExpr : Bool) : Parser PathForm := do
  let bare ← written
  let ts ← rest
  if (!inExpr && Look.opOnly "<" ["<=", "<<="] ts)
      || (Look.op "::" ts && Look.op "<" (Look.third ts)) then
    let _ ← op? "::"
    let n ← g.genericArguments
    return ⟨true, false, n = 0, bare⟩
  return ⟨true, true, true, bare⟩

def pathSegment (g : Grammar) (inExpr : Bool) : Parser PathForm := do
  let ts ← rest
  -- These words take no generic arguments.
  if Look.oneOf ["super", "self", "crate", "try"] ts then
    anyWord
    return ⟨true, true, true, ← written⟩
  if Look.word "Self" ts then
    anyWord
    g.segmentRest inExpr
  else
    let _ ← name
    g.segmentRest inExpr

def nextSegment? (g : Grammar) (inExpr : Bool) : Parser (Option PathForm) := do
  let ts ← rest
  if Look.op "::" ts && !Look.parens (Look.third ts) then
    op "::"
    return some (← g.pathSegment inExpr)
  else return none

def morePath (g : Grammar) (inExpr : Bool) (first : PathForm) : Parser PathForm := do
  let more ← many (g.nextSegment? inExpr)
  match more.getLast? with
  | none => return first
  | some last => return ⟨false, first.plain && more.all (·.plain), last.lastBare, last.bare⟩

def path (g : Grammar) (inExpr : Bool) : Parser PathForm := do
  let leading ← op? "::"
  let p ← g.morePath inExpr (← g.pathSegment inExpr)
  return { p with single := p.single && !leading }

/-- A path that may start in a type, as in `<T as A>::B`. Gives nothing for one that does. -/
def qualifiedPath (g : Grammar) (inExpr : Bool) : Parser (Option PathForm) := do
  if ← op? "<" then
    let _ ← g.type true
    if ← word? "as" then
      let _ ← g.path false
    op ">"
    op "::"
    let _ ← g.pathSegment inExpr
    whileReading do
      if ← op? "::" then
        let _ ← g.pathSegment inExpr
        return true
      else return false
    return none
  else return some (← g.path inExpr)

def plainPath : Parser PUnit := do
  let _ ← op? "::"
  let startsName (ts : List Token) : Bool :=
    Look.name ts || Look.oneOf ["super", "self", "Self", "crate"] ts
  if !(← ahead startsName) then
    let _ ← name
  else
    anyWord
    whileReading do
      if ← op? "::" then
        if ← ahead startsName then
          anyWord
          return true
        else fail "expected path segment after `::`"
      else return false

def attributeBody (g : Grammar) : Parser PUnit := do
  if !(← word? "unsafe") then plainPath
  let ts ← rest
  if Look.parens ts || Look.brackets ts || Look.braces ts then
    let _ ← macroArguments
  else if Look.opOnly "=" ["==", "=>"] ts then
    op "="
    -- A literal that is the whole value is not read as an expression.
    let alone ← foresee do
      literal
      isEmpty
    if alone = some true then literal
    else
      let ts ← rest
      if Look.op "#" ts && Look.brackets (Look.second ts) then
        fail "unexpected attribute inside of attribute"
      else
        let _ ← g.expr true

def outerAttribute (g : Grammar) : Parser PUnit := do
  op "#"
  brackets g.attributeBody

def outerAttributes (g : Grammar) : Parser Bool := do
  let found ← many do
    if ← ahead (Look.op "#") then
      g.outerAttribute
      return some PUnit.unit
    else return none
  return !found.isEmpty

def innerAttributes (g : Grammar) : Parser PUnit :=
  whileReading do
    let ts ← rest
    if Look.op "#" ts && Look.op "!" (Look.second ts) then
      op "#"
      op "!"
      brackets g.attributeBody
      return true
    else return false

end Graft.Grammar

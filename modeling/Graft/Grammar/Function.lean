import Graft.Grammar.Expression

/-!
# Visibility, functions and macro calls as items
-/

namespace Graft.Grammar

open Graft.Parser

def pathWords : List String := ["identifier", "`self`", "`super`", "`crate`", "`::`"]

def startsItemPath (ts : List Token) : Bool :=
  Look.name ts || Look.oneOf ["self", "super", "crate"] ts || Look.op "::" ts

def visibilityScope : Parser Bool := do
  let ts ← rest
  if Look.oneOf ["crate", "self", "super"] ts then
    anyWord
    isEmpty
  else if Look.word "in" ts then
    word "in"
    plainPath
    return true
  else return false

def visibility : Parser Bool := do
  if !(← word? "pub") then return false
  if ← ahead Look.parens then
    if (← foresee (parens visibilityScope)) = some true then
      let _ ← parens visibilityScope
  return true

def optional (s : String) : Parser PUnit := do
  let _ ← word? s

def functionMarks (safe : Bool) : Parser PUnit := do
  optional "const"
  optional "async"
  let marked ← if safe then word? "safe" else pure false
  if !marked then optional "unsafe"
  let _ ← convention?

def startsSignature (safe : Bool) : Parser Bool := do
  let found ← foresee do
    functionMarks safe
    ahead (Look.word "fn")
  return found = some true

def receiver (g : Grammar) : Parser Position := do
  let byRef ← op? "&"
  if byRef then
    let _ ← lifetime?
  optional "mut"
  let start ← place
  word "self"
  if !byRef then
    if ← op? ":" then
      let _ ← g.type true
  return start

inductive ParamForm where
  | receiver (place : Position)
  | typed
  | open
  deriving DecidableEq

def param (g : Grammar) : Parser ParamForm := do
  let _ ← g.outerAttributes
  if ← op? "..." then return .open
  if let some start ← attempt g.receiver then return .receiver start
  let ts ← rest
  if Look.name ts && Look.op "<" (Look.second ts) then
    let _ ← g.type true
    return .typed
  let _ ← g.pattern
  op ":"
  if ← op? "..." then return .open
  let _ ← g.type true
  return .typed

/-- A parameter and the comma behind it. A receiver has to be the first. -/
def checkedParam (g : Grammar) (first received : Bool) : Parser ParamForm := do
  let p ← g.param
  if let .receiver start := p then
    if received then failAt start "unexpected second method receiver"
    if !first then failAt start "unexpected method receiver"
  if !(← isEmpty) then op ","
  return p

def params (g : Grammar) : Parser PUnit := do
  if ← isEmpty then return ⟨⟩
  let first ← g.checkedParam true false
  let received := match first with
    | .receiver _ => true
    | _ => false
  if first = .open then return ⟨⟩
  whileReading do
    if ← isEmpty then return false
    return (← g.checkedParam false received) ≠ .open

def signature (g : Grammar) (safe : Bool) : Parser PUnit := do
  functionMarks safe
  word "fn"
  let _ ← name
  g.genericParams
  parens g.params
  let _ ← g.returnType true
  g.whereClause?

/-- A macro call without its end mark. Gives whether its arguments stand in braces. -/
def macroCall : Parser Bool := do
  plainPath
  op "!"
  macroArguments

/-- A macro call as an item; one without braces ends in a semicolon. -/
def macroMember : Parser PUnit := do
  if !(← macroCall) then op ";"

def macroItem : Parser PUnit := do
  plainPath
  op "!"
  let ts ← rest
  if Look.name ts || Look.word "try" ts then anyWord
  if !(← macroArguments) then op ";"

def value? (g : Grammar) : Parser PUnit := do
  if ← op? "=" then
    let _ ← g.expr true

def constantRest (g : Grammar) : Parser PUnit := do
  let ts ← rest
  if Look.name ts || Look.word "_" ts then anyWord else expected ["identifier", "`_`"]
  g.genericParams
  op ":"
  let _ ← g.type true
  g.value?
  g.whereClause?
  op ";"

inductive ConditionPlace where
  | before
  | behind
  | either
  deriving DecidableEq

def boundsUntil (g : Grammar) (stop : List Token → Bool) : Parser PUnit :=
  whileReading do
    if ← ahead stop then return false
    let _ ← g.bound false true
    if ← ahead stop then return false
    op "+"
    return true

def typeAlias (g : Grammar) (conditions : ConditionPlace) : Parser PUnit := do
  word "type"
  let _ ← name
  g.genericParams
  if ← op? ":" then
    g.boundsUntil fun ts => Look.word "where" ts || Look.op "=" ts || Look.op ";" ts
  let before ← ahead (Look.word "where")
  if conditions ≠ .behind then g.whereClause?
  if ← op? "=" then
    let _ ← g.type true
  if conditions = .behind || (conditions = .either && !before) then g.whereClause?
  op ";"

end Graft.Grammar

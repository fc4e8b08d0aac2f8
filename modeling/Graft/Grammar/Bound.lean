import Graft.Grammar.Path

/-!
# Bounds, binders and generic parameters
-/

namespace Graft.Grammar

open Graft.Parser

def startsBound (const : Bool) (ts : List Token) : Bool :=
  Look.anyWord ts || Look.op "::" ts || Look.op "?" ts || Look.lifetime ts || Look.parens ts ||
    (const && (Look.brackets ts || Look.word "const" ts))

def readsNothing (p : Parser PUnit) : Parser Bool := do
  let before := (← rest).length
  p
  return (← rest).length = before

/-- A colon and the bounds that `bounds` reads. A colon without bounds is not written. -/
def colonBounds (bounds : Parser PUnit) : Parser PUnit := do
  let before ← written
  if ← op? ":" then
    if ← readsNothing bounds then setWritten before

def lifetimeParam : Parser PUnit := do
  lifetime
  colonBounds <| whileReading do
    let ts ← rest
    if ts.isEmpty || Look.op "," ts || Look.op ">" ts then return false
    lifetime
    op? "+"

def typeParamBounds (g : Grammar) : Parser PUnit :=
  whileReading do
    let ts ← rest
    if ts.isEmpty || Look.op "," ts || Look.op ">" ts || Look.op "=" ts then return false
    let _ ← g.bound false true
    op? "+"

def typeParamRest (g : Grammar) : Parser PUnit := do
  colonBounds g.typeParamBounds
  if ← op? "=" then
    let _ ← g.type true

def constParam (g : Grammar) : Parser PUnit := do
  word "const"
  let _ ← name
  op ":"
  let _ ← g.type true
  if ← op? "=" then g.constArgument

def binderParam (g : Grammar) : Parser PUnit := do
  let _ ← g.outerAttributes
  let ts ← rest
  if Look.name ts then
    let _ ← name
    g.typeParamRest
  else if Look.lifetime ts then lifetimeParam
  else if Look.word "const" ts then g.constParam
  else expected ["identifier", "lifetime", "`const`"]

def binder (g : Grammar) : Parser PUnit := do
  word "for"
  op "<"
  let _ ← listUntil (Look.op ">") "," g.binderParam
  op ">"

def binder? (g : Grammar) : Parser Bool := do
  if ← ahead (Look.word "for") then
    g.binder
    return true
  else return false

def returnType (g : Grammar) (plus : Bool) : Parser (Option TypeTree) := do
  if ← op? "->" then return some (← g.type plus) else return none

def callableArguments (g : Grammar) : Parser PUnit := do
  let _ ← parens (commaList (g.type true))
  let _ ← g.returnType false

/-- The path of a trait. Arguments in parentheses replace an empty argument list before them. -/
def traitPath (g : Grammar) : Parser PUnit := do
  let p ← g.path false
  let ts ← rest
  if p.lastBare && (Look.parens ts || (Look.op "::" ts && Look.parens (Look.third ts))) then
    let _ ← op? "::"
    setWritten p.bare
    g.callableArguments

def traitBound (g : Grammar) (const : Bool) : Parser PUnit := do
  let bound ← g.binder?
  let start ← place
  if ← ahead Look.brackets then
    brackets (word "const")
    if !const then failAt start "`[const]` is not allowed here"
  else if ← word? "const" then
    if !const then failAt start "`const` is not allowed here"
  let mark ← place
  let maybe ← op? "?"
  let bound ← if !bound && maybe then g.binder? else pure bound
  g.traitPath
  if bound && maybe then
    failAt mark "`for<...>` binder not allowed with `?` trait polarity modifier"

def captureList : Parser PUnit := do
  word "use"
  op "<"
  whileReading do
    let ts ← rest
    if Look.lifetime ts then lifetime
    else if Look.name ts || Look.word "Self" ts then anyWord
    else if Look.op ">" ts then return false
    else expected ["lifetime", "identifier", "`>`"]
    if ← op? "," then return true
    else if ← ahead (Look.op ">") then return false
    else expected ["`,`", "`>`"]
  op ">"

def boundForm (g : Grammar) (capture const : Bool) : Parser BoundForm := do
  let ts ← rest
  if Look.lifetime ts then
    lifetime
    return .lifetime
  if Look.word "use" ts then
    let start ← place
    captureList
    if capture then return .capture
    else failAt start "`use<...>` precise capturing syntax is not allowed here"
  if Look.parens ts then parens (g.traitBound const) else g.traitBound const
  return .trait

def boundSum (g : Grammar) (plus capture const : Bool) : Parser (List BoundForm) := do
  let first ← g.bound capture const
  let others ← many do
    if plus && (← ahead (Look.op "+")) then
      op "+"
      if ← ahead (startsBound const) then return some (← g.bound capture const) else return none
    else return none
  return first :: others

/-- Further bounds behind one already read. Gives whether there was a `+`. -/
def moreBounds (g : Grammar) : Parser Bool := do
  let before := (← rest).length
  whileReading do
    if ← op? "+" then
      if ← ahead (startsBound false) then
        let _ ← g.bound false false
        return true
      else return false
    else return false
  return (← rest).length < before

/-- Whether a parameter list rather than a type in angle brackets is next. -/
def startsParams (ts : List Token) : Bool :=
  let second := Look.second ts
  let third := Look.third ts
  Look.op "<" ts &&
    (Look.op ">" second || Look.op "#" second ||
      ((Look.lifetime second || Look.name second) &&
        (Look.op ">" third || Look.op "," third || Look.opOnly ":" ["::"] third ||
          Look.op "=" third)) ||
      Look.word "const" second)

def genericParam (g : Grammar) : Parser PUnit := do
  let _ ← g.outerAttributes
  let ts ← rest
  if Look.lifetime ts then lifetimeParam
  else if Look.name ts then
    let _ ← name
    g.typeParamRest
  else if Look.word "const" ts then g.constParam
  else if Look.word "_" ts then anyWord
  else expected ["lifetime", "identifier", "`const`"]

def genericParams (g : Grammar) : Parser PUnit := do
  if ← op? "<" then
    let _ ← listUntil (Look.op ">") "," g.genericParam
    op ">"

def endsCondition (ts : List Token) : Bool :=
  ts.isEmpty || Look.braces ts || Look.op "," ts || Look.op ";" ts || Look.opOnly ":" ["::"] ts ||
    Look.op "=" ts

def condition (g : Grammar) : Parser PUnit := do
  let ts ← rest
  if Look.lifetime ts && Look.op ":" (Look.second ts) then
    lifetime
    op ":"
    whileReading do
      let ts ← rest
      if endsCondition ts || Look.op ":" ts then return false
      lifetime
      op? "+"
  else
    let _ ← g.binder?
    let _ ← g.type true
    op ":"
    whileReading do
      if ← ahead endsCondition then return false
      let _ ← g.bound false true
      op? "+"

def conditions (g : Grammar) : Parser PUnit :=
  whileReading do
    if ← ahead endsCondition then return false
    g.condition
    op? ","

/-- A `where` clause. One without conditions is not written. -/
def whereClause (g : Grammar) : Parser PUnit := do
  let before ← written
  word "where"
  if startsParams (← rest) then
    fail "generic parameters on `where` clauses are reserved for future use"
  if ← readsNothing g.conditions then setWritten before

def whereClause? (g : Grammar) : Parser PUnit := do
  if ← ahead (Look.word "where") then g.whereClause

end Graft.Grammar

import Graft.Grammar.Type

/-!
# Patterns
-/

namespace Graft.Grammar

open Graft.Parser

/-- Reads the operator of a range and gives whether the range includes its end. An old spelling
of the closed range is read where `old` holds and written in the new one. -/
def rangeLimits (old : Bool) : Parser Bool := do
  let ts ← rest
  if Look.op "..=" ts then
    op "..="
    return true
  else if Look.op "..." ts then
    if old then
      drop 3
      write (Token.operator "..=" .nowhere)
      return true
    else expected ["`..=`"]
  else
    op ".."
    return false

def alternatives (g : Grammar) : Parser PatternForm := do
  let leading ← op? "|"
  let first ← g.pattern
  let others ← many do
    if ← ahead (Look.opOnly "|" ["||", "|="]) then
      op "|"
      return some (← g.pattern)
    else return none
  return if leading || !others.isEmpty then .other else first

def fieldIndex : Parser PUnit := do
  let start ← place
  match ← rest with
  | .literal s span :: _ =>
    let (value, suffix) := Literal.intParts s
    if !suffix.isEmpty then failAt start "expected unsuffixed integer"
    else if 4294967295 < value then failAt start "number too large to fit in target type"
    else
      drop 1
      write [.literal (toString value) span]
  | _ => failAt start "invalid digit found in string"

/-- The name or position of a field. Gives whether it is a name. -/
def member : Parser Bool := do
  let ts ← rest
  if Look.name ts then
    let _ ← name
    return true
  else if Look.int ts then
    fieldIndex
    return false
  else fail "expected identifier or integer"

def constBlock (g : Grammar) : Parser PUnit := do
  word "const"
  braces do
    g.innerAttributes
    g.statements

/-- The end of a range in a pattern. Gives whether there is one. -/
def patternBound (g : Grammar) : Parser Bool := do
  let ts ← rest
  if ts.isEmpty || Look.op "|" ts || Look.op "=" ts || Look.opOnly ":" ["::"] ts ||
      Look.op "," ts || Look.op ";" ts || Look.word "if" ts then
    return false
  if Look.literal ts then literal
  else if startsPath ts || Look.op "::" ts || Look.op "<" ts then
    let _ ← g.qualifiedPath true
  else if Look.word "const" ts then g.constBlock
  else expected ["literal", "identifier", "`::`", "`<`", "`self`", "`Self`", "`super`", "`crate`",
    "`const`"]
  return true

def rangePattern (g : Grammar) : Parser PatternForm := do
  let start ← place
  let closed ← rangeLimits true
  let bounded ← g.patternBound
  if closed && !bounded then fail "expected range upper bound"
  return if bounded then .other else .openRange start

def openPattern (g : Grammar) : Parser PatternForm := do
  let start ← place
  let closed ← rangeLimits false
  if ← g.patternBound then return .openRange start
  if closed then fail "expected range upper bound"
  return .rest

def fieldPattern (g : Grammar) : Parser PUnit := do
  let boxed ← word? "box"
  let byRef ← word? "ref"
  let mutable ← word? "mut"
  let marked := boxed || byRef || mutable
  let named ← if marked then do
      let _ ← name
      pure true
    else member
  if (!marked && (← ahead (Look.op ":"))) || !named then
    op ":"
    let _ ← g.alternatives

def fieldPatterns (g : Grammar) : Parser PUnit :=
  whileReading do
    if ← isEmpty then return false
    let _ ← g.outerAttributes
    if ← op? ".." then return false
    g.fieldPattern
    if ← isEmpty then return false
    op ","
    return true

def pathPattern (g : Grammar) : Parser PatternForm := do
  let p ← g.qualifiedPath true
  let ts ← rest
  if Look.opOnly "!" ["!="] ts && p.any (·.plain) then
    op "!"
    let _ ← macroArguments
    return .other
  else if Look.braces ts then
    braces g.fieldPatterns
    return .other
  else if Look.parens ts then
    let _ ← parens (commaList g.alternatives)
    return .other
  else if Look.op ".." ts then g.rangePattern
  else return .other

def namePattern (g : Grammar) : Parser PatternForm := do
  let _ ← word? "ref"
  let _ ← word? "mut"
  if ← ahead (Look.word "self") then anyWord
  else
    let _ ← name
  if ← op? "@" then
    let _ ← g.pattern
  return .other

def literalPattern (g : Grammar) : Parser PatternForm := do
  let _ ← g.patternBound
  if ← ahead (Look.op "..") then g.rangePattern else return .other

/-- An element of a slice pattern. A range without one of its ends needs parentheses there. -/
def elementPattern (g : Grammar) : Parser PUnit := do
  match ← g.alternatives with
  | .openRange start =>
    failAt start "range pattern is not allowed unparenthesized inside slice pattern"
  | _ => return ⟨⟩

def patternForm (g : Grammar) : Parser PatternForm := do
  let ts ← rest
  let second := Look.second ts
  let pathFollows := Look.op "::" second || Look.op "!" second || Look.braces second ||
    Look.parens second || Look.op ".." second
  if (Look.name ts && pathFollows) || (Look.word "self" ts && Look.op "::" second) ||
      Look.op "::" ts || Look.op "<" ts || Look.oneOf ["Self", "super", "crate"] ts then
    g.pathPattern
  else if Look.word "_" ts then
    anyWord
    return .other
  else if Look.word "box" ts then
    word "box"
    let _ ← g.pattern
    return .other
  else if Look.op "-" ts || Look.literal ts || Look.word "const" ts then g.literalPattern
  else if Look.oneOf ["ref", "mut", "self"] ts || Look.name ts then g.namePattern
  else if Look.op "&" ts then
    op "&"
    let _ ← word? "mut"
    let _ ← g.pattern
    return .other
  else if Look.parens ts then
    let _ ← parens (commaList g.alternatives)
    return .other
  else if Look.brackets ts then
    let _ ← brackets (commaList g.elementPattern)
    return .other
  else if Look.opOnly ".." ["..."] ts then g.openPattern
  else
    expected (["identifier", "`::`", "`<`", "`_`", "literal", "`const`", "`ref`", "`mut`", "`&`",
      "parentheses", "square brackets"] ++ if Look.op ".." ts then [] else ["`..`"])

end Graft.Grammar

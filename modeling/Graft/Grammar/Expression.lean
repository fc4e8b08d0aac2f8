import Graft.Grammar.Pattern

/-!
# Expressions

Operators bind by precedence, a larger number binding closer. A range is no operand of an operator
behind it, and comparisons do not chain.
-/

namespace Graft.Grammar

open Graft.Parser

namespace Precedence

def least : Nat := 0
def assign : Nat := 1
def range : Nat := 2
def compare : Nat := 6
def cast : Nat := 13

/-- The binary operators, longer ones first, with their precedences. -/
def operators : List (String × Nat) :=
  [("+=", 1), ("-=", 1), ("*=", 1), ("/=", 1), ("%=", 1), ("^=", 1), ("&=", 1), ("|=", 1),
   ("<<=", 1), (">>=", 1), ("&&", 4), ("||", 3), ("<<", 10), (">>", 10), ("==", 6), ("<=", 6),
   ("!=", 6), (">=", 6), ("+", 11), ("-", 11), ("*", 12), ("/", 12), ("%", 12), ("^", 8),
   ("&", 9), ("|", 7), ("<", 6), (">", 6)]

def operator? (ts : List Token) : Option (String × Nat) :=
  operators.find? fun (s, _) => Look.op s ts

def next (ts : List Token) : Nat :=
  match operator? ts with
  | some (_, n) => n
  | none =>
    if Look.opOnly "=" ["=>"] ts then assign
    else if Look.op ".." ts then range
    else if Look.word "as" ts then cast
    else least

end Precedence

def startsExpression (ts : List Token) : Bool :=
  (Look.anyWord ts && !Look.word "as" ts) || Look.parens ts || Look.brackets ts ||
    Look.braces ts || Look.literal ts || Look.opOnly "!" ["!="] ts ||
    Look.opOnly "-" ["-=", "->"] ts || Look.opOnly "*" ["*="] ts || Look.opOnly "|" ["|="] ts ||
    Look.opOnly "&" ["&="] ts || Look.op ".." ts || Look.opOnly "<" ["<=", "<<="] ts ||
    Look.op "::" ts || Look.lifetime ts || Look.op "#" ts

def body (g : Grammar) : Parser PUnit :=
  braces do
    g.innerAttributes
    g.statements

def label? : Parser PUnit := do
  if ← lifetime? then op ":"

def rightOperand (g : Grammar) (structs : Bool) (precedence : Nat) : Parser PUnit := do
  let _ ← iterate (fun right => do
      let next := Precedence.next (← rest)
      -- Of equal operators only assignments group to the right.
      if precedence < next || (next = precedence && precedence = Precedence.assign) then
        return some (← g.operators right structs next)
      else return none)
    (← g.operand structs)

def endsRange (structs : Bool) (ts : List Token) : Bool :=
  ts.isEmpty || Look.opOnly "." [".."] ts || (!structs && Look.braces ts) || Look.word "as" ts ||
    [",", ";", "?", "=>", "=", "+", "/", "%", "^", ">", "<=", "!=", "-=", "*=", "&=", "|=",
      "<<="].any (Look.op · ts)

def rangeRest (g : Grammar) (structs : Bool) : Parser PUnit := do
  let closed ← rangeLimits false
  if closed || !(← ahead (endsRange structs)) then g.rightOperand structs Precedence.range

/-- Refuses what binds closer than a conversion behind one. -/
def afterCast : Parser PUnit := do
  let ts ← rest
  let second := Look.second ts
  let third := Look.third ts
  let refuse (what : String) : Parser PUnit := fail ("casts cannot be followed by " ++ what)
  if Look.opOnly "." [".."] ts then
    if Look.word "await" second then refuse "`.await`"
    else if Look.name second && (Look.parens third || Look.op "::" third) then
      refuse "a method call"
    else refuse "a field access"
  else if Look.op "?" ts then refuse "`?`"
  else if Look.brackets ts then refuse "indexing"
  else if Look.parens ts then refuse "a function call"

def operatorStep (g : Grammar) (structs : Bool) (base : Nat) (left : ExprForm) :
    Parser (Option ExprForm) := do
  let ts ← rest
  if left = .range then return none
  match Precedence.operator? ts with
  | some (s, precedence) =>
    if precedence < base then return none
    if precedence = Precedence.compare && left = .comparison then
      fail "comparison operators cannot be chained"
    op s
    g.rightOperand structs precedence
    return some (if precedence = Precedence.compare then .comparison else .other)
  | none =>
    if base ≤ Precedence.assign && Look.opOnly "=" ["=>"] ts then
      op "="
      g.rightOperand structs Precedence.assign
      return some .other
    else if base ≤ Precedence.range && Look.op ".." ts then
      g.rangeRest structs
      return some .range
    else if base ≤ Precedence.cast && Look.word "as" ts then
      word "as"
      let _ ← g.type false
      afterCast
      return some .other
    else return none

def operatorsForm (g : Grammar) (left : ExprForm) (structs : Bool) (base : Nat) :
    Parser ExprForm :=
  iterate (g.operatorStep structs base) left

/-- Field positions that were read as a number with a point, as in `x.0.1`. Gives whether the
number ends in a digit rather than in the point of a further member. -/
def fieldIndices (text : String) (span : Span) : Parser Bool := do
  let trailing := text.endsWith "."
  let parts := (text.splitOn ".").filter (!·.isEmpty)
  let good (part : String) : Bool := Literal.isInt part && (Literal.intParts part).2.isEmpty
  if !parts.all good then failAt span.first "expected unsuffixed integer"
  drop 1
  let digit (part : String) : Token := .literal (toString (Literal.intParts part).1) span
  write ((parts.map fun part => [digit part]).intersperse [.mark '.']).flatten
  if trailing then write [.mark '.']
  return !trailing

def memberAccess (g : Grammar) : Parser PUnit := do
  if ← word? "await" then return ⟨⟩
  let named ← member
  let turbofish ← if named then op? "::" else pure false
  if turbofish then
    let _ ← g.genericArguments
  if named && (turbofish || (← ahead Look.parens)) then
    let _ ← parens (commaList (g.expr true))

def trailer (g : Grammar) (e : ExprForm) : Parser (Option ExprForm) := do
  let ts ← rest
  if Look.parens ts then
    let _ ← parens (commaList (g.expr true))
    return some .other
  else if Look.opOnly "." [".."] ts && e ≠ .range then
    op "."
    match ← rest with
    | .literal s span :: _ =>
      if Literal.isFloat s then
        if !(← fieldIndices s span) then g.memberAccess
      else g.memberAccess
    | _ => g.memberAccess
    return some .other
  else if Look.brackets ts then
    let _ ← brackets (g.expr true)
    return some .other
  else if Look.op "?" ts && e ≠ .range then
    op "?"
    return some .other
  else return none

def trailers (g : Grammar) (e : ExprForm) : Parser ExprForm := iterate g.trailer e

def closure (g : Grammar) (structs : Bool) : Parser PUnit := do
  let _ ← g.binder?
  for s in ["const", "static", "async", "move"] do
    let _ ← word? s
  op "|"
  let _ ← listUntil (Look.op "|") "," do
    let _ ← g.outerAttributes
    let _ ← g.pattern
    if ← op? ":" then
      let _ ← g.type true
  op "|"
  if ← op? "->" then
    let _ ← g.type true
    g.block
  else
    let _ ← g.expr structs

def fieldValue (g : Grammar) : Parser PUnit := do
  let _ ← g.outerAttributes
  let named ← member
  if !named || (← ahead (Look.op ":")) then
    op ":"
    let _ ← g.expr true

def fieldValues (g : Grammar) : Parser PUnit :=
  whileReading do
    if ← isEmpty then return false
    if ← op? ".." then
      if !(← isEmpty) then
        let _ ← g.expr true
      return false
    g.fieldValue
    if ← isEmpty then return false
    op ","
    return true

def pathExpression (g : Grammar) (structs : Bool) : Parser ExprForm := do
  let p ← g.qualifiedPath true
  let ts ← rest
  if Look.opOnly "!" ["!="] ts && p.any (·.plain) then
    op "!"
    return if ← macroArguments then .braceMacro else .other
  else if structs && Look.braces ts then
    braces g.fieldValues
    return .other
  else return .other

def arrayItems (g : Grammar) : Parser PUnit := do
  if ← isEmpty then return ⟨⟩
  let _ ← g.expr true
  let ts ← rest
  if ts.isEmpty then return ⟨⟩
  else if Look.op "," ts then
    op ","
    let _ ← commaList (g.expr true)
  else if Look.op ";" ts then
    op ";"
    let _ ← g.expr true
  else fail "expected `,` or `;`"

def ifExpression (g : Grammar) : Parser PUnit := do
  word "if"
  let _ ← g.expr false
  g.block
  whileReading do
    if !(← word? "else") then return false
    let ts ← rest
    if Look.word "if" ts then
      word "if"
      let _ ← g.expr false
      g.block
      return true
    else if Look.braces ts then
      g.block
      return false
    else expected ["`if`", "curly braces"]

def loopExpression (g : Grammar) : Parser PUnit := do
  label?
  if ← word? "while" then
    let _ ← g.expr false
  else if ← word? "for" then
    let _ ← g.alternatives
    word "in"
    let _ ← g.expr false
  else word "loop"
  g.body

def blockExpression (g : Grammar) : Parser PUnit := do
  label?
  g.body

def labelled (g : Grammar) : Parser PUnit := do
  lifetime
  op ":"
  let ts ← rest
  if Look.oneOf ["while", "for", "loop"] ts then g.loopExpression
  else if Look.braces ts then g.blockExpression
  else fail "expected loop or block expression"

def breakExpression (g : Grammar) (structs : Bool) : Parser PUnit := do
  word "break"
  let ts ← rest
  if Look.lifetime ts && Look.op ":" (Look.second ts) then
    -- A labelled loop behind the word would be taken for the label it breaks to.
    let start ← place
    let _ ← g.expr true
    failAt start "parentheses required"
  let _ ← lifetime?
  let ts ← rest
  if startsExpression ts && (structs || !Look.braces ts) then
    let _ ← g.expr structs

def jump (g : Grammar) (s : String) : Parser PUnit := do
  word s
  if ← ahead startsExpression then
    let _ ← g.expr true

def letExpression (g : Grammar) (structs : Bool) : Parser PUnit := do
  word "let"
  let _ ← g.alternatives
  op "="
  -- A conjunction ends the value: what follows is a further condition.
  let e ← g.operand structs
  let _ ← g.operators e structs Precedence.compare

def builtin : Parser PUnit := do
  anyWord
  op "#"
  let _ ← name
  parens everything

def startsClosure (ts : List Token) : Bool :=
  let second := Look.second ts
  let third := Look.third ts
  Look.op "|" ts || Look.word "move" ts || Look.word "static" ts ||
    (Look.word "for" ts && Look.op "<" second && (Look.lifetime third || Look.op ">" third)) ||
    (Look.word "const" ts && !Look.braces second) ||
    (Look.word "async" ts && (Look.op "|" second || Look.word "move" second))

/-- An arm of a choice by patterns. A body that is no block needs a comma before the next arm. -/
def arm (g : Grammar) : Parser PUnit := do
  let _ ← g.outerAttributes
  let _ ← g.alternatives
  if ← word? "if" then
    let _ ← g.expr true
  op "=>"
  let body ← g.boundary
  if body ≠ .blockLike && !(← isEmpty) then op ","
  else
    let _ ← op? ","

def matchExpression (g : Grammar) : Parser PUnit := do
  word "match"
  let _ ← g.expr false
  braces do
    g.innerAttributes
    allOf g.arm

def blockLike? (g : Grammar) : Parser Bool := do
  let ts ← rest
  let second := Look.second ts
  if Look.word "if" ts then g.ifExpression
  else if Look.oneOf ["while", "loop"] ts || (Look.word "for" ts && !startsClosure ts) then
    g.loopExpression
  else if Look.word "match" ts then g.matchExpression
  else if Look.word "try" ts && Look.braces second then
    word "try"
    g.block
  else if Look.word "unsafe" ts then
    word "unsafe"
    g.body
  else if Look.word "const" ts && Look.braces second then g.constBlock
  else if Look.braces ts then g.blockExpression
  else if Look.lifetime ts then g.labelled
  else return false
  return true

def asyncBlock (g : Grammar) : Parser PUnit := do
  word "async"
  let _ ← word? "move"
  g.block

def jump? (g : Grammar) (structs : Bool) : Parser Bool := do
  let ts ← rest
  if Look.word "break" ts then g.breakExpression structs
  else if Look.word "continue" ts then
    word "continue"
    let _ ← lifetime?
  else if Look.word "return" ts then g.jump "return"
  else if Look.word "yield" ts then g.jump "yield"
  else if Look.word "become" ts then
    word "become"
    let _ ← g.expr true
  else return false
  return true

def atom (g : Grammar) (structs : Bool) : Parser ExprForm := do
  let ts ← rest
  let second := Look.second ts
  let asyncBlockNext := Look.word "async" ts &&
    (Look.braces second || (Look.word "move" second && Look.braces (Look.third ts)))
  let tryPath := Look.word "try" ts && (Look.op "!" second || Look.op "::" second)
  if Look.literal ts then literal
  else if asyncBlockNext then g.asyncBlock
  else if startsClosure ts then g.closure structs
  else if Look.word "builtin" ts && Look.op "#" second then builtin
  else if startsPath ts || Look.op "::" ts || Look.op "<" ts || tryPath then
    return ← g.pathExpression structs
  else if Look.parens ts then
    let _ ← parens (commaList (g.expr true))
  else if Look.brackets ts then brackets g.arrayItems
  else if Look.word "let" ts then g.letExpression structs
  else if Look.op ".." ts then
    g.rangeRest structs
    return .range
  else if Look.word "_" ts then anyWord
  else if !(← g.jump? structs) then
    if !(← g.blockLike?) then fail "expected an expression"
  return .other

def operandForm (g : Grammar) (structs : Bool) : Parser ExprForm := do
  let marked ← g.outerAttributes
  let ts ← rest
  let second := Look.second ts
  if Look.op "&" ts then
    op "&"
    if Look.word "raw" second && Look.oneOf ["mut", "const"] (Look.third ts) then
      word "raw"
      anyWord
    else
      let _ ← word? "mut"
    let _ ← g.operand structs
    return .other
  for sign in ["*", "!", "-"] do
    if Look.op sign ts then
      op sign
      let _ ← g.operand structs
      return .other
  let start ← place
  let e ← g.trailers (← g.atom structs)
  if marked && e = .range then
    failAt start "attributes are not allowed on range expressions starting with `..`"
  return e

def exprForm (g : Grammar) (structs : Bool) : Parser ExprForm := do
  g.operators (← g.operand structs) structs Precedence.least

/-- An expression at the start of a statement or an arm: a block that nothing selects from ends
it. -/
def boundaryForm (g : Grammar) : Parser ExprForm := do
  let _ ← g.outerAttributes
  if ← g.blockLike? then
    let ts ← rest
    if Look.opOnly "." [".."] ts || Look.op "?" ts then
      g.operators (← g.trailers .other) true Precedence.least
    else return .blockLike
  else g.exprForm true

end Graft.Grammar

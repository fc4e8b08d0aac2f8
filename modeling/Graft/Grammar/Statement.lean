import Graft.Grammar.Item

/-!
# Statements

A statement that does not end by itself needs a semicolon, except at the end of its block.
-/

namespace Graft.Grammar

open Graft.Parser

def letStatement (g : Grammar) : Parser PUnit := do
  word "let"
  let _ ← g.pattern
  if ← op? ":" then
    let _ ← g.type true
  if ← op? "=" then
    let _ ← g.expr true
    let endsInBrace := (← written).head?.any (Token.isGroup .brace)
    if !endsInBrace then
      if ← word? "else" then g.block
  op ";"

def startsItem (ts : List Token) : Bool :=
  let second := Look.second ts
  let third := Look.third ts
  let isWord (s : String) := Look.word s ts
  Look.oneOf ["pub", "extern", "use", "fn", "mod", "type", "struct", "enum", "trait", "impl",
    "macro"] ts ||
  (isWord "crate" && !Look.op "::" second) ||
  (isWord "static" && (Look.word "mut" second || Look.name second)) ||
  (isWord "const" && !(Look.braces second || Look.word "static" second ||
    (Look.word "async" second && !Look.oneOf ["unsafe", "extern", "fn"] third) ||
    Look.word "move" second || Look.op "|" second)) ||
  (isWord "unsafe" && !Look.braces second) ||
  (isWord "async" && Look.oneOf ["unsafe", "extern", "fn"] second) ||
  (isWord "union" && Look.name second) ||
  (isWord "auto" && Look.word "trait" second) ||
  (isWord "default" && Look.oneOf ["unsafe", "impl"] second)

inductive MacroStatement where
  | item
  | braces
  | other
  deriving DecidableEq

def macroAhead : Parser MacroStatement := do
  let form ← foresee do
    plainPath
    let ts ← rest
    let second := Look.second ts
    let third := Look.third ts
    if !Look.op "!" ts then return .other
    else if Look.name second || Look.word "try" second then return .item
    else if Look.braces second && !(Look.opOnly "." [".."] third || Look.op "?" third) then
      return .braces
    else return .other
  return form.getD .other

/-- A statement. Gives whether it ends by itself. -/
def statement (g : Grammar) : Parser Bool := do
  let _ ← g.outerAttributes
  match ← macroAhead with
  | .braces =>
    let _ ← macroCall
    let _ ← op? ";"
    return true
  | form =>
    let ts ← rest
    if Look.word "let" ts then
      g.letStatement
      return true
    else if startsItem ts || form = .item then
      g.itemRest
      return true
    else
      let e ← g.boundary
      let ended ← op? ";"
      return ended || e = .blockLike || e = .braceMacro

def statementsForm (g : Grammar) : Parser PUnit :=
  whileReading do
    whileReading (op? ";")
    if ← isEmpty then return false
    let ended ← g.statement
    if ← isEmpty then return false
    if !ended then fail "unexpected token, expected `;`"
    return true

end Graft.Grammar

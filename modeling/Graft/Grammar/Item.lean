import Graft.Grammar.Member

/-!
# Items
-/

namespace Graft.Grammar

open Graft.Parser

def namedField (g : Grammar) : Parser PUnit := do
  let _ ← g.outerAttributes
  let _ ← visibility
  let unnamed ← ahead (Look.word "_")
  if unnamed then anyWord
  else
    let _ ← name
  op ":"
  let ts ← rest
  if unnamed && (Look.word "struct" ts || (Look.word "union" ts && Look.braces (Look.second ts)))
  then
    anyWord
    braces everything
  else
    let _ ← g.type true

def positionalField (g : Grammar) : Parser PUnit := do
  let _ ← g.outerAttributes
  let _ ← visibility
  let _ ← g.type true

def namedFields (g : Grammar) : Parser PUnit := do
  let _ ← braces (commaList g.namedField)

def positionalFields (g : Grammar) : Parser PUnit := do
  let _ ← parens (commaList g.positionalField)

def structRest (g : Grammar) : Parser PUnit := do
  let conditional ← ahead (Look.word "where")
  if conditional then g.whereClause
  let ts ← rest
  if !conditional && Look.parens ts then
    g.positionalFields
    let late ← ahead (Look.word "where")
    if late then g.whereClause
    if !(← op? ";") then expected (if late then ["`;`"] else ["`where`", "`;`"])
  else if Look.braces ts then g.namedFields
  else if !(← op? ";") then
    expected ((if conditional then [] else ["`where`", "parentheses"]) ++ ["curly braces", "`;`"])

def variant (g : Grammar) : Parser PUnit := do
  let _ ← g.outerAttributes
  let _ ← visibility
  let _ ← name
  let ts ← rest
  if Look.braces ts then g.namedFields
  else if Look.parens ts then g.positionalFields
  g.value?

def useForm (g : Grammar) (root : Bool) : Parser PUnit := do
  let ts ← rest
  if Look.name ts || Look.oneOf ["self", "super", "crate", "try"] ts then
    anyWord
    if ← op? "::" then g.useTree false
    else if ← word? "as" then
      let ts ← rest
      if Look.name ts || Look.word "_" ts then anyWord
      else fail "expected identifier or underscore"
  else if Look.op "*" ts then op "*"
  else if Look.braces ts then
    let _ ← braces <| commaList do
      -- No path is rooted twice.
      let rooted ← if root then op? "::" else pure false
      g.useTree (root && !rooted)
  else expected ["identifier", "`self`", "`super`", "`crate`", "`try`", "`*`", "curly braces"]

def useItem (g : Grammar) : Parser PUnit := do
  word "use"
  let rooted ← op? "::"
  g.useTree (!rooted)
  op ";"

def crateItem : Parser PUnit := do
  word "crate"
  if !(← word? "self") then
    let _ ← name
  if ← word? "as" then
    if !(← word? "_") then
      let _ ← name
  op ";"

def externItem (g : Grammar) : Parser PUnit := do
  word "extern"
  let ts ← rest
  if Look.word "crate" ts then crateItem
  else if Look.braces ts then g.members g.foreignMember
  else if Look.text ts then
    token
    g.members g.foreignMember
  else expected ["`crate`", "curly braces", "string literal"]

def staticItem (g : Grammar) : Parser PUnit := do
  word "static"
  optional "mut"
  let _ ← name
  if ← ahead (Look.op "=") then g.value?
  else
    op ":"
    let _ ← g.type true
    if !(← ahead (Look.op ";")) then
      op "="
      let _ ← g.expr true
  op ";"

def moduleItem (g : Grammar) : Parser PUnit := do
  optional "unsafe"
  word "mod"
  if !(← word? "try") then
    let _ ← name
  let ts ← rest
  if Look.op ";" ts then op ";"
  else if Look.braces ts then g.members g.item
  else expected ["`;`", "curly braces"]

def traitRest (g : Grammar) : Parser PUnit := do
  if ← op? ":" then g.boundsUntil fun ts => Look.word "where" ts || Look.braces ts
  g.whereClause?
  g.members g.traitMember

/-- A trait behind its visibility and marks; only one without marks may be an alias. -/
def traitItem (g : Grammar) (marked : Bool) : Parser PUnit := do
  word "trait"
  let _ ← name
  g.genericParams
  let ts ← rest
  if marked || Look.braces ts || Look.op ":" ts || Look.word "where" ts then g.traitRest
  else if Look.op "=" ts then
    op "="
    g.boundsUntil fun ts => Look.word "where" ts || Look.op ";" ts
    g.whereClause?
    op ";"
  else expected ["curly braces", "`:`", "`where`", "`=`"]

def implItem (g : Grammar) : Parser PUnit := do
  optional "default"
  optional "unsafe"
  word "impl"
  if startsParams (← rest) then g.genericParams
  let ts ← rest
  if Look.op "?" ts && Look.word "const" (Look.second ts) then op "?"
  optional "const"
  let ts ← rest
  if Look.op "!" ts && !Look.braces (Look.second ts) then op "!"
  let _ ← g.type true
  if ← word? "for" then
    let _ ← g.type true
  g.whereClause?
  g.members g.implMember

def macroDefinition : Parser PUnit := do
  word "macro"
  let _ ← name
  let withParams ← ahead Look.parens
  if withParams then parens everything
  if ← ahead Look.braces then braces everything
  else expected ((if withParams then [] else ["parentheses"]) ++ ["curly braces"])

def uncheckedItem (g : Grammar) : Parser PUnit := do
  let behind ← rest
  let after := Look.second behind
  if Look.word "trait" after then
    word "unsafe"
    g.traitItem true
  else if Look.word "auto" after && Look.word "trait" (Look.second after) then
    word "unsafe"
    word "auto"
    g.traitItem true
  else if Look.word "impl" after then g.implItem
  else if Look.word "extern" after then
    word "unsafe"
    let _ ← convention?
    g.members g.foreignMember
  else if Look.word "mod" after then g.moduleItem
  else
    word "unsafe"
    expected ((["trait", "auto", "impl", "extern", "mod"].filter (!Look.word · after)).map
      fun s => "`" ++ s ++ "`")

def itemWords : List String :=
  ["fn", "extern", "use", "static", "const", "unsafe", "mod", "type", "struct", "enum", "union",
   "trait", "auto", "impl", "default", "macro"]

def dataItem (g : Grammar) : Parser PUnit := do
  let ts ← rest
  anyWord
  let _ ← name
  g.genericParams
  if Look.word "struct" ts then g.structRest
  else
    g.whereClause?
    if Look.word "enum" ts then
      let _ ← braces (commaList g.variant)
    else g.namedFields

def itemRest (g : Grammar) : Parser PUnit := do
  let visible ← visibility
  let ts ← rest
  let second := Look.second ts
  if ← startsSignature false then
    g.signature false
    if !(← op? ";") then g.body
  else if Look.word "extern" ts then g.externItem
  else if Look.word "use" ts then g.useItem
  else if Look.word "static" ts then g.staticItem
  else if Look.word "const" ts then
    word "const"
    g.constantRest
  else if Look.word "unsafe" ts then g.uncheckedItem
  else if Look.word "mod" ts then g.moduleItem
  else if Look.word "type" ts then g.typeAlias .before
  else if Look.oneOf ["struct", "enum"] ts || (Look.word "union" ts && Look.name second) then
    g.dataItem
  else if Look.word "trait" ts then g.traitItem false
  else if Look.word "auto" ts && Look.word "trait" second then
    word "auto"
    g.traitItem true
  else if Look.word "impl" ts || (Look.word "default" ts && !Look.op "!" second) then g.implItem
  else if Look.word "macro" ts then macroDefinition
  else if !visible && startsItemPath ts then macroItem
  else
    expected (((itemWords.filter (!Look.word · ts)).map fun s => "`" ++ s ++ "`") ++
      if visible then [] else pathWords)

def itemForm (g : Grammar) : Parser PUnit := do
  let _ ← g.outerAttributes
  g.itemRest

/-- The next item of a whole text, as the tokens that it is read from, unless the text has ended. -/
def item? (g : Grammar) : Parser (Option (List Token)) := do
  if ← isEmpty then return none else return some (← taken g.item)

def items (g : Grammar) : Parser (List (List Token)) := do
  g.innerAttributes
  many g.item?

end Graft.Grammar

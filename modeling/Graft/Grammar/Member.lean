import Graft.Grammar.Function

/-!
# What stands inside traits, implementations and foreign blocks
-/

namespace Graft.Grammar

open Graft.Parser

def traitFunction (g : Grammar) : Parser PUnit := do
  g.signature false
  let ts ← rest
  if Look.braces ts then g.body
  else if Look.op ";" ts then op ";"
  else expected ["curly braces", "`;`"]

def traitMember (g : Grammar) : Parser PUnit := do
  let _ ← g.outerAttributes
  let visible ← visibility
  let byDefault ← word? "default"
  let ts ← rest
  let bare := !visible && !byDefault
  if ← startsSignature false then g.traitFunction
  else if Look.word "const" ts then
    word "const"
    g.constantRest
  else if Look.word "type" ts then g.typeAlias .behind
  else if bare && startsItemPath ts then macroMember
  else expected (["`fn`", "`const`", "`type`"] ++ if bare then pathWords else [])

def implMember (g : Grammar) : Parser PUnit := do
  let _ ← g.outerAttributes
  let visible ← visibility
  let ts ← rest
  let byDefault := Look.word "default" ts && !Look.op "!" (Look.second ts)
  if byDefault then word "default"
  let ts ← rest
  let bare := !visible && !byDefault
  if ← startsSignature false then
    g.signature false
    if !(← op? ";") then g.body
  else if Look.word "const" ts then
    word "const"
    g.constantRest
  else if Look.word "type" ts then g.typeAlias .behind
  else if bare && startsItemPath ts then macroMember
  else
    let tried := ["`fn`", "`const`", "`type`"] ++ if bare then pathWords else []
    expected (if byDefault || Look.word "default" ts then tried else "`default`" :: tried)

def foreignStatic (g : Grammar) : Parser PUnit := do
  if !(← word? "unsafe") then optional "safe"
  word "static"
  optional "mut"
  let _ ← name
  op ":"
  let _ ← g.type true
  g.value?
  op ";"

def foreignMember (g : Grammar) : Parser PUnit := do
  let _ ← g.outerAttributes
  let visible ← visibility
  let ts ← rest
  let markedStatic := Look.oneOf ["unsafe", "safe"] ts && Look.word "static" (Look.second ts)
  if ← startsSignature true then
    g.signature true
    if ← ahead Look.braces then g.body else op ";"
  else if Look.word "static" ts || markedStatic then g.foreignStatic
  else if Look.word "type" ts then g.typeAlias .either
  else if !visible && startsItemPath ts then macroMember
  else expected (["`fn`", "`static`", "`type`"] ++ if visible then [] else pathWords)

def members (g : Grammar) (member : Parser PUnit) : Parser PUnit :=
  braces do
    g.innerAttributes
    allOf member

end Graft.Grammar

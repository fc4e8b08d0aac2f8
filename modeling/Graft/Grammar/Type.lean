import Graft.Grammar.Bound

/-!
# Types
-/

namespace Graft.Grammar

open Graft.Parser

def typeStarts : List String :=
  ["`for`", "parentheses", "`fn`", "`unsafe`", "`extern`", "identifier", "`::`", "`<`", "`dyn`",
   "square brackets", "`*`", "`&`", "`!`", "`impl`", "`_`", "lifetime"]

/-- The calling convention of a function, if one is next: nothing if none is named, and the text
that names it otherwise. -/
def convention? : Parser (Option String) := do
  if ← word? "extern" then
    match ← rest with
    | .literal s _ :: _ =>
      if Literal.isText s then
        token
        return some (Literal.textValue s)
      else return none
    | _ => return none
  else return none

/-- A parameter of a function type: a type, possibly with a name. The first may be a receiver. -/
def functionTypeParam (g : Grammar) (first : Bool) : Parser TypeTree := do
  let _ ← g.outerAttributes
  let ts ← rest
  let receiver := first && Look.word "mut" ts && Look.word "self" (Look.second ts)
  let (t, read) ← captured do
    if receiver then word "mut"
    let ts ← rest
    -- Two colons would make the name a part of a path.
    let named := (Look.name ts || Look.word "_" ts || (first && Look.word "self" ts)) &&
      Look.opOnly ":" ["::"] (Look.second ts)
    if named then
      anyWord
      op ":"
    if receiver && !named then
      word "self"
      return none
    else return some (← g.type true)
  match t with
  | some t => return if receiver then .mk read .other else t
  | none => return .mk read .other

def startsVariadic (ts : List Token) : Bool :=
  Look.op "..." ts || ((Look.name ts || Look.word "_" ts) && Look.op ":" (Look.second ts) &&
    Look.op "..." (Look.third ts))

def variadic : Parser PUnit := do
  let ts ← rest
  if Look.name ts || Look.word "_" ts then
    anyWord
    op ":"
  op "..."
  let _ ← op? ","

/-- A parameter of a function type with the comma behind it; nothing at the end of the parameters
or at the mark of further ones. -/
def functionTypeParam? (g : Grammar) (first : Bool) : Parser (Option TypeTree) := do
  if ← isEmpty then return none
  let _ ← g.outerAttributes
  if ← ahead startsVariadic then return none
  let t ← g.functionTypeParam first
  if !(← isEmpty) then op ","
  return some t

def functionTypeParams (g : Grammar) : Parser (List TypeTree × Bool) := do
  let first ← g.functionTypeParam? true
  let others ← if first.isSome then many (g.functionTypeParam? false) else pure []
  let params := first.toList ++ others
  if ← ahead startsVariadic then
    variadic
    return (params, true)
  return (params, false)

def functionType (g : Grammar) : Parser (TypeShape TypeTree) := do
  let _ ← word? "unsafe"
  let abi ← convention?
  word "fn"
  let (params, variadic) ← parens g.functionTypeParams
  return .function abi params variadic (← g.returnType false)

def traitSum (g : Grammar) (start : Position) (plus : Bool) : Parser PUnit := do
  let bounds ← g.boundSum plus false false
  if !bounds.contains .trait then
    failAt start "at least one trait is required for an object type"

inductive ParenContent where
  | tuple
  | bounds (t : TypeTree)
  | bound
  | type (t : TypeTree)

def parenContent (g : Grammar) : Parser ParenContent := do
  let ts ← rest
  if ts.isEmpty then return .tuple
  if Look.lifetime ts then
    let (_, read) ← captured (g.traitSum (← place) true)
    return .bounds (.mk read (.bareBounds false))
  if Look.op "?" ts then
    g.traitBound false
    return .bound
  let t ← g.type true
  if ← op? "," then
    let _ ← commaList (g.type true)
    return .tuple
  return .type t

/-- Whether a type in parentheses may be the first of a sum of bounds. -/
def startsSum (t : TypeTree) : Bool :=
  match t.shape with
  | .path false _ | .bareBounds true => true
  | _ => false

def parenType (g : Grammar) (plus : Bool) : Parser (TypeShape TypeTree) := do
  match ← parens g.parenContent with
  | .tuple => return .other
  | .bounds t => return .paren t
  | .bound => return .bareBounds (!(← sum))
  | .type t =>
    if plus && startsSum t && (← ahead (Look.op "+")) then return .bareBounds (!(← sum))
    else return .paren t
where
  sum : Parser Bool := do
    let found ← many do
      if ← op? "+" then return some (← g.bound false false) else return none
    return !found.isEmpty

/-- A type that starts with a path; `bound` says that a binder stands before it. -/
def pathType (g : Grammar) (plus bound : Bool) : Parser (TypeShape TypeTree) := do
  match ← g.qualifiedPath false with
  | none => return .path true false
  | some p =>
    let ts ← rest
    if Look.opOnly "!" ["!="] ts && p.plain then
      op "!"
      let _ ← macroArguments
      return .other
    if bound || (plus && Look.op "+" ts) then
      let more ← if plus then g.moreBounds else pure false
      return .bareBounds (!more)
    return .path false p.single

def startsPath (ts : List Token) : Bool :=
  Look.name ts || Look.oneOf ["super", "self", "Self", "crate"] ts

def startsFunction (ts : List Token) : Bool := Look.oneOf ["fn", "unsafe", "extern"] ts

def boundType (g : Grammar) (plus : Bool) : Parser (TypeShape TypeTree) := do
  let ts ← rest
  if startsFunction ts then g.functionType
  else if startsPath ts then g.pathType plus true
  else
    expected
      ["identifier", "`fn`", "`unsafe`", "`extern`", "`super`", "`self`", "`Self`", "`crate`"]

def bracketType (g : Grammar) : Parser (TypeShape TypeTree) :=
  brackets do
    let _ ← g.type true
    if ← op? ";" then
      let _ ← g.expr true
    return .other

def pointerType (g : Grammar) : Parser (TypeShape TypeTree) := do
  op "*"
  if !(← word? "const") then
    if !(← word? "mut") then expected ["`const`", "`mut`"]
  return .pointer (← g.type false)

def referenceType (g : Grammar) : Parser (TypeShape TypeTree) := do
  op "&"
  let _ ← lifetime?
  let _ ← word? "mut"
  let _ ← g.type false
  return .other

def implType (g : Grammar) (plus : Bool) : Parser (TypeShape TypeTree) := do
  let start ← place
  word "impl"
  let bounds ← g.boundSum plus true true
  if !bounds.contains .trait then failAt start "at least one trait must be specified"
  return .other

def typeShape (g : Grammar) (plus : Bool) : Parser (TypeShape TypeTree) := do
  let ts ← rest
  if Look.word "for" ts then
    g.binder
    g.boundType plus
  else if Look.parens ts then g.parenType plus
  else if startsFunction ts then g.functionType
  else if startsPath ts || Look.op "::" ts || Look.op "<" ts then g.pathType plus false
  else if Look.word "dyn" ts then
    let start ← place
    word "dyn"
    let _ ← op? "*"
    g.traitSum start plus
    return .other
  else if Look.brackets ts then g.bracketType
  else if Look.op "*" ts then g.pointerType
  else if Look.op "&" ts then g.referenceType
  else if Look.op "!" ts then
    op "!"
    return .other
  else if Look.word "impl" ts then g.implType plus
  else if Look.word "_" ts then
    anyWord
    return .other
  else if Look.lifetime ts then
    g.traitSum (← place) true
    return .bareBounds false
  else expected typeStarts

def typeTree (g : Grammar) (plus : Bool) : Parser TypeTree := do
  let (shape, tokens) ← captured (g.typeShape plus)
  return .mk tokens shape

end Graft.Grammar

import Graft.Diagnostic.Basic
import Graft.Types.ForeignType

/-!
# Snippets

A snippet is a foreign type and a body in braces. In the body `$(name: Type)` stands for a value of
the host; reading a snippet puts the bare name in its place and declares the name as a parameter.
-/

namespace Graft

structure Placeholder where
  name : String
  type : TypeTree
  key : ForeignType
  location : Location

structure Snippet where
  result : TypeTree
  body : List Token
  params : List Placeholder
  location : Location

namespace Placeholder

structure Declaration where
  name : String
  type : TypeTree

def Declaration.ofTokens (tokens : List Token) : Except SyntaxError Declaration :=
  Parser.run (do
    let name ← Parser.name
    Parser.op ":"
    return ⟨name, ← (Grammar.reading tokens).type true⟩) tokens

/-- Adds the placeholder whose tokens are `inner` to those found before it. A name that was found
before must have the same type. Gives the name. -/
def declare (inner : List Token) (location : Location) (found : List Placeholder) :
    Except Diagnostic (String × List Placeholder) :=
  match Declaration.ofTokens inner with
  | .error e =>
    .error (.ofFault (.malformedPlaceholder (Token.displayAll inner) e.message) location)
  | .ok d =>
    let key := ForeignType.ofTree d.type
    match found.find? fun p => p.name = d.name with
    | none => .ok (d.name, found ++ [⟨d.name, d.type, key, location⟩])
    | some p =>
      if p.key = key then .ok (d.name, found)
      else .error (.ofFault (.conflictingPlaceholder d.name p.key.spelling key.spelling) location)

end Placeholder

namespace Snippet

def resultKey (s : Snippet) : ForeignType := .ofTree s.result

def paramNames (s : Snippet) : List String := s.params.map (·.name)

def paramKeys (s : Snippet) : List ForeignType := s.params.map (·.key)

def locate (origin : Location) (span : Span) : Location :=
  .ofRange (origin.offset span.first) (origin.offset span.last)

mutual

def fillToken (origin : Location) (found : List Placeholder) :
    Token → Except Diagnostic (Token × List Placeholder)
  | .group d inner span => do
    let (inner, found) ← fill origin found inner
    return (.group d inner span, found)
  | t => .ok (t, found)

/-- Replaces the placeholders among tokens, at every depth, and gathers them behind those already
`found`. -/
def fill (origin : Location) (found : List Placeholder) :
    List Token → Except Diagnostic (List Token × List Placeholder)
  | .punct '$' _ dollar :: .group .parenthesis inner span :: ts => do
    let (name, found) ← Placeholder.declare inner (locate origin dollar) found
    let (ts, found) ← fill origin found ts
    return (.ident name span :: ts, found)
  | t :: ts => do
    let (t, found) ← fillToken origin found t
    let (ts, found) ← fill origin found ts
    return (t :: ts, found)
  | [] => .ok ([], found)

end

def read (text : String) (origin : Location) : Except Diagnostic Snippet := do
  let tokens ← match Token.read text.toList with
    | .ok tokens => pure tokens
    | .error place =>
      throw (.ofFault (.malformed Token.readFailure) (.point (origin.offset place)))
  -- The first braces at the top hold the body, though a type may have braces of its own.
  let head := tokens.takeWhile (!·.isGroup .brace)
  match tokens.dropWhile (!·.isGroup .brace) with
  | .group _ body span :: after =>
    let some first := head.head?
      | throw (.ofFault .missingReturnType (locate origin span.opening))
    if let some extra := after.head? then
      throw (.ofFault (.malformed ("unexpected `" ++ extra.display ++ "` after the snippet body"))
        (locate origin extra.span))
    let result ← match TypeTree.ofTokens head with
      | .ok t => pure t
      | .error e =>
        throw (.ofFault (.malformed ("invalid return type: " ++ e.message))
          (locate origin first.span))
    let (body, params) ← fill origin [] body
    return ⟨result, body, params, origin⟩
  | _ =>
    throw (.ofFault .missingBody
      ((head.getLast?.map fun t => locate origin t.span).getD origin))

end Snippet

end Graft

import Graft.Call.Entry
import Graft.Call.Symbol
import Graft.Snippet.Basic

/-!
# Boundary functions

The exported foreign function that a snippet becomes. How it is called is recorded with it and
never changes its text.
-/

namespace Graft

inductive Edition where
  | e2018
  | e2021
  | e2024
  deriving DecidableEq, Repr

namespace Edition

def all : List Edition := [e2018, e2021, e2024]

def name : Edition → String
  | e2018 => "2018"
  | e2021 => "2021"
  | e2024 => "2024"

def ofName? (s : String) : Option Edition := all.find? fun e => e.name = s

def standard : Edition := e2021

def exportAttribute (e : Edition) : List Token :=
  let mark := Token.word "no_mangle"
  let inner := match e with
    | e2024 => [.word "unsafe", .group .parenthesis [mark] .nowhere]
    | _ => [mark]
  [.mark '#', .group .bracket inner .nowhere]

end Edition

structure ForeignFunction where
  symbol : String
  source : String
  result : ForeignType
  paramNames : List String
  paramTypes : List ForeignType
  location : Location
  entry : EntryPoint
  deriving DecidableEq, Repr

namespace ForeignFunction

def paramTokens (p : Placeholder) : List Token :=
  .word p.name :: .mark ':' :: p.type.tokens

def tokens (symbol : String) (s : Snippet) (edition : Edition) : List Token :=
  let params := ((s.params.map paramTokens).intersperse [.mark ',']).flatten
  edition.exportAttribute ++
    [.word "pub", .word "extern", .literal "\"C\"" .nowhere, .word "fn", .word symbol,
     .group .parenthesis params .nowhere] ++
    Token.operator "->" .nowhere ++ s.result.tokens ++ [.group .brace s.body .nowhere]

def ofSnippet (symbol : String) (s : Snippet) (entry : EntryPoint) (edition : Edition) :
    ForeignFunction where
  symbol := symbol
  source := Token.displayAll (tokens symbol s edition)
  result := s.resultKey
  paramNames := s.paramNames
  paramTypes := s.paramKeys
  location := s.location
  entry := entry

def ofSnippet? (symbol : String) (s : Snippet) (entry : EntryPoint) (edition : Edition) :
    Except Symbol.Fault ForeignFunction :=
  match Symbol.fault? symbol with
  | some fault => .error fault
  | none => .ok (ofSnippet symbol s entry edition)

end ForeignFunction

end Graft

import Graft.Grammar.Statement

/-!
# The whole grammar

A text nests no deeper than it has tokens, so a grammar whose parsers call each other to a depth
that grows with the number of tokens reads it without reaching the bottom.
-/

namespace Graft

namespace Grammar

def bottom : Grammar where
  type _ := default
  bound _ _ := default
  expr _ := default
  operand _ := default
  operators _ _ _ := default
  boundary := default
  pattern := default
  statements := default
  item := default
  useTree _ := default

def above (g : Grammar) : Grammar where
  type plus := g.typeTree plus
  bound capture const := g.boundForm capture const
  expr structs := g.exprForm structs
  operand structs := g.operandForm structs
  operators left structs base := g.operatorsForm left structs base
  boundary := g.boundaryForm
  pattern := g.patternForm
  statements := g.statementsForm
  item := g.itemForm
  useTree root := g.useForm root

def level : Nat → Grammar
  | 0 => bottom
  | n + 1 => above (level n)

/-- The grammar for a text of the given tokens. A step to a lower level reads a token or is one of
a few on the way from an expression to its first atom. -/
def reading (tokens : List Token) : Grammar := level (6 * (Token.sizeAll tokens + 1))

end Grammar

def TypeTree.ofTokens (tokens : List Token) : Except SyntaxError TypeTree :=
  Parser.run ((Grammar.reading tokens).type true) tokens

end Graft

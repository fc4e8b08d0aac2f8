import Graft.Token.Basic

/-!
# Writing tokens as text

Two ways of writing a token sequence. `display` keeps tokens apart by one blank each, except that
nothing follows a joint mark; it is how generated foreign code is written. `compact` keeps blanks
only where two words would otherwise run together and after commas and semicolons; it is the
spelling under which types are compared.
-/

namespace Graft.Token

mutual

/-- A token as generated code shows it. Braces stand apart from what they hold. -/
def display : Token → String
  | ident name _ => name
  | punct c _ _ => c.toString
  | literal text _ => text
  | group .parenthesis inner _ => "(" ++ displayAll inner ++ ")"
  | group .bracket inner _ => "[" ++ displayAll inner ++ "]"
  | group .brace [] _ => "\x7b \x7d"
  | group .brace inner _ => "\x7b " ++ displayAll inner ++ " \x7d"

/-- Tokens one blank apart, but with nothing after a joint mark. -/
def displayAll : List Token → String
  | [] => ""
  | [t] => t.display
  | t :: ts => t.display ++ (if t.isJoint then "" else " ") ++ displayAll ts

end

def dropFinalSpace (cs : List Char) : List Char :=
  if cs.getLast? = some ' ' then cs.dropLast else cs

mutual

/-- The spelling of one token, where `afterWord` says whether a word stands before it. -/
def compact (afterWord : Bool) : Token → List Char
  | ident name _ => (if afterWord then [' '] else []) ++ name.toList
  | literal text _ => (if afterWord then [' '] else []) ++ text.toList
  | punct c _ _ =>
    if c = ',' then [',', ' ']
    else if c = ';' then [';', ' ']
    -- Behind a word the mark of a lifetime would be a part of it.
    else if c = '\'' && afterWord then [' ', '\'']
    else [c]
  | group d inner _ =>
    (if afterWord && d = .brace then [' '] else []) ++
      d.opening :: dropFinalSpace (compactAll false inner) ++ [d.closing]

def compactAll (afterWord : Bool) : List Token → List Char
  | [] => []
  | t :: ts => t.compact afterWord ++ compactAll t.isWord ts

end

def spaceArrows : List Char → List Char
  | '-' :: '>' :: cs => ' ' :: '-' :: '>' :: ' ' :: spaceArrows cs
  | c :: cs => c :: spaceArrows cs
  | [] => []

def spelling (ts : List Token) : String :=
  .ofList (spaceArrows (compactAll false ts))

end Graft.Token

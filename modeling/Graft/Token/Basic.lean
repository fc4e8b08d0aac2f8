import Graft.Text.Position

/-!
# Token trees

Foreign source text is read as a sequence of tokens in which delimiters are already matched: a
group holds the tokens between them. Every token knows where it stands in its text.
-/

namespace Graft

inductive Delimiter where
  | parenthesis
  | bracket
  | brace
  deriving DecidableEq, Repr

namespace Delimiter

def opening : Delimiter → Char
  | parenthesis => '('
  | bracket => '['
  | brace => '\x7b'

def closing : Delimiter → Char
  | parenthesis => ')'
  | bracket => ']'
  | brace => '\x7d'

def opened? (c : Char) : Option Delimiter :=
  if c = '(' then some parenthesis else if c = '[' then some bracket
  else if c = '\x7b' then some brace else none

def closed? (c : Char) : Option Delimiter :=
  if c = ')' then some parenthesis else if c = ']' then some bracket
  else if c = '\x7d' then some brace else none

end Delimiter

/-- Whether a punctuation mark runs on into the next one, as in `->`, or stands alone. -/
inductive Spacing where
  | joint
  | alone
  deriving DecidableEq, Repr

structure Span where
  first : Position
  last : Position
  deriving DecidableEq, Repr

namespace Span

def opening (s : Span) : Span := ⟨s.first, ⟨s.first.line, s.first.column + 1⟩⟩

def closing (s : Span) : Position := ⟨s.last.line, s.last.column - 1⟩

def nowhere : Span := ⟨.start, .start⟩

end Span

/-- A token tree. Identifiers and literals keep their text, raw marks and suffixes included. -/
inductive Token where
  | ident (name : String) (span : Span)
  | punct (mark : Char) (spacing : Spacing) (span : Span)
  | literal (text : String) (span : Span)
  | group (delimiter : Delimiter) (inner : List Token) (span : Span)
  deriving Repr

namespace Token

instance : Inhabited Token := ⟨punct ' ' .alone .nowhere⟩

def span : Token → Span
  | ident _ s | punct _ _ s | literal _ s | group _ _ s => s

def isJoint : Token → Bool
  | punct _ .joint _ => true
  | _ => false

/-- Identifiers and literals: two of them in a row need a blank between them. -/
def isWord : Token → Bool
  | ident .. | literal .. => true
  | _ => false

def isGroup (d : Delimiter) : Token → Bool
  | group d' _ _ => d = d'
  | _ => false

/-- Identifier `name`, to be written where no source text stands behind it. -/
def word (name : String) : Token := ident name .nowhere

def mark (c : Char) : Token := punct c .alone .nowhere

/-- An operator of several marks: all but the last run on. -/
def operator (op : String) (span : Span) : List Token :=
  go op.toList
where
  go : List Char → List Token
    | [] => []
    | [c] => [punct c .alone span]
    | c :: cs => punct c .joint span :: go cs

mutual

def size : Token → Nat
  | group _ inner _ => sizeAll inner + 1
  | _ => 1

def sizeAll : List Token → Nat
  | [] => 0
  | t :: ts => t.size + sizeAll ts

end

mutual

def unplaced : Token → Token
  | ident name _ => ident name .nowhere
  | punct c spacing _ => punct c spacing .nowhere
  | literal text _ => literal text .nowhere
  | group d inner _ => group d (unplacedAll inner) .nowhere

def unplacedAll : List Token → List Token
  | [] => []
  | t :: ts => t.unplaced :: unplacedAll ts

end

end Token

end Graft

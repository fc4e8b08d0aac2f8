import Graft.Token.Lexer

/-!
# Parsers over token trees

A parser reads the tokens between one pair of delimiters and writes the tokens that the thing
read is printed with; the two differ only in spacing, except where a construct has a printed form
of its own. What is left unread in a group is no error until the whole text has been read.
-/

namespace Graft

structure SyntaxError where
  place : Position
  message : String
  deriving DecidableEq, Repr

/-- Whether a parser failed that reads nothing, which says nothing of the tokens. -/
def SyntaxError.isVoid (e : SyntaxError) : Bool := e.message.isEmpty

structure Scope where
  finish : Position

/-- The tokens still to read, those written so far, last first, and the first token that was left
unread at the end of a group. -/
structure Cursor where
  rest : List Token
  written : List Token
  leftover : Option SyntaxError

def Parser (α : Type) : Type := Scope → Cursor → Except SyntaxError (α × Cursor)

namespace Parser

instance : Monad Parser where
  pure a := fun _ c => .ok (a, c)
  bind p f := fun s c =>
    match p s c with
    | .ok (a, c') => f a s c'
    | .error e => .error e

instance {α : Type} : Inhabited (Parser α) := ⟨fun s _ => .error ⟨s.finish, ""⟩⟩

def rest : Parser (List Token) := fun _ c => .ok (c.rest, c)

def written : Parser (List Token) := fun _ c => .ok (c.written, c)

def setWritten (ts : List Token) : Parser PUnit := fun _ c => .ok (⟨⟩, { c with written := ts })

def write (ts : List Token) : Parser PUnit :=
  fun _ c => .ok (⟨⟩, { c with written := ts.reverse ++ c.written })

def failHere {α : Type} (message : String) : Parser α := fun s c =>
  .error ⟨(c.rest.head?.map fun t => t.span.first).getD s.finish, message⟩

def fail {α : Type} (message : String) : Parser α := fun s c =>
  match c.rest with
  | [] => .error ⟨s.finish, "unexpected end of input, " ++ message⟩
  | t :: _ => .error ⟨t.span.first, message⟩

def failAt {α : Type} (place : Position) (message : String) : Parser α :=
  fun _ _ => .error ⟨place, message⟩

def expected {α : Type} (things : List String) : Parser α :=
  match things with
  | [a] => fail ("expected " ++ a)
  | [a, b] => fail ("expected " ++ a ++ " or " ++ b)
  | _ => fail ("expected one of: " ++ ", ".intercalate things)

def next? : Parser (Option Token) := fun _ c =>
  match c.rest with
  | [] => .ok (none, c)
  | t :: ts => .ok (some t, { c with rest := ts })

def drop (n : Nat) : Parser PUnit := fun _ c => .ok (⟨⟩, { c with rest := c.rest.drop n })

def isEmpty : Parser Bool := fun _ c => .ok (c.rest.isEmpty, c)

def place : Parser Position := fun s c =>
  .ok ((c.rest.head?.map fun t => t.span.first).getD s.finish, c)

/-- What `p` gives from here, with nothing read or written. -/
def foresee {α : Type} (p : Parser α) : Parser (Option α) := fun s c =>
  match p s { c with leftover := none } with
  | .ok (a, _) => .ok (some a, c)
  | .error _ => .ok (none, c)

/-- What `p` gives from here, or its failure, with nothing read or written. -/
def peeking {α : Type} (p : Parser α) : Parser α := fun s c =>
  match p s { c with leftover := none } with
  | .ok (a, _) => .ok (a, c)
  | .error e => .error e

def attempt {α : Type} (p : Parser α) : Parser (Option α) := fun s c =>
  match p s c with
  | .ok (a, c') => .ok (some a, c')
  -- Where the levels run out, the tokens have not been refused.
  | .error e => if e.isVoid then .error e else .ok (none, c)

def detached {α : Type} (p : Parser α) : Parser (α × List Token) := do
  let before ← written
  setWritten []
  let a ← p
  let ts ← written
  setWritten before
  return (a, ts.reverse)

def captured {α : Type} (p : Parser α) : Parser (α × List Token) := do
  let (a, ts) ← detached p
  write ts
  return (a, ts)

/-- Runs `p` and gives the tokens that it read. What it wrote is dropped. -/
def taken (p : Parser PUnit) : Parser (List Token) := do
  let before ← rest
  let _ ← detached p
  return before.take (before.length - (← rest).length)

/-- Runs `step` as long as it gives something and reads at least one token. -/
def many {α : Type} (step : Parser (Option α)) : Parser (List α) := fun s c => go s c
where
  go (s : Scope) (c : Cursor) : Except SyntaxError (List α × Cursor) :=
    match step s c with
    | .error e => .error e
    | .ok (none, c') => .ok ([], c')
    | .ok (some a, c') =>
      if c'.rest.length < c.rest.length then
        match go s c' with
        | .error e => .error e
        | .ok (as, c'') => .ok (a :: as, c'')
      -- A step that reads nothing is made once.
      else .ok ([a], c')
  termination_by c.rest.length

/-- Runs `step` on its own last result as long as it gives one and reads at least one token. Gives
the last result. -/
def iterate {α : Type} (step : α → Parser (Option α)) (a : α) : Parser α := fun s c => go s a c
where
  go (s : Scope) (a : α) (c : Cursor) : Except SyntaxError (α × Cursor) :=
    match step a s c with
    | .error e => .error e
    | .ok (none, c') => .ok (a, c')
    | .ok (some a', c') =>
      if c'.rest.length < c.rest.length then go s a' c' else .ok (a', c')
  termination_by c.rest.length

def whileReading (step : Parser Bool) : Parser PUnit := do
  let _ ← many do
    if ← step then return some ⟨⟩ else return (none : Option PUnit)

def unexpectedToken : Option Delimiter → String
  | none => "unexpected token"
  | some d => "unexpected token, expected `" ++ d.closing.toString ++ "`"

/-- Reads the inside of a group with `p` and writes the group that `p` writes. A token that `p`
leaves unread is remembered. -/
def inside {α : Type} (d : Delimiter) (inner : List Token) (span : Span) (p : Parser α) :
    Parser α := fun _ c =>
  match p ⟨span.closing⟩ ⟨inner, [], c.leftover⟩ with
  | .error e => .error e
  | .ok (a, c') =>
    -- The first token of the text that was left unread is the one reported.
    let leftover := c'.leftover <|>
      c'.rest.head?.map fun t => ⟨t.span.first, unexpectedToken (some d)⟩
    .ok (a, ⟨c.rest, .group d (c'.written.reverse ++ c'.rest) span :: c.written, leftover⟩)

def run {α : Type} (p : Parser α) (tokens : List Token) : Except SyntaxError α :=
  match p ⟨.start⟩ ⟨tokens, [], none⟩ with
  | .error e => .error e
  | .ok (a, c) =>
    match c.leftover with
    | some e => .error e
    | none =>
      match c.rest with
      | [] => .ok a
      | t :: _ => .error ⟨t.span.first, unexpectedToken none⟩

end Parser

end Graft

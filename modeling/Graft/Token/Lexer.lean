import Graft.Token.Comment
import Graft.Token.Literal

/-!
# Reading tokens

`Token.read` reads a text as token trees. It fails at a place: where a character starts no token,
where a delimiter closes nothing or the wrong thing, or where a delimiter that is never closed
was opened.
-/

namespace Graft.Token

def isMark (c : Char) : Bool := "~!@#$%^&*-=+|;:,<.>/?'".toList.contains c

/-- Whether a punctuation mark stands at the head of a text; the slash of a comment is none. -/
def startsMark (cs : List Char) : Bool :=
  !startsWith "//" cs && !startsWith "/*" cs && cs.head?.any isMark

def isUnrawable (name : List Char) : Bool :=
  ["_", "super", "self", "Self", "crate"].any fun s => s.toList = name

def nameLength? (cs : List Char) : Option Nat :=
  if startsWith "r#" cs then do
    let n ← Literal.identLength? (cs.drop 2)
    if isUnrawable ((cs.drop 2).take n) then none else return n + 2
  else Literal.identLength? cs

def opensLiteral (cs : List Char) : Bool :=
  ["r\"", "r#\"", "r##", "b\"", "b'", "br\"", "br#", "c\"", "cr\"", "cr#"].any (startsWith · cs)

/-- Whether the quote at the head of a text marks a lifetime: an identifier follows it, and no
quote follows that. -/
def startsLifetime (cs : List Char) : Bool :=
  match nameLength? cs.tail with
  | some n =>
    let after := cs.tail.drop n
    !(startsWith "'" after || (startsWith "#" after && !startsWith "r#" cs.tail))
  | none => false

/-- The text that stands for a literal that could not be read elsewhere. -/
def errorMark : String := "(/*ERROR*/)"

def leaf? (p : Position) (cs : List Char) : Option (Token × Nat) :=
  match Literal.length? cs with
  | some n => some (.literal (.ofList (cs.take n)) (covering n), n)
  | none =>
    if startsMark cs then
      if startsWith "'" cs then
        -- A lifetime is two tokens, its mark and its name, and the mark is joint.
        if startsLifetime cs then some (.punct '\'' .joint (covering 1), 1) else none
      else
        let spacing := if startsMark cs.tail then Spacing.joint else .alone
        cs.head?.map fun c => (.punct c spacing (covering 1), 1)
    -- What opens a literal and is none is no word either.
    else if !opensLiteral cs then
      match nameLength? cs with
      | some n => some (.ident (.ofList (cs.take n)) (covering n), n)
      | none => errorLiteral?
    else errorLiteral?
where
  covering (n : Nat) : Span := ⟨p, p.advance (cs.take n)⟩
  errorLiteral? : Option (Token × Nat) :=
    if startsWith errorMark cs then
      some (.literal errorMark (covering errorMark.length), errorMark.length)
    else none

/-- A group whose closing delimiter has not come yet, with the tokens read before it. -/
structure OpenGroup where
  delimiter : Delimiter
  before : List Token
  start : Position

/-- Reads `cs`, which starts at `p`, inside the groups `open`. The tokens of the innermost group
read so far come last first. The failure is a place. -/
def readFrom (groups : List OpenGroup) (done : List Token) (p : Position) (cs : List Char) :
    Except Position (List Token) :=
  let blank := Comment.blankLength cs
  let here := p.advance (cs.take blank)
  match _h : cs.drop blank with
  | [] =>
    match groups with
    | [] => .ok done.reverse
    | g :: _ => .error g.start
  | c :: rest =>
    match Comment.doc? (c :: rest) with
    | some d =>
      if Comment.hasBareReturn d.text then .error here
      else
        let after := here.advance ((c :: rest).take d.length)
        readFrom groups ((Comment.docTokens d ⟨here, after⟩).reverse ++ done) after
          (rest.drop (d.length - 1))
    | none =>
      -- The mark of an unreadable literal looks like a group, but it is a token.
      match (if startsWith errorMark (c :: rest) then none else Delimiter.opened? c) with
      | some d => readFrom (⟨d, done, here⟩ :: groups) [] (here.next c) rest
      | none =>
        match Delimiter.closed? c with
        | some d =>
          match groups with
          | [] => .error here
          | g :: outer =>
            if g.delimiter = d then
              readFrom outer (.group d done.reverse ⟨g.start, here.next c⟩ :: g.before)
                (here.next c) rest
            else .error here
        | none =>
          match leaf? here (c :: rest) with
          | some (t, n) =>
            readFrom groups (t :: done) (here.advance ((c :: rest).take n)) (rest.drop (n - 1))
          | none => .error here
termination_by cs.length
decreasing_by
  all_goals
    have := congrArg List.length _h
    simp only [List.length_drop, List.length_cons] at this ⊢
    omega

/-- Reads a text as token trees. A byte order mark at its start is skipped. -/
def read (text : List Char) : Except Position (List Token) :=
  match text with
  | c :: cs => if c.toNat = 0xFEFF then readFrom [] [] (Position.start.next c) cs
    else readFrom [] [] .start text
  | [] => .ok []

def readFailure : String := "cannot parse string into token stream"

end Graft.Token

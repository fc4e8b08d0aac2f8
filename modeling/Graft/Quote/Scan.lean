import Graft.Diagnostic.Basic
import Graft.Quote.Comments
import Graft.Text.CharClass
import Graft.Text.LineIndex

/-!
# Quotes in host files

A quote is `[quoter|body|]`. A host file is cut into lexemes: comments, character literals, strings,
quotes, and single characters of code. Only a quote at a place of code counts, so that nothing is
expanded inside a comment or a string. A body runs up to the first `|]`.
-/

namespace Graft

structure Quote where
  quoter : String
  body : String
  span : ByteSpan
  location : Location
  bodyLocation : Location
  deriving DecidableEq, Repr

namespace Scan

inductive Lexeme where
  /-- Text of the given length that holds no quote; behind it `depth` block comments are open. -/
  | plain (length depth : Nat)
  | quote (quoter body : List Char)
  | unterminated (quoter : List Char)
  deriving DecidableEq, Repr

def isOperatorSymbol (c : Char) : Bool := "!#$%&*+./<=>?@\\^|~:".toList.contains c

/-- Whether a comment to the end of the line starts here. The mark may be repeated, but no other
operator symbol may follow it: `-->` is an operator. -/
def startsLineComment (mark : String) (cs : List Char) : Bool :=
  !mark.isEmpty && startsWith mark cs &&
    let repeated := mark.toList.getLast?.getD '-'
    match (cs.drop mark.length).dropWhile (· = repeated) with
    | c :: _ => !isOperatorSymbol c
    | [] => true

/-- The length of the character literal behind an opening quote, with the quote. An escape takes up
to ten characters. -/
def charLiteralLength? : List Char → Option Nat
  | [] => none
  | '\n' :: _ => none
  | '\\' :: cs =>
    let inside := (cs.take 10).takeWhile (· ≠ '\n')
    -- The character behind the backslash is escaped and closes nothing.
    match inside.tail.findIdx? (· = '\'') with
    | some n => if inside.isEmpty then none else some (n + 4)
    | none => none
  | _ :: '\'' :: _ => some 3
  | _ => none

/-- The length of a string behind its opening quote, with its closing quote; the end of the line
ends it too. -/
def stringTailLength : List Char → Nat
  | [] => 0
  | '"' :: _ => 1
  | '\n' :: _ => 0
  | '\\' :: _ :: cs => stringTailLength cs + 2
  | _ :: cs => stringTailLength cs + 1

/-- Whether a quote mark behind `before` belongs to a name. -/
def continuesName (before : Option Char) : Bool :=
  before.any fun c => isAlphanumeric c || c = '_' || c = '\''

def isQuoterStart (c : Char) : Bool := isAscii c && (c.isAlpha || c = '_')

def isQuoterChar (c : Char) : Bool := isAscii c && (c.isAlphanum || c = '_' || c = '\'')

def quoterName : List Char → List Char
  | [] => []
  | c :: cs => if isQuoterStart c then c :: cs.takeWhile isQuoterChar else []

def beforeEnd? : List Char → Option (List Char)
  | '|' :: ']' :: _ => some []
  | c :: cs => (beforeEnd? cs).map (c :: ·)
  | [] => none

/-- The quote behind an opening bracket, if a known quoter and a bar follow it. -/
def quote? (isQuoter : String → Bool) (cs : List Char) : Option Lexeme :=
  let name := quoterName cs
  match cs.drop name.length with
  | '|' :: after =>
    if name.isEmpty || !isQuoter (.ofList name) then none
    else match beforeEnd? after with
      | some body => some (.quote name body)
      | none => some (.unterminated name)
  | _ => none

def inBlock (marks : CommentSyntax) (depth : Nat) (cs : List Char) : Lexeme :=
  match marks.block with
  | some (opening, closing) =>
    if marks.nested && startsWith opening cs then .plain opening.length (depth + 1)
    else if startsWith closing cs then .plain closing.length (depth - 1)
    else .plain 1 depth
  | none => .plain 1 depth

def inCode (marks : CommentSyntax) (isQuoter : String → Bool) (before : Option Char)
    (cs : List Char) : Lexeme :=
  if marks.block.any fun (opening, _) => startsWith opening cs then
    .plain (marks.block.elim 0 fun (opening, _) => opening.length) 1
  else if startsLineComment marks.line cs then .plain (cs.takeWhile (· ≠ '\n')).length 0
  else match cs with
    -- The prime of a name opens no literal, nor does a mark that nothing closes in time.
    | '\'' :: cs =>
      .plain (if continuesName before then 1 else (charLiteralLength? cs).getD 1) 0
    | '"' :: cs => .plain (stringTailLength cs + 1) 0
    | '[' :: cs => (quote? isQuoter cs).getD (.plain 1 0)
    | _ => .plain 1 0

def lexeme (marks : CommentSyntax) (isQuoter : String → Bool) (depth : Nat) (before : Option Char)
    (cs : List Char) : Lexeme :=
  if depth = 0 then inCode marks isQuoter before cs else inBlock marks depth cs

structure Found where
  quoter : List Char
  body : List Char
  first : Nat

namespace Found

def bodyFirst (f : Found) : Nat := f.first + byteLength f.quoter + 2

def span (f : Found) : ByteSpan := ⟨f.first, f.bodyFirst + byteLength f.body + 2⟩

end Found

structure Unterminated where
  quoter : List Char
  first : Nat

/-- Cuts a text into lexemes and gathers the quotes. The text starts at the byte `offset` of its
file, behind the character `before`, inside `depth` block comments. -/
def run (marks : CommentSyntax) (isQuoter : String → Bool) (depth : Nat) (before : Option Char)
    (offset : Nat) (cs : List Char) : Except Unterminated (List Found) :=
  if _h : cs = [] then .ok []
  else
    match lexeme marks isQuoter depth before cs with
    | .unterminated quoter => .error ⟨quoter, offset⟩
    | .plain length depth =>
      -- Whatever the lexeme, at least one character is passed over.
      let taken := cs.take (max length 1)
      run marks isQuoter depth (taken.getLast? <|> before) (offset + byteLength taken)
        (cs.drop (max length 1))
    | .quote quoter body =>
      let found : Found := ⟨quoter, body, offset⟩
      match run marks isQuoter 0 (some ']') found.span.last
          (cs.drop (quoter.length + body.length + 4)) with
      | .ok more => .ok (found :: more)
      | .error e => .error e
termination_by cs.length
decreasing_by
  all_goals
    have := List.length_pos_iff.mpr _h
    simp only [List.length_drop]
    omega

end Scan

namespace Quote

def ofFound (source : List Char) (f : Scan.Found) : Quote where
  quoter := .ofList f.quoter
  body := .ofList f.body
  span := f.span
  location := locationAt source f.span
  bodyLocation := .point (positionAt source f.bodyFirst)

def scan (source : String) (marks : CommentSyntax) (isQuoter : String → Bool) :
    Except Diagnostic (List Quote) :=
  let cs := source.toList
  match Scan.run marks isQuoter 0 none 0 cs with
  | .ok found => .ok (found.map (ofFound cs))
  | .error e =>
    .error (.ofFault (.unterminatedQuote (.ofList e.quoter))
      (locationAt cs ⟨e.first, e.first + byteLength e.quoter + 2⟩))

end Quote

end Graft

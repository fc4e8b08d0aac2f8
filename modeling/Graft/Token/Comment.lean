import Graft.Text.Quoted
import Graft.Token.Basic

/-!
# Comments

Plain comments are blanks. A documentation comment stands for the attribute that holds its text:
`/// x` is read as `#[doc = " x"]`, and an inner one as `#![doc = ...]`.
-/

namespace Graft

namespace Comment

def blockLength? (depth : Nat) : List Char → Option Nat
  | '/' :: '*' :: cs => (blockLength? (depth + 1) cs).map (· + 2)
  | '*' :: '/' :: cs =>
    if depth ≤ 1 then some 2 else (blockLength? (depth - 1) cs).map (· + 2)
  | _ :: cs => (blockLength? depth cs).map (· + 1)
  | [] => none

def lineLength (cs : List Char) : Nat := (cs.takeWhile (· ≠ '\n')).length

def isBlankMark (c : Char) : Bool := isBlank c || c.toNat = 0x200E || c.toNat = 0x200F

def pieceLength (cs : List Char) : Nat :=
  if startsWith "//" cs && (!startsWith "///" cs || startsWith "////" cs) && !startsWith "//!" cs
  then lineLength cs
  else if startsWith "/**/" cs then 4
  else if startsWith "/*" cs && (!startsWith "/**" cs || startsWith "/***" cs)
      && !startsWith "/*!" cs
  then (blockLength? 0 cs).getD 0
  else if cs.head?.any isBlankMark then 1
  else 0

def blankLength : List Char → Nat
  | [] => 0
  | c :: cs =>
    let n := pieceLength (c :: cs)
    if n = 0 then 0 else n + blankLength (cs.drop (n - 1))
termination_by cs => cs.length

/-- A documentation comment: its length, its text, and whether it belongs to what encloses it. -/
structure Doc where
  length : Nat
  text : List Char
  inner : Bool

def lineDoc (cs : List Char) (inner : Bool) : Doc :=
  let text := (cs.drop 3).takeWhile (· ≠ '\n')
  let text := if text.getLast? = some '\r' && (cs.drop (3 + text.length)).length > 0 then
    text.dropLast else text
  ⟨3 + lineLength (cs.drop 3), text, inner⟩

def doc? (cs : List Char) : Option Doc :=
  if startsWith "//!" cs then some (lineDoc cs true)
  else if startsWith "/*!" cs then block true
  else if startsWith "///" cs then
    if startsWith "////" cs then none else some (lineDoc cs false)
  else if startsWith "/**" cs && !startsWith "/***" cs then block false
  else none
where
  block (inner : Bool) : Option Doc :=
    (blockLength? 0 cs).map fun n => ⟨n, (cs.drop 3).take (n - 5), inner⟩

def hasBareReturn : List Char → Bool
  | '\r' :: '\n' :: cs => hasBareReturn cs
  | '\r' :: _ => true
  | _ :: cs => hasBareReturn cs
  | [] => false

/-- The attribute that a documentation comment stands for. -/
def docTokens (d : Doc) (span : Span) : List Token :=
  [.punct '#' .alone span] ++ (if d.inner then [.punct '!' .alone span] else []) ++
    [.group .bracket
      [.ident "doc" span, .punct '=' .alone span, .literal (Quoted.literal d.text) span] span]

end Comment

end Graft

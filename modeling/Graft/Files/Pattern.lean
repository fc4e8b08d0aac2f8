/-!
# Path patterns

Patterns over the text of a path. A `?`, a `*` and a class match separators like any other
character; `**` stands for any number of whole components, with the separators behind them.
-/

namespace Graft

inductive PatternPiece where
  | char (c : Char)
  | any
  | run
  | components
  | oneOf (negated : Bool) (ranges : List (Char × Char))
  deriving DecidableEq, Repr

abbrev PathPattern := List PatternPiece

inductive PatternFault where
  | tooManyStars (position : Nat)
  | partOfComponent (position : Nat)
  | badClass (position : Nat)
  deriving DecidableEq, Repr

namespace PatternFault

def position : PatternFault → Nat
  | tooManyStars n | partOfComponent n | badClass n => n

def reason : PatternFault → String
  | tooManyStars _ => "wildcards are either regular `*` or recursive `**`"
  | partOfComponent _ => "recursive wildcards must form a single path component"
  | badClass _ => "invalid range pattern"

def message (f : PatternFault) : String :=
  "Pattern syntax error near position " ++ toString f.position ++ ": " ++ f.reason

end PatternFault

namespace PathPattern

/-- The ranges of a class; a character that no dash follows is a range of its own. -/
def classRanges : List Char → List (Char × Char)
  | a :: '-' :: b :: cs => (a, b) :: classRanges cs
  | c :: cs => (c, c) :: classRanges cs
  | [] => []

/-- Reads a class from behind its opening bracket: the class, and its length up to behind its
closing bracket. A class holds at least one character, which may be a closing bracket. -/
def class? (cs : List Char) : Option (PatternPiece × Nat) :=
  let upTo (negated : Bool) (first : Char) (more : List Char) :=
    let inside := more.takeWhile (· ≠ ']')
    if inside.length < more.length then
      some (PatternPiece.oneOf negated (classRanges (first :: inside)),
        inside.length + if negated then 3 else 2)
    else none
  match cs with
  | '!' :: first :: more => upTo true first more
  | '!' :: [] => none
  | first :: more => upTo false first more
  | [] => none

/-- Reads the pieces of a pattern from its character `n` on, which `before` comes before. -/
def readFrom (n : Nat) (before : Option Char) : List Char → Except PatternFault PathPattern
  | [] => .ok []
  | c :: cs =>
    if c = '?' then (readFrom (n + 1) (some c) cs).map (.any :: ·)
    else if c = '[' then
      match class? cs with
      | none => .error (.badClass n)
      | some (piece, length) =>
        (readFrom (n + 1 + length) (some ']') (cs.drop length)).map (piece :: ·)
    else if c = '*' then
      match h : cs with
      | '*' :: '*' :: _ => .error (.tooManyStars (n + 2))
      | '*' :: rest =>
        if n = 0 || before = some '/' then
          match rest with
          | [] => .ok [.components]
          | d :: rest =>
            if d = '/' then (readFrom (n + 3) (some d) rest).map (.components :: ·)
            else .error (.partOfComponent (n + 2))
        else .error (.partOfComponent (n - 1))
      | _ => (readFrom (n + 1) (some c) cs).map (.run :: ·)
    else (readFrom (n + 1) (some c) cs).map (.char c :: ·)
termination_by cs => cs.length

def ofText (s : String) : Except PatternFault PathPattern := readFrom 0 none s.toList

inductive Outcome where
  | matched
  | mismatch
  /-- The text ends before the pattern does, so it is of no use to match still less of it. -/
  | exhausted
  deriving DecidableEq, Repr

/-- Goes on with `next` from here, or from further on as long as it finds a mismatch. With `whole`
it only goes on from behind separators and from the end. -/
def skipping (next : List Char → Outcome) (whole : Bool) : Bool → List Char → Outcome
  | _, [] => next []
  | here, c :: cs =>
    if here then
      match next (c :: cs) with
      | .mismatch => skipping next whole (!whole || c = '/') cs
      | outcome => outcome
    else skipping next whole (!whole || c = '/') cs

def matchesChar (c : Char) : PatternPiece → Bool
  | .char d => c = d
  | .oneOf negated ranges => (ranges.any fun (a, b) => a ≤ c && c ≤ b) ≠ negated
  | _ => true

def run : PathPattern → List Char → Outcome
  | [], [] => .matched
  | [], _ :: _ => .mismatch
  | .run :: ps, cs => skipping (run ps) false true cs
  | .components :: ps, cs => skipping (run ps) true true cs
  | _ :: _, [] => .exhausted
  | p :: ps, c :: cs => if matchesChar c p then run ps cs else .mismatch

def accepts (p : PathPattern) (s : String) : Bool := p.run s.toList = .matched

def literal? : PathPattern → Option (List Char)
  | [] => some []
  | .char c :: ps => (literal? ps).map (c :: ·)
  | _ => none

end PathPattern

end Graft

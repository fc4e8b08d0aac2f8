/-!
# Positions in a text

Lines count from one and columns from zero, in characters. A snippet is read on its own and
reports positions counted from its own start; `Location.offset` carries them over into the host
file that holds it.
-/

namespace Graft

structure Position where
  line : Nat
  column : Nat
  deriving DecidableEq, Repr

namespace Position

def start : Position := ⟨1, 0⟩

def next (p : Position) (c : Char) : Position :=
  if c = '\n' then ⟨p.line + 1, 0⟩ else ⟨p.line, p.column + 1⟩

def advance (p : Position) (cs : List Char) : Position := cs.foldl next p

theorem advance_append (p : Position) (as bs : List Char) :
    p.advance (as ++ bs) = (p.advance as).advance bs := List.foldl_append

end Position

structure Location where
  line : Nat
  col : Nat
  endLine : Nat
  endCol : Nat
  deriving DecidableEq, Repr

namespace Location

def none : Location := ⟨0, 0, 0, 0⟩

def ofRange (first last : Position) : Location :=
  ⟨first.line, first.column, last.line, last.column⟩

def point (p : Position) : Location := ofRange p p

/-- The place in the file of `p`, which is counted from the start of a text placed at `l`. Only
the first line of that text shares its line with what stands before it. -/
def offset (l : Location) (p : Position) : Position :=
  if p.line ≤ 1 then ⟨l.line, l.col + p.column⟩ else ⟨l.line + p.line - 1, p.column⟩

def render (l : Location) : String := toString l.line ++ ":" ++ toString l.col

end Location

end Graft

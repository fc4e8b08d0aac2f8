import Graft.Text.Bytes
import Graft.Text.Position

/-!
# Line indices

The byte offsets at which the lines of a text start are in order, so the line of an offset is found
by halving. Only that line is then gone through for the column.
-/

namespace Graft

inductive SearchResult where
  | found (index : Nat)
  | missing (index : Nat)
  deriving DecidableEq, Repr

/-- Halves the `size` sorted numbers from the index `base` on until one is left: the last of them
that is not above `x`, or the first if all are. -/
def narrow (xs : Array Nat) (x base size : Nat) : Nat :=
  if 1 < size then
    let middle := base + size / 2
    if x < xs.getD middle 0 then narrow xs x base (size - size / 2)
    else narrow xs x middle (size - size / 2)
  else base
termination_by size

def binarySearch (xs : Array Nat) (x : Nat) : SearchResult :=
  if xs.isEmpty then .missing 0
  else
    let index := narrow xs x 0 xs.size
    let y := xs.getD index 0
    if y = x then .found index else if y < x then .missing (index + 1) else .missing index

structure LineIndex where
  source : List Char
  starts : Array Nat
  deriving DecidableEq, Repr

namespace LineIndex

def startsFrom (offset : Nat) : List Char → List Nat
  | [] => []
  | c :: cs =>
    let later := startsFrom (offset + c.utf8Size) cs
    if c = '\n' then (offset + 1) :: later else later

def ofText (cs : List Char) : LineIndex := ⟨cs, (0 :: startsFrom 0 cs).toArray⟩

def lineOf (x : LineIndex) (offset : Nat) : Nat :=
  match binarySearch x.starts offset with
  | .found line => line
  | .missing line => line - 1

/-- The place of a byte offset. Past the end it is the place of the end; inside a character the
column counts bytes. -/
def position (x : LineIndex) (offset : Nat) : Position :=
  let offset := min offset (byteLength x.source)
  let line := x.lineOf offset
  let start := x.starts.getD line 0
  let column := match slice? x.source start offset with
    | some text => text.length
    | none => offset - start
  ⟨line + 1, column⟩

def location (x : LineIndex) (span : ByteSpan) : Location :=
  .ofRange (x.position span.first) (x.position span.last)

/-- The number of lines; a line end at the end of the text opens one more. -/
def lineCount (x : LineIndex) : Nat := x.starts.size

end LineIndex

def positionAt (cs : List Char) (offset : Nat) : Position := (LineIndex.ofText cs).position offset

def locationAt (cs : List Char) (span : ByteSpan) : Location :=
  (LineIndex.ofText cs).location span

def lineCount (cs : List Char) : Nat := (LineIndex.ofText cs).lineCount

end Graft

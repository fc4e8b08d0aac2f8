/-!
# Edit distance

The least number of characters to insert, delete or replace that turns one text into another, and
the names that lie close to a given one.
-/

namespace Graft

namespace EditDistance

/-- The next row of the distance table: `above` is the row before it without its first cell, `c`
the character of the first text, `corner` the cell above to the left and `left` the cell to the
left. -/
def nextRow (c : Char) (corner left : Nat) : List Char → List Nat → List Nat
  | d :: ds, up :: above =>
    let cell := min (min (up + 1) (left + 1)) (corner + if c = d then 0 else 1)
    cell :: nextRow c up cell ds above
  | _, _ => []

/-- One step of the table: from the distances between a text and every beginning of `bs` to those
for the text with `c` behind it. -/
def step (bs : List Char) (row : List Nat) (c : Char) : List Nat :=
  match row with
  | [] => []
  | first :: above => (first + 1) :: nextRow c first (first + 1) bs above

def firstRow (bs : List Char) : List Nat := List.range (bs.length + 1)

def distance (as bs : List Char) : Nat := ((as.foldl (step bs) (firstRow bs)).getLast?).getD 0

end EditDistance

/-- Whether one name, with its distance, is to be offered before another: the closer one is, and
of two equally close ones the smaller. -/
def closer (a b : String × Nat) : Bool := a.2 < b.2 || (a.2 = b.2 && a.1 ≤ b.1)

/-- The names at a distance between one and `most` from `target`, closest first. -/
def similarNames (target : String) (names : List String) (most : Nat) : List String :=
  let near := (names.map fun n => (n, EditDistance.distance target.toList n.toList)).filter
    fun (_, d) => d ≤ most && 0 < d
  (near.mergeSort closer).map (·.1)

end Graft

import Graft.Grammar.Level

/-!
# Items as they stand in a quote

The text of an items quote is taken over as it is, so all that matters is whether it is a sequence
of items.
-/

namespace Graft.Items

def withoutInterpreter (cs : List Char) : List Char :=
  if startsWith "#!" cs then
    let rest := cs.drop 2
    -- An attribute of the whole text starts with the same two marks.
    if (rest.drop (Comment.blankLength rest)).head? = some '[' then cs
    else cs.dropWhile (· ≠ '\n')
  else cs

/-- The text that is read as items: a byte order mark and the line of an interpreter are dropped. -/
def readable (text : String) : List Char :=
  let cs := text.toList
  withoutInterpreter (if cs.head?.any (·.toNat = 0xFEFF) then cs.drop 1 else cs)

def ofText (text : String) : Except SyntaxError (List (List Token)) :=
  match Token.read (readable text) with
  | .ok tokens => Parser.run (Grammar.reading tokens).items tokens
  | .error place => .error ⟨place, Token.readFailure⟩

def check (text : String) : Except SyntaxError Unit := (ofText text).map fun _ => ()

end Graft.Items

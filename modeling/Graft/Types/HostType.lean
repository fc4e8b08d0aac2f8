import Graft.Text.CharClass

/-!
# Host types

A host type is text that stands in a generated declaration. It is put together from other host
types by application and arrows, with parentheses where juxtaposition would tear it apart.
-/

namespace Graft

structure HostType where
  text : String
  deriving DecidableEq, Repr

namespace HostType

instance : ToString HostType := ⟨text⟩

def ofText (s : String) : HostType := ⟨.ofList (trimBlanks s.toList)⟩

/-- Whether the parenthesis that opens a text stays open up to its last character; `depth` counts
those open before it. -/
def closesLast (depth : Nat) : List Char → Bool
  | [] => true
  | '(' :: cs => closesLast (depth + 1) cs
  | ')' :: cs => (depth - 1 ≠ 0 || cs.isEmpty) && closesLast (depth - 1) cs
  | _ :: cs => closesLast depth cs

def enclosed (opening closing : Char) (cs : List Char) : Bool :=
  cs.head? = some opening && cs.getLast? = some closing

/-- Whether a type can be an argument as it stands: it is one word, or in brackets as a whole. -/
def isAtomic (t : HostType) : Bool :=
  let cs := t.text.toList
  !cs.any isBlank || (enclosed '(' ')' cs && closesLast 0 cs) || enclosed '[' ']' cs

def asArgument (t : HostType) : String := if t.isAtomic then t.text else "(" ++ t.text ++ ")"

def apply (constructor : String) (args : List HostType) : HostType :=
  ⟨args.foldl (fun text arg => text ++ " " ++ arg.asArgument) constructor⟩

def hasArrow : List Char → Bool
  | '-' :: '>' :: _ => true
  | _ :: cs => hasArrow cs
  | [] => false

def asParam (t : HostType) : String :=
  if hasArrow t.text.toList then "(" ++ t.text ++ ")" else t.text

def arrow (params : List HostType) (result : HostType) : HostType :=
  ⟨" -> ".intercalate (params.map asParam ++ [result.text])⟩

end HostType

end Graft

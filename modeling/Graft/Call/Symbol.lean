import Graft.Digest.Blake3
import Graft.Text.Quoted

/-!
# Symbols

The exported name of a boundary function is made of a name for the program, a tag for the unit and
a count within the unit.
-/

namespace Graft

namespace Symbol

def standardName : String := "inline_rust"

def isSymbolChar (c : Char) : Bool := isAscii c && (c.isAlphanum || c = '_')

/-- Makes an identifier of a text: other characters become underscores, and one stands before a
leading digit. -/
def sanitize (raw : String) : String :=
  match raw.toList.map fun c => if isSymbolChar c then c else '_' with
  | [] => standardName
  | c :: cs => .ofList (if c.isDigit then '_' :: c :: cs else c :: cs)

/-- The tag of a unit: the first eight digits of the digest of its name. -/
def unitTag (unit : String) : String :=
  .ofList (Blake3.hexWord (Blake3.digest unit.toUTF8.toList)[0])

inductive Fault where
  | empty
  | number
  | notIdentifier (name : String)
  deriving DecidableEq, Repr

def Fault.message : Fault → String
  | empty => "Ident is not allowed to be empty; use Option<Ident>"
  | number => "Ident cannot be a number; use Literal instead"
  | notIdentifier name => Quoted.shown name ++ " is not a valid Ident"

def isIdentifier : List Char → Bool
  | [] => false
  | c :: cs => isIdentStart c && cs.all isIdentContinue

def fault? (name : String) : Option Fault :=
  let cs := name.toList
  if cs.isEmpty then some .empty
  else if cs.all Char.isDigit then some .number
  else if isIdentifier cs then none else some (.notIdentifier name)

end Symbol

structure SymbolMinter where
  name : String
  tag : String
  minted : Nat
  deriving DecidableEq, Repr

namespace SymbolMinter

def ofUnit (name unit : String) : SymbolMinter := ⟨Symbol.sanitize name, Symbol.unitTag unit, 0⟩

def next (m : SymbolMinter) : String := m.name ++ "_" ++ m.tag ++ "_" ++ toString m.minted

def advance (m : SymbolMinter) : SymbolMinter := { m with minted := m.minted + 1 }

end SymbolMinter

end Graft

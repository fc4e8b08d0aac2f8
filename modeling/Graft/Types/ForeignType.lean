import Graft.Grammar.Level
import Graft.Token.Display

/-!
# Foreign types

A foreign type is known by its canonical spelling, so that two spellings that differ only in blanks
are one type. The spelling is itself a text of that type and can be read back.
-/

namespace Graft

def TypeTree.read (text : String) : Except SyntaxError TypeTree :=
  match Token.read text.toList with
  | .ok tokens => TypeTree.ofTokens tokens
  | .error place => .error ⟨place, Token.readFailure⟩

structure ForeignType where
  spelling : String
  deriving DecidableEq, Repr

namespace ForeignType

instance : ToString ForeignType := ⟨spelling⟩

def ofTree (t : TypeTree) : ForeignType := ⟨Token.spelling t.tokens⟩

def read (text : String) : Except SyntaxError ForeignType := (TypeTree.read text).map ofTree

def nothing : ForeignType := ⟨"()"⟩

def isNothing (t : ForeignType) : Bool := t = nothing

/-- The type tree that the spelling reads as. Where its tokens stand in the spelling does not
matter. -/
def tree? (t : ForeignType) : Option TypeTree :=
  match Token.read t.spelling.toList with
  | .ok tokens => (TypeTree.ofTokens (Token.unplacedAll tokens)).toOption
  | .error _ => none

end ForeignType

def TypeTree.peel : TypeTree → TypeTree
  | .mk _ (.paren inner) => inner.peel
  | t => t

end Graft

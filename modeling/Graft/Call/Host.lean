import Graft.Call.Entry
import Graft.Quote.Comments
import Graft.Types.HostType

/-!
# Host declarations and calls

What a host file says of a boundary function: the declaration that imports it and the call that
takes the place of the snippet. `HostLanguage` is how a language writes them.
-/

namespace Graft

structure HostDeclaration where
  symbol : String
  name : String
  safety : Safety
  purity : Purity
  params : List HostType
  /-- The result without the mark of an action. -/
  result : HostType
  deriving DecidableEq, Repr

namespace HostDeclaration

/-- The result as declared: an action has the type constructor `effect` around it. -/
def declaredResult (d : HostDeclaration) (effect : String) : HostType :=
  match d.purity with
  | .pure => d.result
  | .effectful => .apply effect [d.result]

def signature (d : HostDeclaration) (effect : String) : HostType :=
  .arrow d.params (d.declaredResult effect)

end HostDeclaration

structure HostCall where
  function : String
  args : List String
  deriving DecidableEq, Repr

structure HostLanguage where
  name : String
  /-- The type constructor of actions. -/
  effect : String
  comments : CommentSyntax
  isVariable : String → Bool
  renderDeclaration : HostDeclaration → String
  renderCall : HostCall → String

namespace HostLanguage

def bindingName (l : HostLanguage) (symbol : String) : String :=
  if l.isVariable symbol then symbol else "_" ++ symbol

def declarationsBlock (l : HostLanguage) (unit : String) (declarations : List String) : String :=
  "\n" ++ l.comments.line ++ " generated by splicer for " ++ unit ++ "\n" ++
    String.join (declarations.map (· ++ "\n"))

/-- An empty line and a comment that names the unit stand before the declarations, each of which has
a line of its own. -/
theorem declarationsBlock_eq_join (l : HostLanguage) (unit : String) (declarations : List String) :
    l.declarationsBlock unit declarations =
      String.join (("" :: (l.comments.line ++ " generated by splicer for " ++ unit) ::
        declarations).map (· ++ "\n")) := by
  simp only [declarationsBlock, List.map_cons, String.join_cons, String.empty_append,
    String.append_assoc]

end HostLanguage

end Graft

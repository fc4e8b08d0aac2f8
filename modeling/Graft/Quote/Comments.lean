/-!
# Comments of a host language
-/

namespace Graft

structure CommentSyntax where
  line : String
  block : Option (String × String)
  nested : Bool
  deriving DecidableEq, Repr

end Graft

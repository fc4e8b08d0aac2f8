import Graft.Types.Context

/-!
# Listings of contexts

A context as it is shown to its user: one line for each correspondence, and one for each rule.
-/

namespace Graft

def TypeRule.title : TypeRule → String
  | pointers => "Pointers"
  | functionPointers => "FunctionPointers"

namespace TypeContext

def listingWidth : Nat := 28

def padded (width : Nat) (s : String) : String :=
  s ++ .ofList (List.replicate (width - s.length) ' ')

def listing (c : TypeContext) : String :=
  let entryLine | (f, h) => padded listingWidth f.spelling ++ " " ++ h.text ++ "\n"
  String.join (c.entries.map entryLine) ++
    String.join (c.rules.map fun r => "rule: " ++ r.title ++ "\n")

end TypeContext

end Graft

import Graft.Proofs.Grammar.BlindItem
import Graft.Proofs.Grammar.SteadyExpression

/-!
# Items before more tokens

What an item starts with reads on the same before more tokens, and so do all parsers that may stand
outside of the groups of an item, at every depth of the grammar.
-/

set_option synthInstance.maxSize 200000

namespace Graft.Grammar

open Graft.Parser

variable {more ts : List Token} {g : Grammar} [Refines g g] [Steady more g]

/-! ## Visibility and functions -/

instance kept_startsItemPath [HoldsEnd ts] :
    Kept (startsItemPath ts) (startsItemPath (ts ++ more)) := by
  unfold startsItemPath
  infer_instance

instance steady_visibility : visibility.Steady more visibility := by
  unfold visibility
  infer_instance

instance steady_optional (s : String) : (optional s).Steady more (optional s) := by
  unfold optional
  infer_instance

instance readsMarks_optional (s : String) : ReadsMarks (optional s) := by
  unfold optional
  infer_instance

instance readsMarks_convention? : ReadsMarks convention? := by
  refine .andThen fun found => ?_
  split
  · refine ⟨fun s ⟨rest, written, leftover⟩ => ?_⟩
    rcases rest with _ | ⟨_ | _ | ⟨text, span⟩ | _, ts⟩
    case cons.literal =>
      show ∃ a d, (if Literal.isText text then
          token >>= fun _ => pure (some (Literal.textValue text))
        else pure none) s _ = .ok (a, d) ∧ _
      split
      · exact ⟨_, _, rfl, fun h => h.tail rfl⟩
      · exact ⟨_, _, rfl, id⟩
    all_goals exact ⟨_, _, rfl, id⟩
  · infer_instance

instance steady_functionMarks (safe : Bool) :
    (functionMarks safe).Steady more (functionMarks safe) := by
  unfold functionMarks
  infer_instance

instance readsMarks_functionMarks (safe : Bool) : ReadsMarks (functionMarks safe) := by
  unfold functionMarks
  infer_instance

instance steady_startsSignature (safe : Bool) :
    (startsSignature safe).Steady more (startsSignature safe) := by
  unfold startsSignature
  infer_instance

instance steady_signature (safe : Bool) : (g.signature safe).Steady more (g.signature safe) := by
  unfold signature
  infer_instance

instance steady_value? : g.value?.Steady more g.value? := by
  unfold value?
  infer_instance

instance steady_boundsUntil (stop : List Token → Bool)
    [∀ e : Ending, Kept (stop e.tokens) (stop (e.tokens ++ more))] :
    (g.boundsUntil stop).Steady more (g.boundsUntil stop) := by
  unfold boundsUntil
  infer_instance

/-! ## All parsers at every depth -/

instance steady_useForm (root : Bool) : (g.useForm root).Steady more (g.useForm root) := by
  unfold useForm
  infer_instance

instance steady_above : Steady more (above g) where
  type := steady_typeTree
  bound := steady_boundForm
  expr := steady_exprForm
  operand := steady_operandForm
  operators := steady_operatorsForm
  pattern := steady_patternForm
  useTree := steady_useForm

instance steady_bottom : Steady more bottom where
  type _ := steady_default _
  bound _ _ := steady_default _
  expr _ := steady_default _
  operand _ := steady_default _
  operators _ _ _ := steady_default _
  pattern := steady_default _
  useTree _ := steady_default _

instance steady_level (n : Nat) : Steady more (level n) := by
  induction n with
  | zero => exact steady_bottom
  | succ n ih =>
    have hrefines : Refines (level n) (level n) := refines_level (Nat.le_refl n)
    exact steady_above

end Graft.Grammar

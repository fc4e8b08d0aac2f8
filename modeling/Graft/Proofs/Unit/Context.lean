import Graft.Proofs.Unit.Agreement

/-!
# One context for all snippets of a unit

The context can be changed up to the first attempt to expand a snippet, whether or not the attempt
succeeds. So all snippets of a unit are resolved in one context, and the unit still has it when
another snippet comes.
-/

namespace Graft

/-- Whether an operation tries to expand a snippet. -/
def UnitOp.isExpand : UnitOp → Bool
  | expand .. => true
  | setContext _ | emitItems .. => false

namespace CompilationUnit

/-! ## The count of attempts -/

theorem expand_counts (u : CompilationUnit) (entry : EntryPoint) (text : String) (site : Site)
    (bridge : HostBridge) :
    (u.expand entry text site bridge).unit.attempts = u.attempts + 1 := by
  rcases hr : u.resolve text site bridge with ⟨result, events⟩
  cases result with
  | error d => rw [expand_of_error hr]
  | ok r => rw [expand_of_ok hr]

/-- Only expansions are counted, and those that fail as well. -/
theorem perform_counts (u : CompilationUnit) (op : UnitOp) :
    (u.perform op).unit.attempts = u.attempts + if op.isExpand then 1 else 0 := by
  cases op with
  | setContext context =>
    by_cases hlate : 0 < u.attempts <;> simp [perform, setContext, UnitOp.isExpand, hlate]
  | expand entry text site bridge => exact expand_counts u entry text site bridge
  | emitItems text location =>
    simp only [perform, UnitOp.isExpand]
    cases hemit : u.emitItems text location with
    | error d => rfl
    | ok p =>
      obtain ⟨handle, v⟩ := p
      rw [emitItems_eq_ok hemit]
      rfl

/-- The count is that of the expansions there have been. -/
theorem attempts_run (u : CompilationUnit) (ops : List UnitOp) :
    (u.run ops).unit.attempts = u.attempts + ops.countP (·.isExpand) := by
  induction ops using List.reverseRecOn with
  | nil => rfl
  | append_singleton ops op ih =>
    rw [run_append_singleton, List.countP_append, ← Nat.add_assoc, ← ih]
    show ((u.run ops).unit.perform op).unit.attempts = _
    rw [perform_counts, List.countP_singleton]

/-! ## The context of a unit -/

/-- **A unit has one context.** After any operations on a new unit, the context can be changed
exactly if no expansion has been tried; otherwise the number of those tried is reported, and the
unit stays as it was. And the context that the unit then has gives every snippet expanded so far the
host types of its declaration, parameter for parameter, and the type of its result. -/
theorem run_one_context (name : String) (options : UnitOptions) (context : TypeContext)
    (ops : List UnitOp) :
    let u := ((ofName name options context).run ops).unit
    let tried := ops.countP (·.isExpand)
    (∀ new, u.perform (.setContext new) =
      if tried = 0 then ⟨.ok .contextSet, { u with context := new }, []⟩
      else ⟨.error ((Diagnostic.ofFault (.configurationOrder tried) .none).inFile name), u, []⟩) ∧
    ∀ record ∈ u.callSites,
      List.Forall₂ (fun type host => u.context.lookup type = some host)
        record.foreignParams record.declaration.params ∧
      u.context.lookup record.foreignResult = some record.declaration.result := by
  intro u tried
  have ha := History.agrees_run name options context ops
  have htried : u.attempts = tried := by
    show ((ofName name options context).run ops).unit.attempts = _
    rw [attempts_run]
    exact Nat.zero_add _
  constructor
  · intro new
    simp only [perform, setContext, htried, Nat.pos_iff_ne_zero]
    by_cases hnone : tried = 0
    · simp only [hnone, ne_eq, not_true_eq_false, if_false, if_true]
    · have hname : u.name = name := ha.sameName
      simp only [hnone, ne_eq, not_false_eq_true, if_false, if_true, hname]
  · intro record hrecord
    change record ∈ ((ofName name options context).run ops).unit.callSites at hrecord
    rw [ha.callSites] at hrecord
    obtain ⟨x, hx, rfl⟩ := List.mem_map.mp hrecord
    obtain ⟨i, hi⟩ := List.mem_iff_getElem?.mp hx
    exact ⟨(ha.each i x hi).params, (ha.each i x hi).result⟩

end CompilationUnit

end Graft

import Mathlib.Data.List.Induction
import Graft.Proofs.Unit.Step

/-!
# Operations that fail leave no trace

An operation that fails changes nothing but the count of attempts, and the count is seen only by a
change of the context, which fails as soon as it is not zero. So a run and the same run without the
operations that failed go through units that differ in that count alone.
-/

namespace Graft

namespace CompilationUnit

/-- `v` is `u` with another count of attempts, which is zero where that of `u` is. -/
def SameButAttempts (u v : CompilationUnit) : Prop :=
  v = { u with attempts := v.attempts } ∧ (u.attempts = 0 → v.attempts = 0)

theorem SameButAttempts.refl (u : CompilationUnit) : SameButAttempts u u := ⟨rfl, id⟩

variable {u v : CompilationUnit} {op : UnitOp}

/-! ## One operation -/

/-- An operation that fails leaves the unit as it was but for its attempts, and reports nothing. -/
theorem perform_of_error {d : Diagnostic} (h : (u.perform op).result = .error d)
    (huv : SameButAttempts u v) :
    SameButAttempts (u.perform op).unit v ∧
      ∀ e ∈ (u.perform op).events, e.isReport = false := by
  obtain ⟨hv, hzero⟩ := huv
  cases op with
  | setContext context =>
    unfold perform at h ⊢
    cases hset : u.setContext context with
    | ok w => simp [hset] at h
    | error d => simpa [hset] using ⟨hv, hzero⟩
  | expand entry text site bridge =>
    have hquiet := resolve_isReport u text site bridge
    rcases hr : u.resolve text site bridge with ⟨result, events⟩
    rw [hr] at hquiet
    simp only [perform] at h ⊢
    cases result with
    | ok r => simp [expand_of_ok hr, Except.map] at h
    | error d =>
      rw [expand_of_error hr]
      refine ⟨⟨hv, ?_⟩, hquiet⟩
      intro hcount
      simp at hcount
  | emitItems text location =>
    unfold perform at h ⊢
    cases hemit : u.emitItems text location with
    | ok p => simp [hemit] at h
    | error d => simpa [hemit] using ⟨hv, hzero⟩

/-- An operation that succeeds does so with any other count of attempts, and to the same effect. -/
theorem perform_of_ok {reply : UnitReply} (h : (u.perform op).result = .ok reply)
    (huv : SameButAttempts u v) :
    (v.perform op).result = .ok reply ∧ (v.perform op).events = (u.perform op).events ∧
      SameButAttempts (u.perform op).unit (v.perform op).unit := by
  obtain ⟨hv, hzero⟩ := huv
  cases op with
  | setContext context =>
    by_cases hu : 0 < u.attempts
    · simp [perform, setContext, hu] at h
    · have hnone : ¬0 < v.attempts := by omega
      simp only [perform, setContext, if_neg hu, if_neg hnone] at h ⊢
      refine ⟨h, trivial, ?_, ?_⟩
      · rw [hv]
      · intro _
        exact hzero (by omega)
  | expand entry text site bridge =>
    have hexpand := expand_attempts u v.attempts entry text site bridge
    rw [← hv] at hexpand
    simp only [perform] at h ⊢
    rw [hexpand]
    refine ⟨h, rfl, rfl, ?_⟩
    intro hcount
    rcases hr : u.resolve text site bridge with ⟨result, events⟩
    cases result with
    | error d => simp [expand_of_error hr] at hcount
    | ok r => simp [expand_of_ok hr] at hcount
  | emitItems text location =>
    rw [hv]
    unfold perform emitItems at h ⊢
    cases hcheck : Items.check text with
    | error e => simp [hcheck] at h
    | ok _ =>
      simp only [hcheck] at h ⊢
      exact ⟨h, trivial, rfl, hzero⟩

end CompilationUnit

/-! ## Runs -/

namespace History

/-- What a history `k` has kept of `h` when the operations that failed in `h` are left out. -/
structure WithoutFailures (h k : History) : Prop where
  unit : CompilationUnit.SameButAttempts h.unit k.unit
  answers : k.answers = h.answers.filter (·.2.isOk)
  reports : k.reports = h.reports

theorem succeeded_step_of_ok {h : History} {op : UnitOp} {reply : UnitReply}
    (hok : (h.unit.perform op).result = .ok reply) :
    (h.step op).succeeded = h.succeeded ++ [op] := by
  simp [succeeded, step, hok, Except.isOk, Except.toBool]

theorem succeeded_step_of_error {h : History} {op : UnitOp} {d : Diagnostic}
    (herror : (h.unit.perform op).result = .error d) :
    (h.step op).succeeded = h.succeeded := by
  simp [succeeded, step, herror, Except.isOk, Except.toBool]

theorem WithoutFailures.step_of_error {h k : History} {op : UnitOp} {d : Diagnostic}
    (hk : WithoutFailures h k) (herror : (h.unit.perform op).result = .error d) :
    WithoutFailures (h.step op) k := by
  obtain ⟨hunit, hquiet⟩ := CompilationUnit.perform_of_error herror hk.unit
  refine ⟨hunit, ?_, ?_⟩
  · rw [hk.answers]
    simp [step, herror, Except.isOk, Except.toBool]
  · rw [reports_step_of_quiet hquiet]
    exact hk.reports

theorem WithoutFailures.step_of_ok {h k : History} {op : UnitOp} {reply : UnitReply}
    (hk : WithoutFailures h k) (hok : (h.unit.perform op).result = .ok reply) :
    WithoutFailures (h.step op) (k.step op) := by
  obtain ⟨hsame, hevents, hunit⟩ := CompilationUnit.perform_of_ok hok hk.unit
  refine ⟨hunit, ?_, ?_⟩
  · simp [step, hk.answers, hok, hsame, Except.isOk, Except.toBool]
  · rw [reports_step, reports_step, hevents, hk.reports]

end History

namespace CompilationUnit

/-- The history of the operations that succeed is that of all operations without the failures. -/
theorem run_withoutFailures (u : CompilationUnit) (ops : List UnitOp) :
    (u.run ops).WithoutFailures (u.run (u.run ops).succeeded) := by
  induction ops using List.reverseRecOn with
  | nil => exact ⟨SameButAttempts.refl u, rfl, rfl⟩
  | append_singleton ops op ih =>
    rw [run_append_singleton]
    cases hresult : ((u.run ops).unit.perform op).result with
    | error d =>
      rw [History.succeeded_step_of_error hresult]
      exact ih.step_of_error hresult
    | ok reply =>
      rw [History.succeeded_step_of_ok hresult, run_append_singleton]
      exact ih.step_of_ok hresult

/-- **Failures leave no trace.** Without the operations that failed, a run gives the same answer to
each that is left, and ends with the same calls, symbols, foreign file and context; the host file is
told the same in the same order. -/
theorem run_succeeded (u : CompilationUnit) (ops : List UnitOp) :
    let all := u.run ops
    let kept := u.run all.succeeded
    kept.answers = all.answers.filter (·.2.isOk) ∧
      kept.unit.callSites = all.unit.callSites ∧
      kept.unit.minter = all.unit.minter ∧
      kept.unit.sink = all.unit.sink ∧
      kept.unit.context = all.unit.context ∧
      kept.reports = all.reports := by
  intro all kept
  obtain ⟨⟨hunit, -⟩, hanswers, hreports⟩ := run_withoutFailures u ops
  exact ⟨hanswers, (congrArg callSites hunit :), (congrArg minter hunit :), (congrArg sink hunit :),
    (congrArg context hunit :), hreports⟩

end CompilationUnit

end Graft

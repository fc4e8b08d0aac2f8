import Mathlib.Data.List.Forall2
import Graft.Proofs.Snippet.Read
import Graft.Unit.History

/-!
# What one operation does to a unit

An expansion first reads and resolves its snippet, and only then mints, emits and reports. Each lemma
here says what one stage gives, so that no later proof opens a stage again.
-/

namespace Graft

/-! ## Reading and resolving -/

theorem TypeContext.resolve_eq_ok {c : TypeContext} {type : ForeignType} {position : TypePosition}
    {location : Location} {host : HostType} (h : c.resolve type position location = .ok host) :
    c.lookup type = some host := by
  unfold TypeContext.resolve at h
  split at h
  next found hfound =>
    rw [hfound, Except.ok.inj h]
  next => cases h

theorem Signature.resolveParams_eq_ok {c : TypeContext} {ps : List Placeholder} {index : Nat}
    {hosts : List HostType} (h : Signature.resolveParams c index ps = .ok hosts) :
    List.Forall₂ (fun p host => c.lookup p.key = some host) ps hosts := by
  induction ps generalizing index hosts with
  | nil =>
    rw [← Except.ok.inj h]
    exact .nil
  | cons p ps ih =>
    obtain ⟨host, hhost, h⟩ := except_bind_eq_ok h
    obtain ⟨rest, hrest, h⟩ := except_bind_eq_ok h
    rw [← Except.ok.inj h]
    exact .cons (TypeContext.resolve_eq_ok hhost) (ih hrest)

/-- A signature holds what the context gives for the types of the snippet, in their order. -/
theorem Signature.resolve_eq_ok {c : TypeContext} {s : Snippet} {sig : Signature}
    (h : Signature.resolve c s = .ok sig) :
    c.lookup s.resultKey = some sig.result ∧
      List.Forall₂ (fun p host => c.lookup p.key = some host) s.params sig.params := by
  obtain ⟨result, hresult, h⟩ := except_bind_eq_ok h
  obtain ⟨params, hparams, h⟩ := except_bind_eq_ok h
  rw [← Except.ok.inj h]
  exact ⟨TypeContext.resolve_eq_ok hresult, resolveParams_eq_ok hparams⟩

theorem TypeContext.resolve_eq_error {c : TypeContext} {type : ForeignType}
    {position : TypePosition} {location : Location} {d : Diagnostic}
    (h : c.resolve type position location = .error d) :
    c.lookup type = none ∧ d = .unmappedType type.spelling position location c.spellings := by
  unfold TypeContext.resolve at h
  split at h
  · cases h
  next hnone => exact ⟨hnone, (Except.error.inj h).symm⟩

theorem Signature.resolveParams_eq_error {c : TypeContext} {ps : List Placeholder} {index : Nat}
    {d : Diagnostic} (h : Signature.resolveParams c index ps = .error d) :
    ∃ p ∈ ps, ∃ position, c.resolve p.key position p.location = .error d := by
  induction ps generalizing index with
  | nil => cases h
  | cons p ps ih =>
    rcases except_bind_eq_error h with hfirst | ⟨host, -, h⟩
    · exact ⟨p, List.mem_cons_self, _, hfirst⟩
    rcases except_bind_eq_error h with hrest | ⟨rest, -, h⟩
    · obtain ⟨p', hp', hfailed⟩ := ih hrest
      exact ⟨p', List.mem_cons_of_mem p hp', hfailed⟩
    · cases h

/-- A signature fails at a type of the snippet that the context has nothing for. -/
theorem Signature.resolve_eq_error {c : TypeContext} {s : Snippet} {d : Diagnostic}
    (h : Signature.resolve c s = .error d) :
    ∃ type ∈ s.resultKey :: s.paramKeys, c.lookup type = none ∧
      ∃ position location, d = .unmappedType type.spelling position location c.spellings := by
  rcases except_bind_eq_error h with hresult | ⟨result, -, h⟩
  · obtain ⟨hnone, hd⟩ := TypeContext.resolve_eq_error hresult
    exact ⟨s.resultKey, List.mem_cons_self, hnone, _, _, hd⟩
  rcases except_bind_eq_error h with hparams | ⟨params, -, h⟩
  · obtain ⟨p, hp, position, hfailed⟩ := resolveParams_eq_error hparams
    obtain ⟨hnone, hd⟩ := TypeContext.resolve_eq_error hfailed
    exact ⟨p.key, List.mem_cons_of_mem _ (List.mem_map_of_mem hp), hnone, _, _, hd⟩
  · cases h

namespace CompilationUnit

variable {u : CompilationUnit} {bridge : HostBridge} {site : Site} {text : String}
  {entry : EntryPoint}

/-- Looking up names tells the host file nothing. -/
theorem lookUp_isReport (bridge : HostBridge) (site : Site) (ps : List Placeholder) :
    ∀ e ∈ (lookUp bridge site ps).2, e.isReport = false := by
  induction ps with
  | nil =>
    intro e he
    cases he
  | cons p ps ih =>
    intro e he
    rw [lookUp] at he
    split at he
    · rw [List.mem_singleton.mp he]
      rfl
    · rcases List.mem_cons.mp he with rfl | he
      · rfl
      · exact ih e he

theorem lookUp_eq_ok {ps : List Placeholder} {args : List String}
    (h : (lookUp bridge site ps).1 = .ok args) :
    List.Forall₂ (fun p a => bridge.lookup p.name site = some a) ps args := by
  induction ps generalizing args with
  | nil =>
    rw [← Except.ok.inj h]
    exact .nil
  | cons p ps ih =>
    rw [lookUp] at h
    split at h
    · cases h
    next host hhost =>
      rcases hrest : lookUp bridge site ps with ⟨others, events⟩
      rw [hrest] at h ih
      cases others with
      | error d => cases h
      | ok others =>
        rw [← Except.ok.inj h]
        exact .cons hhost (ih rfl)

/-- Looking up names fails at a placeholder that the host file has no variable for. -/
theorem lookUp_eq_error {ps : List Placeholder} {d : Diagnostic}
    (h : (lookUp bridge site ps).1 = .error d) :
    ∃ p ∈ ps, bridge.lookup p.name site = none ∧
      d = .unresolvedIdentifier p.name p.location (bridge.visible site) := by
  induction ps with
  | nil => cases h
  | cons p ps ih =>
    rw [lookUp] at h
    split at h
    next hnone => exact ⟨p, List.mem_cons_self, hnone, (Except.error.inj h).symm⟩
    next host _ =>
      rcases hrest : lookUp bridge site ps with ⟨others, events⟩
      rw [hrest] at h ih
      cases others with
      | ok others => cases h
      | error d' =>
        obtain ⟨p', hp', hnone, hd⟩ := ih h
        exact ⟨p', List.mem_cons_of_mem p hp', hnone, hd⟩

/-- Resolving a snippet tells the host file nothing, whether or not it succeeds. -/
theorem resolve_isReport (u : CompilationUnit) (text : String) (site : Site)
    (bridge : HostBridge) : ∀ e ∈ (u.resolve text site bridge).2, e.isReport = false := by
  unfold resolve
  split
  · simp
  split
  · simp
  · exact lookUp_isReport bridge site _

/-- What resolving a snippet has established. -/
theorem resolve_eq_ok {r : Resolved} {events : List BridgeEvent}
    (h : u.resolve text site bridge = (.ok r, events)) :
    Snippet.read text site.location = .ok r.snippet ∧
      Signature.resolve u.context r.snippet = .ok r.signature ∧
      (lookUp bridge site r.snippet.params).1 = .ok r.args := by
  unfold resolve at h
  split at h
  · cases h
  next snippet hsnippet =>
    split at h
    · cases h
    next signature hsignature =>
      cases hargs : (lookUp bridge site snippet.params).1 with
      | error d => simp [hargs, Except.map] at h
      | ok args =>
        simp only [hargs, Except.map, Prod.mk.injEq, Except.ok.injEq] at h
        rw [← h.1]
        exact ⟨hsnippet, hsignature, hargs⟩

/-- Resolving a snippet fails as one of its stages does. -/
theorem resolve_eq_error {d : Diagnostic} {events : List BridgeEvent}
    (h : u.resolve text site bridge = (.error d, events)) :
    Snippet.read text site.location = .error d ∨
      ∃ s, Snippet.read text site.location = .ok s ∧
        (Signature.resolve u.context s = .error d ∨
          (lookUp bridge site s.params).1 = .error d) := by
  unfold resolve at h
  split at h
  next d' hread =>
    obtain rfl := Except.error.inj (Prod.mk.inj h).1
    exact .inl hread
  next s hread =>
    refine .inr ⟨s, hread, ?_⟩
    split at h
    next d' hsignature =>
      obtain rfl := Except.error.inj (Prod.mk.inj h).1
      exact .inl hsignature
    next signature _ =>
      cases hargs : (lookUp bridge site s.params).1 with
      | ok args => simp [hargs, Except.map] at h
      | error d' =>
        simp only [hargs, Except.map, Prod.mk.injEq, Except.error.injEq] at h
        rw [h.1]
        exact .inr rfl

/-! ## Expanding -/

/-- An expansion that fails only counts the attempt. -/
theorem expand_of_error {d : Diagnostic} {events : List BridgeEvent}
    (h : u.resolve text site bridge = (.error d, events)) (entry : EntryPoint) :
    u.expand entry text site bridge =
      ⟨.error (d.inFile u.name), { u with attempts := u.attempts + 1 }, events⟩ := by
  rw [expand, h]

/-- An expansion that succeeds mints, emits, records and reports the boundary of the snippet. -/
theorem expand_of_ok {r : Resolved} {events : List BridgeEvent}
    (h : u.resolve text site bridge = (.ok r, events)) (entry : EntryPoint) :
    u.expand entry text site bridge =
      ⟨.ok (u.callSite (u.boundary entry bridge r)),
        { u with
          attempts := u.attempts + 1
          minter := u.minter.advance
          sink := u.sink.push (.function (u.boundary entry bridge r).function)
          callSites := u.callSites ++ [u.callSite (u.boundary entry bridge r)] },
        events ++ [.declare (u.boundary entry bridge r).declaration,
          .substitute site (u.boundary entry bridge r).call]⟩ := by
  rw [expand, h]

theorem expand_eq_ok {record : CallSite}
    (h : (u.expand entry text site bridge).result = .ok record) :
    ∃ r events, u.resolve text site bridge = (.ok r, events) ∧
      record = u.callSite (u.boundary entry bridge r) := by
  rcases hr : u.resolve text site bridge with ⟨result, events⟩
  cases result with
  | error d =>
    rw [expand_of_error hr] at h
    cases h
  | ok r =>
    rw [expand_of_ok hr] at h
    exact ⟨r, events, rfl, (Except.ok.inj h).symm⟩

theorem expand_eq_error {d : Diagnostic}
    (h : (u.expand entry text site bridge).result = .error d) :
    ∃ d' events, u.resolve text site bridge = (.error d', events) ∧ d = d'.inFile u.name := by
  rcases hr : u.resolve text site bridge with ⟨result, events⟩
  cases result with
  | error d' =>
    rw [expand_of_error hr] at h
    exact ⟨d', events, rfl, (Except.error.inj h).symm⟩
  | ok r =>
    rw [expand_of_ok hr] at h
    cases h

/-- How often a unit has been tried before changes nothing about an expansion but the count. -/
theorem expand_attempts (u : CompilationUnit) (n : Nat) (entry : EntryPoint) (text : String)
    (site : Site) (bridge : HostBridge) :
    ({ u with attempts := n } : CompilationUnit).expand entry text site bridge =
      { u.expand entry text site bridge with
        unit := { (u.expand entry text site bridge).unit with attempts := n + 1 } } := by
  have hsame : ({ u with attempts := n } : CompilationUnit).resolve text site bridge =
      u.resolve text site bridge := rfl
  rcases hr : u.resolve text site bridge with ⟨result, events⟩
  cases result with
  | error d =>
    rw [expand_of_error hr, expand_of_error (hsame.trans hr)]
  | ok r =>
    rw [expand_of_ok hr, expand_of_ok (hsame.trans hr)]
    rfl

/-! ## Items -/

theorem emitItems_eq_ok {v : CompilationUnit} {location : Location} {handle : Nat}
    (h : u.emitItems text location = .ok (handle, v)) :
    v = { u with sink := u.sink.push (.items text location) } := by
  unfold emitItems at h
  split at h
  · exact (Prod.mk.inj (Except.ok.inj h)).2.symm
  · cases h

/-! ## Runs -/

theorem run_append_singleton (u : CompilationUnit) (ops : List UnitOp) (op : UnitOp) :
    u.run (ops ++ [op]) = (u.run ops).step op := by
  simp [run]

end CompilationUnit

theorem BridgeEvent.filter_isReport {events : List BridgeEvent}
    (h : ∀ e ∈ events, e.isReport = false) : events.filter (·.isReport) = [] := by
  rw [List.filter_eq_nil_iff]
  intro e he
  rw [h e he]
  exact Bool.false_ne_true

namespace History

theorem reports_step (h : History) (op : UnitOp) :
    (h.step op).reports =
      h.reports ++ (h.unit.perform op).events.filter (·.isReport) := by
  simp [reports, step]

theorem reports_step_of_quiet {h : History} {op : UnitOp}
    (hquiet : ∀ e ∈ (h.unit.perform op).events, e.isReport = false) :
    (h.step op).reports = h.reports := by
  rw [reports_step, BridgeEvent.filter_isReport hquiet, List.append_nil]

end History

end Graft

import Mathlib.Data.List.Induction
import Graft.Proofs.Unit.Step

/-!
# The records of a snippet agree

An expanded snippet is recorded five times: as a function of the foreign file, as a declaration, as
a call, in the record that the unit keeps, and in what the host file is told. The invariant here
holds after every run of operations: the records stand in one order and say the same.
-/

namespace Graft

/-- A snippet that has been expanded: what was asked for, and the record kept of it. -/
structure Expanded where
  entry : EntryPoint
  text : String
  site : Site
  bridge : HostBridge
  record : CallSite

namespace Expanded

def ofAnswer? : UnitOp × Except Diagnostic UnitReply → Option Expanded
  | (.expand entry text site bridge, .ok (.expanded record)) =>
    some ⟨entry, text, site, bridge, record⟩
  | _ => none

/-- What the host file is told of a snippet. -/
def reports (x : Expanded) : List BridgeEvent :=
  [.declare x.record.declaration, .substitute x.site x.record.call]

/-- The records of `x`, the snippet number `i` of the unit `u`, say the same. -/
structure Agrees (x : Expanded) (u : CompilationUnit) (i : Nat) : Prop where
  symbol : x.record.symbol =
    Symbol.sanitize u.options.symbolName ++ "_" ++ Symbol.unitTag u.name ++ "_" ++ toString i
  asked : x.record.entry = x.entry ∧ x.record.location = x.site.location
  /-- The handle leads to the function of the snippet. -/
  function : ∃ s f, Snippet.read x.text x.site.location = .ok s ∧
    u.sink.entries[x.record.handle]? = some (.function f) ∧
    f = .ofSnippet x.record.symbol s x.entry u.options.edition ∧
    f.symbol = x.record.symbol ∧ f.paramNames = x.record.argNames ∧
    f.paramTypes = x.record.foreignParams ∧ f.result = x.record.foreignResult ∧
    f.location = x.record.location ∧ f.entry = x.record.entry
  declared : x.record.declaration.symbol = x.record.symbol
  called : x.record.call.function = x.record.declaration.name
  bound : x.record.declaration.name = x.bridge.bindingName x.record.symbol
  /-- Declared types are the host types of the foreign ones, one for one. -/
  params : List.Forall₂ (fun type host => u.context.lookup type = some host)
    x.record.foreignParams x.record.declaration.params
  result : u.context.lookup x.record.foreignResult = some x.record.declaration.result
  /-- Arguments of the call are what the host file gives for the names, one for one. -/
  args : List.Forall₂ (fun name host => x.bridge.lookup name x.site = some host)
    x.record.argNames x.record.call.args
  arity : x.record.foreignParams.length = x.record.argNames.length ∧
    x.record.declaration.params.length = x.record.argNames.length ∧
    x.record.call.args.length = x.record.argNames.length

end Expanded

/-- The snippets that have been expanded, in order. -/
def History.expanded (h : History) : List Expanded := h.answers.filterMap Expanded.ofAnswer?

/-! ## What one operation does to the records -/

namespace CompilationUnit

/-- `v` comes from `u` by an operation that expands nothing. -/
structure Keeps (u v : CompilationUnit) : Prop where
  name : v.name = u.name
  options : v.options = u.options
  minter : v.minter = u.minter
  callSites : v.callSites = u.callSites
  functions : v.sink.functionCount = u.sink.functionCount
  entries : u.sink.entries <+: v.sink.entries
  attempts : u.attempts ≤ v.attempts
  context : v.context = u.context ∨ u.attempts = 0

theorem Keeps.refl (u : CompilationUnit) : Keeps u u :=
  ⟨rfl, rfl, rfl, rfl, rfl, List.prefix_rfl, Nat.le_refl _, .inl rfl⟩

theorem setContext_keeps {u v : CompilationUnit} {context : TypeContext}
    (h : u.setContext context = .ok v) : Keeps u v := by
  unfold setContext at h
  split at h
  · cases h
  · rw [← Except.ok.inj h]
    exact ⟨rfl, rfl, rfl, rfl, rfl, List.prefix_rfl, Nat.le_refl _, .inr (by omega)⟩

theorem emitItems_keeps {u v : CompilationUnit} {text : String} {location : Location}
    {handle : Nat} (h : u.emitItems text location = .ok (handle, v)) : Keeps u v := by
  rw [emitItems_eq_ok h]
  refine ⟨rfl, rfl, rfl, rfl, ?_, List.prefix_append _ _, Nat.le_refl _, .inl rfl⟩
  exact Sink.functionCount_push u.sink _

/-- An operation expands a snippet, or it keeps all records and reports nothing. -/
theorem perform_cases (u : CompilationUnit) (op : UnitOp) :
    (Expanded.ofAnswer? (op, (u.perform op).result) = none ∧ Keeps u (u.perform op).unit ∧
      ∀ e ∈ (u.perform op).events, e.isReport = false) ∨
    ∃ entry text site bridge r events, op = .expand entry text site bridge ∧
      u.resolve text site bridge = (.ok r, events) := by
  cases op with
  | setContext context =>
    left
    simp only [perform]
    cases hset : u.setContext context with
    | error d => exact ⟨rfl, Keeps.refl u, by simp⟩
    | ok v => exact ⟨rfl, setContext_keeps hset, by simp⟩
  | expand entry text site bridge =>
    rcases hr : u.resolve text site bridge with ⟨result, events⟩
    cases result with
    | ok r => exact .inr ⟨entry, text, site, bridge, r, events, rfl, hr⟩
    | error d =>
      left
      have hquiet := resolve_isReport u text site bridge
      rw [hr] at hquiet
      simp only [perform, expand_of_error hr]
      exact ⟨rfl, ⟨rfl, rfl, rfl, rfl, rfl, List.prefix_rfl, Nat.le_succ _, .inl rfl⟩, hquiet⟩
  | emitItems text location =>
    left
    simp only [perform]
    cases hemit : u.emitItems text location with
    | error d => exact ⟨rfl, Keeps.refl u, by simp⟩
    | ok p => exact ⟨rfl, emitItems_keeps hemit, by simp⟩

end CompilationUnit

namespace Expanded

/-- Agreement survives all that is emitted later, as long as the context stays. -/
theorem Agrees.mono {x : Expanded} {u v : CompilationUnit} {i : Nat} (h : x.Agrees u i)
    (hname : v.name = u.name) (hoptions : v.options = u.options) (hcontext : v.context = u.context)
    (hentries : u.sink.entries <+: v.sink.entries) : x.Agrees v i := by
  obtain ⟨s, f, hs, hf, hrest⟩ := h.function
  have hlater : v.sink.entries[x.record.handle]? = some (.function f) := by
    obtain ⟨hlt, -⟩ := List.getElem?_eq_some_iff.mp hf
    obtain ⟨more, hmore⟩ := hentries
    rw [← hmore, List.getElem?_append_left hlt, hf]
  refine ⟨?_, h.asked, ⟨s, f, hs, hlater, ?_⟩, h.declared, h.called, h.bound, ?_, ?_, h.args,
    h.arity⟩
  · rw [hoptions, hname]
    exact h.symbol
  · rw [hoptions]
    exact hrest
  · rw [hcontext]
    exact h.params
  · rw [hcontext]
    exact h.result

theorem Agrees.handle_lt {x : Expanded} {u : CompilationUnit} {i : Nat} (h : x.Agrees u i) :
    x.record.handle < u.sink.size := by
  obtain ⟨s, f, -, hf, -⟩ := h.function
  exact (List.getElem?_eq_some_iff.mp hf).1

end Expanded

/-- The snippet that an expansion records agrees with the boundary it emits. -/
theorem CompilationUnit.expand_agrees {u : CompilationUnit} {text : String} {site : Site}
    {bridge : HostBridge} {r : Resolved} {events : List BridgeEvent} {i : Nat}
    (hr : u.resolve text site bridge = (.ok r, events)) (entry : EntryPoint)
    (hminter : u.minter = ⟨Symbol.sanitize u.options.symbolName, Symbol.unitTag u.name, i⟩) :
    (⟨entry, text, site, bridge, u.callSite (u.boundary entry bridge r)⟩ : Expanded).Agrees
      (u.expand entry text site bridge).unit i := by
  obtain ⟨hread, hsignature, hlookUp⟩ := resolve_eq_ok hr
  obtain ⟨hresult, hparams⟩ := Signature.resolve_eq_ok hsignature
  have hargs := lookUp_eq_ok hlookUp
  rw [expand_of_ok hr]
  refine
    { symbol := ?_
      asked := ⟨rfl, Snippet.read_location hread⟩
      function := ⟨r.snippet, _, hread, ?_, rfl, rfl, rfl, rfl, rfl, rfl, rfl⟩
      declared := rfl
      called := rfl
      bound := rfl
      params := List.forall₂_map_left_iff.mpr hparams
      result := hresult
      args := List.forall₂_map_left_iff.mpr hargs
      arity := ⟨?_, ?_, ?_⟩ }
  · show u.minter.next = _
    rw [hminter]
    rfl
  · exact List.getElem?_concat_length
  · show r.snippet.paramKeys.length = r.snippet.paramNames.length
    rw [Snippet.paramKeys, Snippet.paramNames, List.length_map, List.length_map]
  · show r.signature.params.length = r.snippet.paramNames.length
    rw [Snippet.paramNames, List.length_map, hparams.length_eq]
  · show r.args.length = r.snippet.paramNames.length
    rw [Snippet.paramNames, List.length_map, hargs.length_eq]

/-! ## Runs -/

namespace History

/-- All records of a history agree, where its unit started with `name` and `options`. -/
structure Agrees (name : String) (options : UnitOptions) (h : History) : Prop where
  sameName : h.unit.name = name
  sameOptions : h.unit.options = options
  minter : h.unit.minter =
    ⟨Symbol.sanitize options.symbolName, Symbol.unitTag name, h.expanded.length⟩
  callSites : h.unit.callSites = h.expanded.map (·.record)
  functions : h.unit.sink.functionCount = h.expanded.length
  attempted : h.expanded ≠ [] → 0 < h.unit.attempts
  handles : h.expanded.Pairwise fun x y => x.record.handle < y.record.handle
  reports : h.reports = h.expanded.flatMap Expanded.reports
  each : ∀ (i : Nat) (x : Expanded), h.expanded[i]? = some x → x.Agrees h.unit i

theorem start_agrees (name : String) (options : UnitOptions) (context : TypeContext) :
    (start (.ofName name options context)).Agrees name options where
  sameName := rfl
  sameOptions := rfl
  minter := rfl
  callSites := rfl
  functions := rfl
  attempted := fun h => absurd rfl h
  handles := .nil
  reports := rfl
  each := by
    intro i x hx
    cases hx

variable {name : String} {options : UnitOptions} {h : History} {op : UnitOp}

theorem expanded_step (h : History) (op : UnitOp) :
    (h.step op).expanded =
      h.expanded ++ (Expanded.ofAnswer? (op, (h.unit.perform op).result)).toList := by
  rw [expanded, step, List.filterMap_append]
  cases hx : Expanded.ofAnswer? (op, (h.unit.perform op).result) <;> simp [expanded, hx]

theorem Agrees.step_of_keeps (ha : h.Agrees name options)
    (hnone : Expanded.ofAnswer? (op, (h.unit.perform op).result) = none)
    (hkeeps : CompilationUnit.Keeps h.unit (h.unit.perform op).unit)
    (hquiet : ∀ e ∈ (h.unit.perform op).events, e.isReport = false) :
    (h.step op).Agrees name options := by
  have hexpanded : (h.step op).expanded = h.expanded := by
    rw [expanded_step, hnone, Option.toList_none, List.append_nil]
  have hreports := reports_step_of_quiet hquiet
  refine
    { sameName := hkeeps.name.trans ha.sameName
      sameOptions := hkeeps.options.trans ha.sameOptions
      minter := ?_
      callSites := ?_
      functions := ?_
      attempted := ?_
      handles := ?_
      reports := ?_
      each := ?_ }
  · rw [hexpanded]
    exact hkeeps.minter.trans ha.minter
  · rw [hexpanded]
    exact hkeeps.callSites.trans ha.callSites
  · rw [hexpanded]
    exact hkeeps.functions.trans ha.functions
  · rw [hexpanded]
    intro hne
    exact Nat.lt_of_lt_of_le (ha.attempted hne) hkeeps.attempts
  · rw [hexpanded]
    exact ha.handles
  · rw [hexpanded, hreports]
    exact ha.reports
  · rw [hexpanded]
    intro i x hx
    -- The context can only have changed while there was nothing to agree with.
    have hsome : 0 < h.unit.attempts := ha.attempted (by rintro hnil; simp [hnil] at hx)
    have hcontext := hkeeps.context.resolve_right (by omega)
    exact (ha.each i x hx).mono hkeeps.name hkeeps.options hcontext hkeeps.entries

section Expand

variable {text : String} {site : Site} {bridge : HostBridge} {r : CompilationUnit.Resolved}
  {events : List BridgeEvent}

theorem unit_step_of_expand (hr : h.unit.resolve text site bridge = (.ok r, events))
    (entry : EntryPoint) :
    (h.step (.expand entry text site bridge)).unit =
      { h.unit with
        attempts := h.unit.attempts + 1
        minter := h.unit.minter.advance
        sink := h.unit.sink.push (.function (h.unit.boundary entry bridge r).function)
        callSites := h.unit.callSites ++ [h.unit.callSite (h.unit.boundary entry bridge r)] } := by
  show (h.unit.expand entry text site bridge).unit = _
  rw [CompilationUnit.expand_of_ok hr]

theorem expanded_step_of_expand (hr : h.unit.resolve text site bridge = (.ok r, events))
    (entry : EntryPoint) :
    (h.step (.expand entry text site bridge)).expanded =
      h.expanded ++
        [⟨entry, text, site, bridge, h.unit.callSite (h.unit.boundary entry bridge r)⟩] := by
  rw [expanded_step, CompilationUnit.perform, CompilationUnit.expand_of_ok hr]
  rfl

theorem reports_step_of_expand (hr : h.unit.resolve text site bridge = (.ok r, events))
    (entry : EntryPoint) :
    (h.step (.expand entry text site bridge)).reports =
      h.reports ++ [.declare (h.unit.boundary entry bridge r).declaration,
        .substitute site (h.unit.boundary entry bridge r).call] := by
  have hquiet := CompilationUnit.resolve_isReport h.unit text site bridge
  rw [hr] at hquiet
  rw [reports_step, CompilationUnit.perform, CompilationUnit.expand_of_ok hr, List.filter_append,
    BridgeEvent.filter_isReport hquiet]
  rfl

theorem Agrees.step_of_expand (ha : h.Agrees name options)
    (hr : h.unit.resolve text site bridge = (.ok r, events)) (entry : EntryPoint) :
    (h.step (.expand entry text site bridge)).Agrees name options := by
  have hunit := unit_step_of_expand hr entry
  have hexpanded := expanded_step_of_expand hr entry
  have hreports := reports_step_of_expand hr entry
  have hminter := ha.minter
  rw [← ha.sameName, ← ha.sameOptions] at hminter
  have hnew := CompilationUnit.expand_agrees hr entry hminter
  rw [CompilationUnit.expand_of_ok hr] at hnew
  refine
    { sameName := ?_
      sameOptions := ?_
      minter := ?_
      callSites := ?_
      functions := ?_
      attempted := ?_
      handles := ?_
      reports := ?_
      each := ?_ }
  · rw [hunit]
    exact ha.sameName
  · rw [hunit]
    exact ha.sameOptions
  · rw [hunit, hexpanded, List.length_append]
    show h.unit.minter.advance = _
    rw [ha.minter]
    rfl
  · rw [hunit, hexpanded, List.map_append]
    show h.unit.callSites ++ _ = _
    rw [ha.callSites]
    rfl
  · rw [hunit, hexpanded, List.length_append]
    show (h.unit.sink.push _).functionCount = _
    rw [Sink.functionCount_push, ha.functions]
    rfl
  · intro _
    rw [hunit]
    exact Nat.succ_pos _
  · rw [hexpanded, List.pairwise_append]
    refine ⟨ha.handles, List.pairwise_singleton _ _, ?_⟩
    -- The new handle is the size of the sink, and the handles so far lead into the sink.
    intro y hy z hz
    rw [List.mem_singleton.mp hz]
    obtain ⟨i, hi⟩ := List.mem_iff_getElem?.mp hy
    exact (ha.each i y hi).handle_lt
  · rw [hexpanded, hreports, List.flatMap_append, ha.reports, List.flatMap_singleton]
    rfl
  · rw [hunit, hexpanded]
    intro i y hy
    rcases Nat.lt_trichotomy i h.expanded.length with hlt | rfl | hgt
    · rw [List.getElem?_append_left hlt] at hy
      exact (ha.each i y hy).mono rfl rfl rfl (List.prefix_append _ _)
    · rw [List.getElem?_concat_length] at hy
      rw [← Option.some.inj hy]
      exact hnew
    · rw [List.getElem?_eq_none (by simp; omega)] at hy
      cases hy

end Expand

theorem Agrees.step (ha : h.Agrees name options) (op : UnitOp) :
    (h.step op).Agrees name options := by
  rcases CompilationUnit.perform_cases h.unit op with
    ⟨hnone, hkeeps, hquiet⟩ | ⟨entry, text, site, bridge, r, events, rfl, hr⟩
  · exact ha.step_of_keeps hnone hkeeps hquiet
  · exact ha.step_of_expand hr entry

/-- All records agree after any operations on a new unit. -/
theorem agrees_run (name : String) (options : UnitOptions) (context : TypeContext)
    (ops : List UnitOp) :
    ((CompilationUnit.ofName name options context).run ops).Agrees name options := by
  induction ops using List.reverseRecOn with
  | nil => exact start_agrees name options context
  | append_singleton ops op ih =>
    rw [CompilationUnit.run_append_singleton]
    exact ih.step op

end History

/-- **The records of a unit agree.** After any operations on a new unit, there are as many calls as
symbols minted and as functions in the foreign file; the calls are the snippets expanded, in order;
their handles increase; the host file has been told of each one declaration and then one call; and
the records of every snippet say the same. -/
theorem CompilationUnit.run_agrees (name : String) (options : UnitOptions) (context : TypeContext)
    (ops : List UnitOp) :
    let h := (CompilationUnit.ofName name options context).run ops
    h.unit.name = name ∧ h.unit.options = options ∧
      h.unit.minter.minted = h.unit.callSites.length ∧
      h.unit.sink.functionCount = h.unit.callSites.length ∧
      h.unit.callSites = h.expanded.map (·.record) ∧
      h.unit.callSites.Pairwise (fun a b => a.handle < b.handle) ∧
      h.reports = h.expanded.flatMap Expanded.reports ∧
      ∀ (i : Nat) (x : Expanded), h.expanded[i]? = some x → x.Agrees h.unit i := by
  intro h
  have ha : h.Agrees name options := History.agrees_run name options context ops
  have hcount : h.unit.callSites.length = h.expanded.length := by
    rw [ha.callSites, List.length_map]
  refine ⟨ha.sameName, ha.sameOptions, ?_, ?_, ha.callSites, ?_, ha.reports, ha.each⟩
  · rw [ha.minter, hcount]
  · rw [ha.functions, hcount]
  · rw [ha.callSites, List.pairwise_map]
    exact ha.handles

end Graft

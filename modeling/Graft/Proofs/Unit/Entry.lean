import Mathlib.Data.List.Forall2
import Graft.Call.Haskell
import Graft.Proofs.Unit.Step

/-!
# Entry points go nowhere else

How a snippet is called is recorded with its function, and written into its declaration as a word
and as the mark of an action. Nothing else depends on it: a run with other entry points succeeds and
fails at the same places, and all that it leaves behind is the same but for those records.
-/

namespace Graft

/-! ## The same but for how it is called -/

def ForeignFunction.SameButEntry (f f' : ForeignFunction) : Prop :=
  f' = { f with entry := f'.entry }

def HostDeclaration.SameButEntry (d d' : HostDeclaration) : Prop :=
  d' = { d with safety := d'.safety, purity := d'.purity }

structure CallSite.SameButEntry (c c' : CallSite) : Prop where
  rest : c' = { c with entry := c'.entry, declaration := c'.declaration }
  declaration : c.declaration.SameButEntry c'.declaration

inductive SinkEntry.SameButEntry : SinkEntry → SinkEntry → Prop where
  | function {f f' : ForeignFunction} :
      f.SameButEntry f' → SameButEntry (.function f) (.function f')
  | items (text : String) (location : Location) :
      SameButEntry (.items text location) (.items text location)

inductive BridgeEvent.SameButEntry : BridgeEvent → BridgeEvent → Prop where
  | lookup (name : String) : SameButEntry (.lookup name) (.lookup name)
  | declare {d d' : HostDeclaration} : d.SameButEntry d' → SameButEntry (.declare d) (.declare d')
  | substitute (site : Site) (call : HostCall) :
      SameButEntry (.substitute site call) (.substitute site call)

/-- The same operation; a snippet is expanded with the same text, at the same site, for the same
answers of the host file, but may be called another way. -/
inductive UnitOp.SameButEntry : UnitOp → UnitOp → Prop where
  | setContext (context : TypeContext) : SameButEntry (.setContext context) (.setContext context)
  | expand (entry entry' : EntryPoint) (text : String) (site : Site) (bridge : HostBridge) :
      SameButEntry (.expand entry text site bridge) (.expand entry' text site bridge)
  | emitItems (text : String) (location : Location) :
      SameButEntry (.emitItems text location) (.emitItems text location)

/-- The same answer: equal errors, or replies that are the same but for how the snippet is
called. -/
inductive UnitReply.SameAnswer :
    Except Diagnostic UnitReply → Except Diagnostic UnitReply → Prop where
  | error (d : Diagnostic) : SameAnswer (.error d) (.error d)
  | contextSet : SameAnswer (.ok .contextSet) (.ok .contextSet)
  | expanded {c c' : CallSite} :
      c.SameButEntry c' → SameAnswer (.ok (.expanded c)) (.ok (.expanded c'))
  | emitted (handle : Nat) : SameAnswer (.ok (.emitted handle)) (.ok (.emitted handle))

theorem SinkEntry.SameButEntry.refl (e : SinkEntry) : e.SameButEntry e := by
  cases e with
  | function f => exact .function rfl
  | items text location => exact .items text location

theorem BridgeEvent.SameButEntry.refl (e : BridgeEvent) : e.SameButEntry e := by
  cases e with
  | lookup name => exact .lookup name
  | declare d => exact .declare rfl
  | substitute site call => exact .substitute site call

/-! ## One operation -/

namespace CompilationUnit

/-- `v` is `u` but for how its functions are called. -/
structure SameButEntries (u v : CompilationUnit) : Prop where
  rest : v = { u with sink := { u.sink with entries := v.sink.entries }, callSites := v.callSites }
  entries : List.Forall₂ SinkEntry.SameButEntry u.sink.entries v.sink.entries
  callSites : List.Forall₂ CallSite.SameButEntry u.callSites v.callSites

theorem SameButEntries.refl (u : CompilationUnit) : SameButEntries u u :=
  ⟨rfl, List.forall₂_same.mpr fun e _ => .refl e, List.forall₂_same.mpr fun _ _ => ⟨rfl, rfl⟩⟩

/-- What two units do with an operation is the same but for how snippets are called. -/
structure Outcome.SameButEntry (o o' : Outcome UnitReply) : Prop where
  result : UnitReply.SameAnswer o.result o'.result
  unit : SameButEntries o.unit o'.unit
  events : List.Forall₂ BridgeEvent.SameButEntry o.events o'.events

variable {u v : CompilationUnit} {op op' : UnitOp}

theorem SameButEntries.nextHandle_eq (h : SameButEntries u v) :
    v.sink.nextHandle = u.sink.nextHandle := h.entries.length_eq.symm

theorem SameButEntries.expand (h : SameButEntries u v) (entry entry' : EntryPoint) (text : String)
    (site : Site) (bridge : HostBridge) :
    Outcome.SameButEntry (u.perform (.expand entry text site bridge))
      (v.perform (.expand entry' text site bridge)) := by
  have hhandle := h.nextHandle_eq
  obtain ⟨hrest, hentries, hcalls⟩ := h
  -- How a snippet is called does not decide how it is read.
  have hsame : v.resolve text site bridge = u.resolve text site bridge := by
    rw [hrest]
    rfl
  rcases hr : u.resolve text site bridge with ⟨result, events⟩
  have hevents : List.Forall₂ BridgeEvent.SameButEntry events events :=
    List.forall₂_same.mpr fun e _ => .refl e
  simp only [perform]
  cases result with
  | error d =>
    rw [expand_of_error hr, expand_of_error (hsame.trans hr)]
    have hname : v.name = u.name := by rw [hrest]
    refine ⟨?_, ⟨?_, hentries, hcalls⟩, hevents⟩
    · rw [hname]
      exact .error _
    · rw [hrest]
  | ok r =>
    rw [expand_of_ok hr, expand_of_ok (hsame.trans hr)]
    have hboundary : v.boundary entry' bridge r =
        { function := { (u.boundary entry bridge r).function with entry := entry' }
          declaration :=
            { (u.boundary entry bridge r).declaration with
              safety := entry'.safety
              purity := entry'.purity }
          call := (u.boundary entry bridge r).call } := by
      rw [hrest]
      rfl
    have hcall : CallSite.SameButEntry (u.callSite (u.boundary entry bridge r))
        (v.callSite (v.boundary entry' bridge r)) := by
      rw [hboundary]
      refine ⟨?_, rfl⟩
      simp only [callSite, hhandle]
    refine ⟨.expanded hcall, ⟨?_, ?_, ?_⟩, ?_⟩
    · rw [hrest]
      rfl
    · refine List.rel_append hentries (.cons ?_ .nil)
      rw [hboundary]
      exact .function rfl
    · exact List.rel_append hcalls (.cons hcall .nil)
    · rw [hboundary]
      exact List.rel_append hevents (.cons (.declare rfl) (.cons (.substitute _ _) .nil))

theorem SameButEntries.emitItems (h : SameButEntries u v) (text : String) (location : Location) :
    Outcome.SameButEntry (u.perform (.emitItems text location))
      (v.perform (.emitItems text location)) := by
  have hhandle := h.nextHandle_eq
  have hname : v.name = u.name := by rw [h.rest]
  cases hcheck : Items.check text with
  | error e =>
    simp only [CompilationUnit.perform, CompilationUnit.emitItems, hcheck, hname]
    exact ⟨.error _, h, .nil⟩
  | ok _ =>
    obtain ⟨hrest, hentries, hcalls⟩ := h
    simp only [CompilationUnit.perform, CompilationUnit.emitItems, hcheck]
    refine ⟨?_, ⟨?_, ?_, hcalls⟩, .nil⟩
    · rw [hhandle]
      exact .emitted _
    · rw [hrest]
      rfl
    · exact List.rel_append hentries (.cons (.items text location) .nil)

theorem SameButEntries.setContext (h : SameButEntries u v) (context : TypeContext) :
    Outcome.SameButEntry (u.perform (.setContext context)) (v.perform (.setContext context)) := by
  obtain ⟨hrest, hentries, hcalls⟩ := h
  have hname : v.name = u.name := by rw [hrest]
  have hattempts : v.attempts = u.attempts := by rw [hrest]
  simp only [perform, CompilationUnit.setContext, hattempts, hname]
  by_cases hlate : 0 < u.attempts
  · simp only [hlate, if_true]
    exact ⟨.error _, ⟨hrest, hentries, hcalls⟩, .nil⟩
  · simp only [hlate, if_false]
    refine ⟨.contextSet, ⟨?_, hentries, hcalls⟩, .nil⟩
    rw [hrest]

theorem SameButEntries.perform (h : SameButEntries u v) (hop : op.SameButEntry op') :
    Outcome.SameButEntry (u.perform op) (v.perform op') := by
  cases hop with
  | setContext context => exact h.setContext context
  | expand entry entry' text site bridge => exact h.expand entry entry' text site bridge
  | emitItems text location => exact h.emitItems text location

end CompilationUnit

/-! ## Runs -/

/-- What has been done with a unit is the same but for how its snippets are called. -/
structure History.SameButEntries (h k : History) : Prop where
  unit : CompilationUnit.SameButEntries h.unit k.unit
  answers : List.Forall₂ (fun a b => UnitReply.SameAnswer a.2 b.2) h.answers k.answers
  events : List.Forall₂ BridgeEvent.SameButEntry h.events k.events

theorem History.SameButEntries.step {h k : History} (hk : h.SameButEntries k) {op op' : UnitOp}
    (hop : op.SameButEntry op') : (h.step op).SameButEntries (k.step op') := by
  obtain ⟨hresult, hunit, hevents⟩ := hk.unit.perform hop
  exact ⟨hunit, List.rel_append hk.answers (.cons hresult .nil), List.rel_append hk.events hevents⟩

end Graft

import Mathlib.Data.List.Induction
import Graft.Proofs.Unit.Splice

/-!
# Every quote of a file is judged on its own

All quotes of a file go through one unit, which later quotes find changed by earlier ones. What is
wrong with a quote depends on the name and the context of the unit alone, and these stay. So a quote
fails in its file exactly as it fails in a unit in which nothing has happened yet.
-/

namespace Graft

/-- The unit of the same name, options and context before its first operation. -/
def CompilationUnit.fresh (u : CompilationUnit) : CompilationUnit :=
  .ofName u.name u.options u.context

/-- What comes of expanding a quote in the unit `u`: nothing, or what is wrong with it. -/
def Quote.verdict (l : HostLanguage) (scope : HostScope) (u : CompilationUnit) (q : Quote) :
    Except Diagnostic Unit :=
  match QuoteKind.ofQuoter? q.quoter with
  | some (.expression entry) =>
    (u.expand entry q.body ⟨q.span, q.bodyLocation⟩ (.ofScope l scope)).result.map fun _ => ()
  | some .items => (u.emitItems q.body q.bodyLocation).map fun _ => ()
  | none => .ok ()

/-- What is wrong with a quote in the unit `u`, if anything is. -/
def Quote.failure? (l : HostLanguage) (scope : HostScope) (u : CompilationUnit) (q : Quote) :
    Option Diagnostic :=
  match q.verdict l scope u with
  | .ok _ => none
  | .error d => some d

theorem Collector.add_take (bound : Nat) (ds : List Diagnostic) (d : Diagnostic) :
    (⟨bound, ds.take bound⟩ : Collector).add d = ⟨bound, (ds ++ [d]).take bound⟩ := by
  unfold add
  by_cases hroom : ds.length < bound
  · have hall : ds.take bound = ds := List.take_of_length_le (Nat.le_of_lt hroom)
    have hmore : (ds ++ [d]).take bound = ds ++ [d] := by
      apply List.take_of_length_le
      rw [List.length_append, List.length_singleton]
      omega
    rw [hall, hmore]
    exact if_pos hroom
  · have hfull : (ds.take bound).length = bound := by
      rw [List.length_take]
      omega
    have hsame : (ds ++ [d]).take bound = ds.take bound :=
      List.take_append_of_le_length (by omega)
    rw [hsame]
    rw [if_neg]
    show ¬(ds.take bound).length < bound
    omega

variable {l : HostLanguage} {scope : HostScope} {u v : CompilationUnit} {q : Quote}

/-! ## What a verdict depends on -/

/-- What is wrong with a snippet does not depend on what has been minted and emitted before it. -/
theorem CompilationUnit.expand_verdict_congr (hname : u.name = v.name)
    (hcontext : u.context = v.context) (entry : EntryPoint) (text : String) (site : Site)
    (bridge : HostBridge) :
    (u.expand entry text site bridge).result.map (fun _ => ()) =
      (v.expand entry text site bridge).result.map fun _ => () := by
  have hresolve : u.resolve text site bridge = v.resolve text site bridge := by
    unfold resolve
    rw [hcontext]
  rcases hr : v.resolve text site bridge with ⟨result, events⟩
  cases result with
  | error d => rw [expand_of_error hr, expand_of_error (hresolve.trans hr), hname]
  | ok r =>
    rw [expand_of_ok hr, expand_of_ok (hresolve.trans hr)]
    rfl

theorem CompilationUnit.emitItems_verdict_congr (hname : u.name = v.name) (text : String)
    (location : Location) :
    (u.emitItems text location).map (fun _ => ()) =
      (v.emitItems text location).map fun _ => () := by
  unfold emitItems
  cases Items.check text with
  | error e => simp only [hname, Except.map]
  | ok _ => rfl

namespace Quote

theorem verdict_congr (hname : u.name = v.name) (hcontext : u.context = v.context) (q : Quote) :
    q.verdict l scope u = q.verdict l scope v := by
  unfold verdict
  cases QuoteKind.ofQuoter? q.quoter with
  | none => rfl
  | some kind =>
    cases kind with
    | expression entry => exact CompilationUnit.expand_verdict_congr hname hcontext ..
    | items => exact CompilationUnit.emitItems_verdict_congr hname ..

theorem failure?_eq_none_iff : q.failure? l scope u = none ↔ q.verdict l scope u = .ok () := by
  unfold failure?
  split
  next hok => simp [hok]
  next d herror => simp [herror]

theorem failure?_eq_some_iff {d : Diagnostic} :
    q.failure? l scope u = some d ↔ q.verdict l scope u = .error d := by
  unfold failure?
  split
  next hok => simp [hok]
  next e herror => simp [herror]

/-- What is wrong with a quote is told of the file of the unit. -/
theorem file_of_failure? {d : Diagnostic} (h : q.failure? l scope u = some d) :
    d.file = u.name := by
  have herror := failure?_eq_some_iff.mp h
  unfold verdict at herror
  split at herror
  next entry =>
    rcases hr : u.resolve q.body ⟨q.span, q.bodyLocation⟩ (.ofScope l scope) with ⟨result, events⟩
    cases result with
    | error e =>
      rw [CompilationUnit.expand_of_error hr] at herror
      rw [← Except.error.inj herror]
      rfl
    | ok r =>
      rw [CompilationUnit.expand_of_ok hr] at herror
      cases herror
  next =>
    unfold CompilationUnit.emitItems at herror
    split at herror
    · cases herror
    · rw [← Except.error.inj herror]
      rfl
  next => cases herror

end Quote

/-! ## One quote of a file -/

namespace Expansion

theorem step_verdict (e : Expansion) (q : Quote) :
    (step l scope e q).failures =
      match q.failure? l scope e.unit with
      | none => e.failures
      | some d => e.failures.add d := by
  unfold step Quote.failure? Quote.verdict
  cases QuoteKind.ofQuoter? q.quoter with
  | none => rfl
  | some kind =>
    cases kind with
    | expression entry =>
      simp only
      cases (e.unit.expand entry q.body ⟨q.span, q.bodyLocation⟩ (.ofScope l scope)).result <;> rfl
    | items =>
      simp only
      cases e.unit.emitItems q.body q.bodyLocation <;> rfl

/-- A quote changes neither the name nor the options nor the context of its unit. -/
theorem step_keeps (e : Expansion) (q : Quote) :
    (step l scope e q).unit.name = e.unit.name ∧
      (step l scope e q).unit.options = e.unit.options ∧
      (step l scope e q).unit.context = e.unit.context := by
  unfold step
  cases QuoteKind.ofQuoter? q.quoter with
  | none => exact ⟨rfl, rfl, rfl⟩
  | some kind =>
    cases kind with
    | expression entry =>
      simp only
      rcases hr : e.unit.resolve q.body ⟨q.span, q.bodyLocation⟩ (.ofScope l scope) with
        ⟨result, events⟩
      cases result with
      | error d =>
        rw [CompilationUnit.expand_of_error hr]
        exact ⟨rfl, rfl, rfl⟩
      | ok r =>
        rw [CompilationUnit.expand_of_ok hr]
        exact ⟨rfl, rfl, rfl⟩
    | items =>
      simp only
      cases hemit : e.unit.emitItems q.body q.bodyLocation with
      | error d => exact ⟨rfl, rfl, rfl⟩
      | ok p =>
        obtain ⟨handle, v⟩ := p
        rw [CompilationUnit.emitItems_eq_ok hemit]
        exact ⟨rfl, rfl, rfl⟩

/-! ## All quotes of a file -/

theorem run_append_singleton (quotes : List Quote) (q : Quote) :
    run l scope u (quotes ++ [q]) = step l scope (run l scope u quotes) q := by
  rw [run, List.foldl_append]
  rfl

theorem run_keeps (quotes : List Quote) :
    (run l scope u quotes).unit.name = u.name ∧
      (run l scope u quotes).unit.options = u.options ∧
      (run l scope u quotes).unit.context = u.context := by
  induction quotes using List.reverseRecOn with
  | nil => exact ⟨rfl, rfl, rfl⟩
  | append_singleton quotes q ih =>
    have hkeeps : (step l scope (run l scope u quotes) q).unit.name = _ ∧ _ ∧ _ :=
      step_keeps (run l scope u quotes) q
    obtain ⟨hname, hoptions, hcontext⟩ := hkeeps
    rw [run_append_singleton]
    exact ⟨hname.trans ih.1, hoptions.trans ih.2.1, hcontext.trans ih.2.2⟩

/-- Behind any quotes of its file, a quote is judged as in a fresh unit. -/
theorem verdict_run (quotes : List Quote) (q : Quote) :
    q.verdict l scope (run l scope u quotes).unit = q.verdict l scope u.fresh := by
  have hkeeps : (run l scope u quotes).unit.name = u.fresh.name ∧
      (run l scope u quotes).unit.options = u.fresh.options ∧
      (run l scope u quotes).unit.context = u.fresh.context := run_keeps quotes
  exact Quote.verdict_congr hkeeps.1 hkeeps.2.2 q

/-- What is wrong with the quotes of a file is gathered up to the bound, each quote judged in a
fresh unit. -/
theorem run_failures (quotes : List Quote) :
    (run l scope u quotes).failures =
      ⟨Collector.standardBound,
        (quotes.filterMap (·.failure? l scope u.fresh)).take Collector.standardBound⟩ := by
  induction quotes using List.reverseRecOn with
  | nil => rfl
  | append_singleton quotes q ih =>
    have hsame : q.failure? l scope (run l scope u quotes).unit = q.failure? l scope u.fresh := by
      unfold Quote.failure?
      rw [verdict_run]
    rw [run_append_singleton, step_verdict, hsame, ih, List.filterMap_append]
    cases hq : q.failure? l scope u.fresh with
    | none =>
      rw [List.filterMap_cons_none hq, List.filterMap_nil, List.append_nil]
    | some d =>
      rw [List.filterMap_cons_some hq, List.filterMap_nil]
      exact Collector.add_take Collector.standardBound _ d

theorem finish_eq_error_iff {e : Expansion} {source : String} {ds : List Diagnostic} :
    e.finish l source = .error ds ↔ ds ≠ [] ∧ ds = e.failures.collected := by
  unfold finish
  split
  next hnone =>
    rw [List.isEmpty_iff] at hnone
    refine iff_of_false ?_ fun h => h.1 (h.2.trans hnone)
    split <;> exact nofun
  next hsome =>
    constructor
    · intro h
      obtain rfl := Except.error.inj h
      exact ⟨by simpa using hsome, rfl⟩
    · rintro ⟨-, rfl⟩
      rfl

end Expansion

namespace CompilationUnit

/-- A file fails because it cannot be scanned, or with what is wrong with its quotes. -/
theorem expandSource_eq_error_iff {source : String} {ds : List Diagnostic} :
    (u.expandSource source l scope).1 = .error ds ↔
      (∃ d, Quote.scan source l.comments QuoteKind.isQuoter = .error d ∧ ds = [d.inFile u.name]) ∨
      ∃ quotes, Quote.scan source l.comments QuoteKind.isQuoter = .ok quotes ∧ ds ≠ [] ∧
        ds = (quotes.filterMap (·.failure? l scope u.fresh)).take Collector.standardBound := by
  unfold expandSource
  cases Quote.scan source l.comments QuoteKind.isQuoter with
  | error d => simp [eq_comm]
  | ok quotes =>
    show (Expansion.run l scope u quotes).finish l source = .error ds ↔ _
    rw [Expansion.finish_eq_error_iff, Expansion.run_failures]
    simp

/-- **Quotes are judged independently.** Each quote of a file succeeds or fails, with the same
error, as it does alone in a fresh unit of the same name, options and context. The file is expanded
exactly if all its quotes succeed; otherwise the result is what is wrong with them, in the order of
the file and up to a hundred, each told of the unit. A file that cannot be scanned gives that one
error and leaves the unit as it was. -/
theorem expandSource_judges_each (l : HostLanguage) (scope : HostScope) (u : CompilationUnit)
    (source : String) :
    (∀ d, Quote.scan source l.comments QuoteKind.isQuoter = .error d →
      u.expandSource source l scope = (.error [d.inFile u.name], u)) ∧
    ∀ quotes, Quote.scan source l.comments QuoteKind.isQuoter = .ok quotes →
      (quotes.map (·.span)).Pairwise (fun s s' => s.last ≤ s'.first) ∧
      (∀ (i : Nat) (q : Quote), quotes[i]? = some q →
        q.verdict l scope (Expansion.run l scope u (quotes.take i)).unit =
          q.verdict l scope u.fresh) ∧
      (u.expandSource source l scope).2 = (Expansion.run l scope u quotes).unit ∧
      ((∃ out, (u.expandSource source l scope).1 = .ok out) ↔
        ∀ q ∈ quotes, q.verdict l scope u.fresh = .ok ()) ∧
      ∀ ds, (u.expandSource source l scope).1 = .error ds →
        ds = (quotes.filterMap (·.failure? l scope u.fresh)).take 100 ∧ ds ≠ [] ∧
          ∀ d ∈ ds, d.file = u.name := by
  constructor
  · intro d hscan
    rw [expandSource, hscan]
  intro quotes hscan
  have hexpand : u.expandSource source l scope =
      ((Expansion.run l scope u quotes).finish l source, (Expansion.run l scope u quotes).unit) := by
    rw [expandSource, hscan]
  have hfailures : (Expansion.run l scope u quotes).failures =
      ⟨Collector.standardBound,
        (quotes.filterMap (·.failure? l scope u.fresh)).take Collector.standardBound⟩ :=
    Expansion.run_failures quotes
  obtain ⟨⟨gaps, hcut⟩, hknown⟩ := Quote.scan_cut hscan
  -- The bound is not zero, so that nothing is collected only where nothing failed.
  have hnone : (Expansion.run l scope u quotes).failures.collected = [] ↔
      ∀ q ∈ quotes, q.verdict l scope u.fresh = .ok () := by
    rw [hfailures]
    show List.take 100 _ = [] ↔ _
    rw [List.take_eq_nil_iff, or_iff_right (by decide), List.filterMap_eq_nil_iff]
    exact forall₂_congr fun q _ => Quote.failure?_eq_none_iff
  refine ⟨hcut.apart, fun i q _ => Expansion.verdict_run _ q, by rw [hexpand], ?_, ?_⟩
  · rw [hexpand, ← hnone]
    constructor
    · rintro ⟨out, hout⟩
      unfold Expansion.finish at hout
      split at hout
      next hempty => exact List.isEmpty_iff.mp hempty
      next => cases hout
    · -- The quotes cut the source, so that all of the edits can be applied.
      intro hempty
      obtain ⟨records, texts, -, hout⟩ := Expansion.finish_of_cut hcut hknown hempty
      exact ⟨_, hout⟩
  · intro ds hds
    rw [hexpand] at hds
    unfold Expansion.finish at hds
    split at hds
    next => split at hds <;> cases hds
    next hsome =>
      have hcollected : ds = (Expansion.run l scope u quotes).failures.collected :=
        (Except.error.inj hds).symm
      have hgathered : ds = (quotes.filterMap (·.failure? l scope u.fresh)).take 100 := by
        rw [hcollected, hfailures]
        rfl
      refine ⟨hgathered, ?_, ?_⟩
      · intro hnil
        rw [← hcollected, hnil] at hsome
        exact hsome rfl
      · intro d hd
        rw [hgathered] at hd
        obtain ⟨q, -, hq⟩ := List.mem_filterMap.mp (List.mem_of_mem_take hd)
        have hfile : d.file = u.fresh.name := Quote.file_of_failure? hq
        exact hfile

/-- A snippet without a body fails beside one that is expanded, and a quote that never ends fails its
whole file. -/
theorem expandSource_judges_each_mixed :
    let u := ofName "Main.hs" .standard .basic
    let source := "[rust| i32 |] [rust| i32 \x7b 1 \x7d |]"
    (∃ quotes ds, Quote.scan source haskell.comments QuoteKind.isQuoter = .ok quotes ∧
      (u.expandSource source haskell .open).1 = .error ds ∧
      ds = (quotes.filterMap (·.failure? haskell .open u.fresh)).take 100 ∧ ds.length = 1) ∧
    ∃ d, Quote.scan "[rust| i32" haskell.comments QuoteKind.isQuoter = .error d ∧
      u.expandSource "[rust| i32" haskell .open = (.error [d.inFile u.name], u) := by
  intro u source
  obtain ⟨-, hscanned⟩ := expandSource_judges_each haskell .open u source
  obtain ⟨hunscanned, -⟩ := expandSource_judges_each haskell .open u "[rust| i32"
  constructor
  · have hok : (Quote.scan source haskell.comments QuoteKind.isQuoter).isOk := by decide +kernel
    have hone : (match (u.expandSource source haskell .open).1 with
        | .ok _ => 0
        | .error ds => ds.length) = 1 := by decide +kernel
    cases hscan : Quote.scan source haskell.comments QuoteKind.isQuoter with
    | error d =>
      rw [hscan] at hok
      cases hok
    | ok quotes =>
      obtain ⟨-, -, -, -, hfailed⟩ := hscanned quotes hscan
      cases hresult : (u.expandSource source haskell .open).1 with
      | ok out =>
        rw [hresult] at hone
        cases hone
      | error ds =>
        rw [hresult] at hone
        exact ⟨quotes, ds, rfl, rfl, (hfailed ds hresult).1, hone⟩
  · have hopen : (Quote.scan "[rust| i32" haskell.comments QuoteKind.isQuoter).isOk = false := by
      decide +kernel
    cases hscan : Quote.scan "[rust| i32" haskell.comments QuoteKind.isQuoter with
    | ok quotes =>
      rw [hscan] at hopen
      cases hopen
    | error d => exact ⟨d, rfl, hunscanned d hscan⟩

end CompilationUnit

end Graft

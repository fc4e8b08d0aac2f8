import Graft.Call.Haskell
import Graft.Proofs.Quote.Scan
import Graft.Proofs.Unit.Edits
import Graft.Proofs.Unit.Step
import Graft.Unit.Expand

/-!
# What an expanded file looks like

Quotes are found by their bytes, expanded from the front and replaced from the back. What comes out
is the file with a text in the place of every quote, all between the quotes as it was, and the
declarations at its end.
-/

namespace Graft

/-! ## Expanding the quotes -/

/-- Quotes expanded one after the other, from the unit `u` to the unit `v`: each expression quote
gets a record and its call, and each items quote leaves nothing in the file. -/
inductive Spliced (l : HostLanguage) (scope : HostScope) : (u : CompilationUnit) →
    (quotes : List Quote) → (records : List CallSite) → (texts : List String) →
    (v : CompilationUnit) → Prop where
  | nil (u : CompilationUnit) : Spliced l scope u [] [] [] u
  | expression {u v : CompilationUnit} {q : Quote} {quotes : List Quote} {entry : EntryPoint}
      {record : CallSite} {records : List CallSite} {texts : List String} :
      QuoteKind.ofQuoter? q.quoter = some (.expression entry) →
      (u.expand entry q.body ⟨q.span, q.bodyLocation⟩ (.ofScope l scope)).result = .ok record →
      Spliced l scope (u.expand entry q.body ⟨q.span, q.bodyLocation⟩ (.ofScope l scope)).unit
        quotes records texts v →
      Spliced l scope u (q :: quotes) (record :: records) (l.renderCall record.call :: texts) v
  | items {u v w : CompilationUnit} {q : Quote} {quotes : List Quote} {handle : Nat}
      {records : List CallSite} {texts : List String} :
      QuoteKind.ofQuoter? q.quoter = some .items →
      u.emitItems q.body q.bodyLocation = .ok (handle, w) →
      Spliced l scope w quotes records texts v →
      Spliced l scope u (q :: quotes) records ("" :: texts) v

/-- Whether a quote stands for a foreign expression. -/
def Quote.isExpression (q : Quote) : Bool :=
  match QuoteKind.ofQuoter? q.quoter with
  | some (.expression _) => true
  | _ => false

namespace Spliced

variable {l : HostLanguage} {scope : HostScope} {u v : CompilationUnit} {quotes : List Quote}
  {records : List CallSite} {texts : List String}

theorem name_eq (h : Spliced l scope u quotes records texts v) : v.name = u.name := by
  induction h with
  | nil u => rfl
  | expression hkind hexpand _ ih =>
    obtain ⟨r, events, hr, -⟩ := CompilationUnit.expand_eq_ok hexpand
    rw [ih, CompilationUnit.expand_of_ok hr]
  | items hkind hemit _ ih => rw [ih, CompilationUnit.emitItems_eq_ok hemit]

theorem callSites_eq (h : Spliced l scope u quotes records texts v) :
    v.callSites = u.callSites ++ records := by
  induction h with
  | nil u => exact (List.append_nil _).symm
  | expression hkind hexpand _ ih =>
    obtain ⟨r, events, hr, hrecord⟩ := CompilationUnit.expand_eq_ok hexpand
    rw [ih, CompilationUnit.expand_of_ok hr, hrecord]
    exact List.append_assoc _ _ _
  | items hkind hemit _ ih => rw [ih, CompilationUnit.emitItems_eq_ok hemit]

theorem length_eq (h : Spliced l scope u quotes records texts v) :
    texts.length = quotes.length := by
  induction h with
  | nil u => rfl
  | expression _ _ _ ih => rw [List.length_cons, List.length_cons, ih]
  | items _ _ _ ih => rw [List.length_cons, List.length_cons, ih]

/-- The records are those of the expression quotes, in the order of the file. -/
theorem records_of (h : Spliced l scope u quotes records texts v) :
    List.Forall₂ (fun q record => QuoteKind.ofQuoter? q.quoter = some (.expression record.entry) ∧
      record.location = q.bodyLocation) (quotes.filter (·.isExpression)) records := by
  induction h with
  | nil u => exact .nil
  | @expression u v q quotes entry record records texts hkind hexpand _ ih =>
    obtain ⟨r, events, hr, hrecord⟩ := CompilationUnit.expand_eq_ok hexpand
    have hq : q.isExpression := by rw [Quote.isExpression, hkind]
    rw [List.filter_cons_of_pos hq]
    refine .cons ⟨?_, ?_⟩ ih
    · rw [hkind, hrecord]
      rfl
    · rw [hrecord]
      exact Snippet.read_location (CompilationUnit.resolve_eq_ok hr).1
  | @items u v w q quotes handle records texts hkind hemit _ ih =>
    have hq : ¬q.isExpression := by
      rw [Quote.isExpression, hkind]
      exact Bool.false_ne_true
    rw [List.filter_cons_of_neg hq]
    exact ih

end Spliced

theorem Edits.record_of_not_isReport (l : HostLanguage) (edits : Edits) {event : BridgeEvent}
    (h : event.isReport = false) : edits.record l event = edits := by
  cases event with
  | lookup name => rfl
  | declare declaration => cases h
  | substitute site call => cases h

theorem Edits.foldl_record_of_not_isReport (l : HostLanguage) (edits : Edits)
    {events : List BridgeEvent} (h : ∀ event ∈ events, event.isReport = false) :
    events.foldl (Edits.record l) edits = edits := by
  induction events with
  | nil => rfl
  | cons event events ih =>
    rw [List.foldl_cons, record_of_not_isReport l edits (h event List.mem_cons_self)]
    exact ih fun e he => h e (List.mem_cons_of_mem _ he)

theorem Collector.add_ne_nil (c : Collector) (d : Diagnostic) (h : c.collected ≠ []) :
    (c.add d).collected ≠ [] := by
  unfold add
  split
  · exact List.append_ne_nil_of_right_ne_nil _ (List.cons_ne_nil _ _)
  · exact h

namespace Expansion

variable {l : HostLanguage} {scope : HostScope}

/-- What is wrong with a quote is never forgotten. -/
theorem step_failures (e : Expansion) (q : Quote) (h : e.failures.collected ≠ []) :
    (step l scope e q).failures.collected ≠ [] := by
  unfold step
  simp only
  split
  · exact h
  · split
    · exact h
    · exact Collector.add_ne_nil _ _ h
  · split
    · exact h
    · exact Collector.add_ne_nil _ _ h

theorem foldl_failures (quotes : List Quote) (e : Expansion) (h : e.failures.collected ≠ []) :
    (quotes.foldl (step l scope) e).failures.collected ≠ [] := by
  induction quotes generalizing e with
  | nil => exact h
  | cons q quotes ih => exact ih _ (step_failures e q h)

/-- An expression quote that is expanded leaves its call in its place, and a declaration. -/
theorem step_expression {e : Expansion} {q : Quote} {entry : EntryPoint} {record : CallSite}
    (hkind : QuoteKind.ofQuoter? q.quoter = some (.expression entry))
    (h : (e.unit.expand entry q.body ⟨q.span, q.bodyLocation⟩ (.ofScope l scope)).result =
      .ok record) :
    step l scope e q =
      { unit := (e.unit.expand entry q.body ⟨q.span, q.bodyLocation⟩ (.ofScope l scope)).unit
        edits :=
          ⟨e.edits.replacements ++ [⟨q.span, l.renderCall record.call⟩],
            e.edits.declarations ++ [l.renderDeclaration record.declaration]⟩
        failures := e.failures } := by
  obtain ⟨r, events, hr, hrecord⟩ := CompilationUnit.expand_eq_ok h
  have hquiet := CompilationUnit.resolve_isReport e.unit q.body ⟨q.span, q.bodyLocation⟩
    (.ofScope l scope)
  rw [hr] at hquiet
  unfold step
  simp only [hkind, CompilationUnit.expand_of_ok hr, List.foldl_append]
  rw [Edits.foldl_record_of_not_isReport l e.edits hquiet, hrecord]
  rfl

theorem step_items {e : Expansion} {q : Quote} {handle : Nat} {v : CompilationUnit}
    (hkind : QuoteKind.ofQuoter? q.quoter = some .items)
    (h : e.unit.emitItems q.body q.bodyLocation = .ok (handle, v)) :
    step l scope e q =
      { unit := v
        edits := ⟨e.edits.replacements ++ [⟨q.span, ""⟩], e.edits.declarations⟩
        failures := e.failures } := by
  unfold step
  simp only [hkind, h]
  rfl

/-- A quote of a known quoter is expanded, or what is wrong with it is gathered. -/
theorem step_cases (e : Expansion) {q : Quote} (hknown : QuoteKind.isQuoter q.quoter)
    (hempty : e.failures = .empty Collector.standardBound) :
    (step l scope e q).failures.collected ≠ [] ∨
    (∃ entry record, QuoteKind.ofQuoter? q.quoter = some (.expression entry) ∧
      (e.unit.expand entry q.body ⟨q.span, q.bodyLocation⟩ (.ofScope l scope)).result =
        .ok record) ∨
    (∃ handle v, QuoteKind.ofQuoter? q.quoter = some .items ∧
      e.unit.emitItems q.body q.bodyLocation = .ok (handle, v)) := by
  obtain ⟨kind, hkind⟩ := Option.isSome_iff_exists.mp hknown
  have hadd : ∀ d, ((Collector.empty Collector.standardBound).add d).collected ≠ [] :=
    fun d => List.cons_ne_nil d []
  cases kind with
  | expression entry =>
    cases hexpand : (e.unit.expand entry q.body ⟨q.span, q.bodyLocation⟩
        (.ofScope l scope)).result with
    | ok record => exact .inr (.inl ⟨entry, record, hkind, hexpand⟩)
    | error d =>
      left
      unfold step
      simp only [hkind, hexpand, hempty]
      exact hadd d
  | items =>
    cases hemit : e.unit.emitItems q.body q.bodyLocation with
    | ok p => exact .inr (.inr ⟨p.1, p.2, hkind, rfl⟩)
    | error d =>
      left
      unfold step
      simp only [hkind, hemit, hempty]
      exact hadd d

/-- Without any failure, the edits are a text for every quote and a declaration for every
record. -/
theorem foldl_eq {quotes : List Quote} (hknown : ∀ q ∈ quotes, QuoteKind.isQuoter q.quoter)
    (e : Expansion) (hempty : e.failures = .empty Collector.standardBound)
    (hend : (quotes.foldl (step l scope) e).failures.collected = []) :
    ∃ records texts,
      Spliced l scope e.unit quotes records texts (quotes.foldl (step l scope) e).unit ∧
      (quotes.foldl (step l scope) e).edits =
        ⟨e.edits.replacements ++ List.zipWith Replacement.mk (quotes.map (·.span)) texts,
          e.edits.declarations ++ records.map (l.renderDeclaration ·.declaration)⟩ := by
  induction quotes generalizing e with
  | nil => exact ⟨[], [], .nil _, by simp⟩
  | cons q quotes ih =>
    have hlater : ∀ q ∈ quotes, QuoteKind.isQuoter q.quoter :=
      fun q hq => hknown q (List.mem_cons_of_mem _ hq)
    rw [List.foldl_cons] at hend ⊢
    -- The collector is empty before each step: a full one would drop the failure.
    rcases step_cases e (hknown q List.mem_cons_self) hempty with
      hfailed | ⟨entry, record, hkind, hexpand⟩ | ⟨handle, v, hkind, hemit⟩
    · exact absurd hend (foldl_failures quotes _ hfailed)
    · have hstep := step_expression hkind hexpand
      obtain ⟨records, texts, hspliced, hedits⟩ := ih hlater _ (by rw [hstep]; exact hempty) hend
      rw [hstep] at hspliced hedits ⊢
      refine ⟨_, _, .expression hkind hexpand hspliced, ?_⟩
      rw [hedits]
      simp
    · have hstep : step l scope e q = _ := step_items hkind hemit
      obtain ⟨records, texts, hspliced, hedits⟩ := ih hlater _ (by rw [hstep]; exact hempty) hend
      rw [hstep] at hspliced hedits ⊢
      refine ⟨_, _, .items hkind hemit hspliced, ?_⟩
      rw [hedits]
      simp

end Expansion

/-! ## The expanded file -/

/-- What stands behind a text for the records of its snippets: nothing without any, and else the
declarations on lines of their own. -/
def declarationsBehind (l : HostLanguage) (unit : String) (cs : List Char)
    (records : List CallSite) : String :=
  if records = [] then ""
  else (if cs.getLast? = some '\n' then "" else "\n") ++
    String.join (("" :: (l.comments.line ++ " generated by splicer for " ++ unit) ::
      records.map (l.renderDeclaration ·.declaration)).map (· ++ "\n"))

theorem Edits.withDeclarations_eq (l : HostLanguage) (unit : String) (cs : List Char)
    (replacements : List Replacement) (records : List CallSite) :
    withDeclarations ⟨replacements, records.map (l.renderDeclaration ·.declaration)⟩ l unit cs =
      .ofList cs ++ declarationsBehind l unit cs records := by
  unfold withDeclarations declarationsBehind
  rw [HostLanguage.declarationsBlock_eq_join]
  cases records with
  | nil => exact (String.append_empty).symm
  | cons record records => exact String.append_assoc

/-- A run without failures has put the calls of its records in the place of the quotes. -/
theorem Expansion.finish_of_cut {l : HostLanguage} {scope : HostScope} {u : CompilationUnit}
    {quotes : List Quote} {source : String} {gaps : List (List Char)}
    (hcut : Cut 0 source.toList (quotes.map (·.span)) gaps (quotes.map Quote.text))
    (hknown : ∀ q ∈ quotes, QuoteKind.isQuoter q.quoter)
    (hnone : (run l scope u quotes).failures.collected = []) :
    ∃ records texts, Spliced l scope u quotes records texts (run l scope u quotes).unit ∧
      (run l scope u quotes).finish l source =
        .ok (.ofList (weave gaps (texts.map String.toList)) ++
          declarationsBehind l u.name (weave gaps (texts.map String.toList)) records) := by
  obtain ⟨records, texts, hspliced, hedits⟩ := foldl_eq hknown
    ⟨u, .empty, .empty Collector.standardBound⟩ rfl hnone
  change Spliced l scope u quotes records texts (run l scope u quotes).unit at hspliced
  change (run l scope u quotes).edits = _ at hedits
  have hlength : texts.length = (quotes.map (·.span)).length := by
    rw [List.length_map]
    exact hspliced.length_eq
  have hreplaced := Edits.replaceAll_of_cut hcut hlength
    (records.map (l.renderDeclaration ·.declaration))
  refine ⟨records, texts, hspliced, ?_⟩
  simp only [finish, hnone, List.isEmpty_nil, if_true, Edits.apply, hedits, Edits.empty,
    List.nil_append, hreplaced, Except.map, Edits.withDeclarations_eq, hspliced.name_eq]

theorem CompilationUnit.expandSource_eq_ok {l : HostLanguage} {scope : HostScope}
    {u v : CompilationUnit} {source out : String}
    (h : u.expandSource source l scope = (.ok out, v)) :
    ∃ quotes gaps records texts,
      Quote.scan source l.comments QuoteKind.isQuoter = .ok quotes ∧
      Cut 0 source.toList (quotes.map (·.span)) gaps (quotes.map Quote.text) ∧
      Spliced l scope u quotes records texts v ∧
      out = .ofList (weave gaps (texts.map String.toList)) ++
        declarationsBehind l u.name (weave gaps (texts.map String.toList)) records := by
  unfold expandSource at h
  split at h
  · cases (Prod.mk.inj h).1
  next quotes hscan =>
    obtain ⟨hfinish, rfl⟩ := Prod.mk.inj h
    obtain ⟨⟨gaps, hcut⟩, hknown⟩ := Quote.scan_cut hscan
    have hnone : (Expansion.run l scope u quotes).failures.collected = [] := by
      unfold Expansion.finish at hfinish
      split at hfinish
      next hempty => exact List.isEmpty_iff.mp hempty
      next => cases hfinish
    obtain ⟨records, texts, hspliced, hresult⟩ := Expansion.finish_of_cut hcut hknown hnone
    exact ⟨quotes, gaps, records, texts, hscan, hcut, hspliced,
      Except.ok.inj (hfinish.symm.trans hresult)⟩

/-- **Expanding a file replaces its quotes and nothing else.** The text that comes out has the gaps
between the quotes as they were; in the place of the quotes it has the calls of the snippets
recorded on the way, one for each expression quote in its order, and nothing for items. Behind all
this, if there are such snippets, stand on lines of their own an empty one, a comment that names the
unit and the declarations of the snippets in their order. A file without quotes is given back as it
is. -/
theorem CompilationUnit.expandSource_splices (l : HostLanguage) (scope : HostScope)
    (u : CompilationUnit) (source : String) :
    (∀ out v, u.expandSource source l scope = (.ok out, v) →
      ∃ quotes gaps records texts text,
        Quote.scan source l.comments QuoteKind.isQuoter = .ok quotes ∧
        gapsFrom? source.toList 0 (quotes.map (·.span)) = some gaps ∧
        weave gaps (quotes.map Quote.text) = source.toList ∧
        Spliced l scope u quotes records texts v ∧
        v.callSites = u.callSites ++ records ∧
        List.Forall₂ (fun q record =>
          QuoteKind.ofQuoter? q.quoter = some (.expression record.entry) ∧
            record.location = q.bodyLocation) (quotes.filter (·.isExpression)) records ∧
        text = weave gaps (texts.map String.toList) ∧
        out = .ofList text ++
          if records = [] then ""
          else (if text.getLast? = some '\n' then "" else "\n") ++
            String.join (("" :: (l.comments.line ++ " generated by splicer for " ++ u.name) ::
              records.map (l.renderDeclaration ·.declaration)).map (· ++ "\n"))) ∧
    (Quote.scan source l.comments QuoteKind.isQuoter = .ok [] →
      u.expandSource source l scope = (.ok source, u)) := by
  constructor
  · intro out v h
    obtain ⟨quotes, gaps, records, texts, hscan, hcut, hspliced, hout⟩ := expandSource_eq_ok h
    exact ⟨quotes, gaps, records, texts, _, hscan, hcut.gapsFrom?_eq byteLength_nil, hcut.weave_eq,
      hspliced, hspliced.callSites_eq, hspliced.records_of, rfl, hout⟩
  · intro hscan
    rw [expandSource, hscan]
    simp [Expansion.run, Expansion.finish, Collector.empty, Edits.apply, Edits.replaceAll,
      Edits.empty, Edits.withDeclarations, Except.map, pure, Except.pure]

theorem CompilationUnit.expandSource_splices_call :
    let u := ofName "Main.hs" .standard .basic
    let source := "x = [rust| i32 { $(a: i32) } |] + 1"
    let call := "(inline_rust_e79dc073_0 a)"
    let declaration :=
      "foreign import ccall safe \"inline_rust_e79dc073_0\" inline_rust_e79dc073_0 :: " ++
        "Int32 -> Int32"
    let out := "x = " ++ call ++ " + 1\n\n-- generated by splicer for Main.hs\n" ++ declaration ++ "\n"
    ∃ v q gaps record,
      u.expandSource source haskell .open = (.ok out, v) ∧
      Quote.scan source haskell.comments QuoteKind.isQuoter = .ok [q] ∧
      q.text = "[rust| i32 { $(a: i32) } |]".toList ∧
      gaps = ["x = ".toList, " + 1".toList] ∧
      weave gaps [q.text] = source.toList ∧
      Spliced haskell .open u [q] [record] [call] v ∧
      v.callSites = [record] ∧
      haskell.renderDeclaration record.declaration = declaration := by
  intro u source call declaration out
  have hout : (u.expandSource source haskell .open).1 = .ok out := by decide +kernel
  have hcalls : (u.expandSource source haskell .open).2.callSites.map (fun record =>
      (haskell.renderCall record.call, haskell.renderDeclaration record.declaration)) =
        [(call, declaration)] := by decide +kernel
  have hquotes : (Quote.scan source haskell.comments QuoteKind.isQuoter).toOption.map
      (fun quotes => (quotes.map (fun q => (q.quoter, q.text)),
        gapsFrom? source.toList 0 (quotes.map (·.span)))) =
        some ([("rust", "[rust| i32 { $(a: i32) } |]".toList)],
          some ["x = ".toList, " + 1".toList]) := by decide +kernel
  rcases h : u.expandSource source haskell .open with ⟨result, v⟩
  rw [h] at hout hcalls
  obtain rfl : result = .ok out := hout
  obtain ⟨quotes, gaps, records, texts, text, hscan, hgaps, hsource, hspliced, hrecords, -, -, -⟩ :=
    (expandSource_splices haskell .open u source).1 out v h
  rw [hscan] at hquotes
  simp only [Except.toOption, Option.map_some, hgaps, Option.some.injEq, Prod.mk.injEq] at hquotes
  obtain ⟨hquoters, rfl⟩ := hquotes
  obtain ⟨q, rfl, hq⟩ := List.map_eq_singleton_iff.mp hquoters
  obtain ⟨hquoter, hqtext⟩ : q.quoter = "rust" ∧ q.text = _ := Prod.mk.inj hq
  have hrecords : v.callSites = records := hrecords
  rw [hrecords] at hcalls
  obtain ⟨record, rfl, hrecord⟩ := List.map_eq_singleton_iff.mp hcalls
  obtain ⟨hcall, hdeclaration⟩ : haskell.renderCall record.call = call ∧
    haskell.renderDeclaration record.declaration = declaration := Prod.mk.inj hrecord
  have htexts : texts = [call] := by
    cases hspliced with
    | expression _ _ hrest =>
      cases hrest
      rw [hcall]
    | items hkind =>
      rw [hquoter] at hkind
      cases hkind
  rw [htexts] at hspliced
  exact ⟨v, q, _, record, rfl, hscan, hqtext, rfl, hsource, hspliced, hrecords, hdeclaration⟩

end Graft

import Mathlib.Data.List.Basic
import Graft.Proofs.Call.Name
import Graft.Proofs.Unit.Agreement
import Graft.Proofs.Unit.Splice

/-!
# What stands next to a call

A call takes the place of its quote and nothing is put around it. A call with arguments brings
parentheses of its own, so that a name next to the quote stays a name of its own. A call without
arguments is a name, and it runs together with a name next to it.
-/

namespace Graft

/-! ## The text of a call -/

namespace Haskell

/-- A text that is nothing but characters of names. -/
structure IsWord (s : String) : Prop where
  ne_nil : s.toList ≠ []
  chars : ∀ c ∈ s.toList, isNameChar c

/-- The name that a declaration binds is a word. -/
theorem isWord_bindingName {raw unit : String} {count : Nat} :
    IsWord (haskell.bindingName (Symbol.joined (Symbol.sanitize raw) (Symbol.unitTag unit) count)) := by
  have hchars := Symbol.isSymbolChar_joined raw unit count
  unfold HostLanguage.bindingName
  split
  next =>
    refine ⟨?_, fun c hc => isNameChar_of_isSymbolChar (hchars c hc)⟩
    rw [Symbol.toList_joined]
    simp
  next =>
    have hline : "_".toList = ['_'] := rfl
    refine ⟨by simp [hline], fun c hc => ?_⟩
    rw [String.toList_append, hline, List.singleton_append, List.mem_cons] at hc
    rcases hc with rfl | hc
    · decide
    · exact isNameChar_of_isSymbolChar (hchars c hc)

/-- The ends of a call: parentheses if it has arguments, and else those of its name. -/
theorem ends_renderCall {call : HostCall} (hword : IsWord call.function) :
    (((renderCall call).toList.head?.any isNameChar) ↔ call.args = []) ∧
      (((renderCall call).toList.getLast?.any isNameChar) ↔ call.args = []) := by
  unfold renderCall
  split
  next hempty =>
    have hargs : call.args = [] := List.isEmpty_iff.mp hempty
    obtain ⟨c, cs, hcs⟩ := List.exists_cons_of_ne_nil hword.ne_nil
    have hlast := List.getLast_mem hword.ne_nil
    simp only [hargs, iff_true, List.getLast?_eq_some_getLast hword.ne_nil, Option.any_some]
    refine ⟨?_, hword.chars _ hlast⟩
    rw [hcs]
    exact hword.chars c (by rw [hcs]; exact List.mem_cons_self)
  next hempty =>
    have hargs : call.args ≠ [] := fun h => hempty (List.isEmpty_iff.mpr h)
    have hopen : "(".toList = ['('] := rfl
    have hclose : ")".toList = [')'] := rfl
    have htext : ("(" ++ call.function ++ " " ++ " ".intercalate (call.args.map renderArgument) ++
        ")").toList = '(' :: (call.function ++ " " ++
          " ".intercalate (call.args.map renderArgument)).toList ++ [')'] := by
      simp only [String.toList_append, hopen, hclose, List.append_assoc, List.cons_append,
        List.nil_append]
    rw [htext, List.getLast?_concat, List.cons_append, List.head?_cons]
    simp only [hargs, iff_false, Option.any_some]
    exact ⟨by decide, by decide⟩

end Haskell

/-! ## Around a quote -/

theorem weave_concat {gaps insides : List (List Char)} (h : insides.length = gaps.length)
    (gap : List Char) :
    weave (gaps ++ [gap]) insides = (List.zipWith (· ++ ·) gaps insides).flatten ++ gap := by
  induction gaps generalizing insides with
  | nil =>
    rw [List.length_eq_zero_iff.mp h]
    simp [weave]
  | cons g gaps ih =>
    obtain ⟨x, insides, rfl⟩ := List.exists_cons_of_length_eq_add_one h
    simp [weave, ih (Nat.succ.inj h)]

/-- A woven text around one of the texts inside. -/
theorem weave_around {gaps insides : List (List Char)} (h : insides.length = gaps.length)
    (gap gap' x : List Char) (gaps' insides' : List (List Char)) :
    weave (gaps ++ gap :: gap' :: gaps') (insides ++ x :: insides') =
      weave (gaps ++ [gap]) insides ++ x ++ weave (gap' :: gaps') insides' := by
  induction gaps generalizing insides with
  | nil =>
    rw [List.length_eq_zero_iff.mp h]
    simp [weave]
  | cons g gaps ih =>
    obtain ⟨y, insides, rfl⟩ := List.exists_cons_of_length_eq_add_one h
    simp [weave, ih (Nat.succ.inj h)]

namespace Cut

variable {offset : Nat} {cs : List Char} {s : ByteSpan} {spans spans' : List ByteSpan}
  {gaps insides : List (List Char)}

theorem length_gaps (h : Cut offset cs spans gaps insides) : gaps.length = spans.length + 1 := by
  induction h with
  | rest => rfl
  | span _ _ _ _ ih => rw [List.length_cons, List.length_cons, ih]

/-- A cut text around one of the spans. -/
theorem around (h : Cut offset cs (spans ++ s :: spans') gaps insides) :
    ∃ gaps₁ gap gap' gaps₂ insides₁ inside insides₂,
      gaps = gaps₁ ++ gap :: gap' :: gaps₂ ∧ gaps₁.length = spans.length ∧
      insides = insides₁ ++ inside :: insides₂ ∧ insides₁.length = spans.length ∧
      offset + byteLength (weave (gaps₁ ++ [gap]) insides₁) = s.first := by
  induction spans generalizing offset cs gaps insides with
  | nil =>
    cases h with
    | @span _ first last gap inside rest _ gaps insides hfirst hlast hinside hrest =>
      obtain ⟨gap', gaps', rfl⟩ : ∃ gap' gaps', gaps = gap' :: gaps' := by
        cases hrest with
        | rest => exact ⟨_, [], rfl⟩
        | span => exact ⟨_, _, rfl⟩
      refine ⟨[], gap, gap', gaps', [], inside, insides, rfl, rfl, rfl, rfl, ?_⟩
      simp [weave, hfirst]
  | cons s₀ spans ih =>
    cases h with
    | @span _ first last gap₀ inside₀ rest _ gaps insides hfirst hlast hinside hrest =>
      obtain ⟨gaps₁, gap, gap', gaps₂, insides₁, inside, insides₂, rfl, hgaps, rfl, hinsides,
        hbytes⟩ := ih hrest
      refine ⟨gap₀ :: gaps₁, gap, gap', gaps₂, inside₀ :: insides₁, inside, insides₂, rfl, ?_, rfl,
        ?_, ?_⟩
      · simp [hgaps]
      · simp [hinsides]
      · rw [List.cons_append, weave, byteLength_append, byteLength_append]
        omega

end Cut

/-- The last character before a quote that belongs to a name stands in the gap before the quote,
since all quotes end in brackets. -/
theorem getLast?_weave {gaps insides texts : List (List Char)} {gap : List Char} {c : Char}
    (hinsides : insides.length = gaps.length) (htexts : texts.length = gaps.length)
    (hquotes : ∀ x ∈ insides, x.getLast? = some ']') (hname : Haskell.isNameChar c)
    (h : (weave (gaps ++ [gap]) insides).getLast? = some c) :
    (weave (gaps ++ [gap]) texts).getLast? = some c := by
  rw [weave_concat hinsides] at h
  rw [weave_concat htexts]
  rcases List.eq_nil_or_concat gap with rfl | ⟨gap, d, rfl⟩
  · rw [List.append_nil] at h
    rcases List.eq_nil_or_concat insides with rfl | ⟨insides, x, rfl⟩
    · simp at h
    · obtain ⟨gaps, g, rfl⟩ : ∃ gs g, gaps = gs ++ [g] := by
        rcases List.eq_nil_or_concat gaps with rfl | ⟨gs, g, rfl⟩
        · simp at hinsides
        · exact ⟨gs, g, List.concat_eq_append⟩
      have hx := hquotes x (by simp)
      have hlength : insides.length = gaps.length := by simpa using hinsides
      rw [List.concat_eq_append, List.zipWith_append hlength.symm] at h
      simp only [List.zipWith_cons_cons, List.zipWith_nil_left, List.flatten_append,
        List.flatten_cons, List.flatten_nil, List.append_nil, List.getLast?_append, hx,
        Option.some_or, Option.some.injEq] at h
      rw [← h] at hname
      exact absurd hname (by decide)
  · simpa [List.concat_eq_append] using h

theorem head?_weave {gaps insides texts : List (List Char)} {gap : List Char} {c : Char}
    (hquotes : ∀ x ∈ insides, x.head? = some '[') (hname : Haskell.isNameChar c)
    (h : (weave (gap :: gaps) insides).head? = some c)
    (hlength : insides.length = gaps.length) :
    (weave (gap :: gaps) texts).head? = some c := by
  cases gap with
  | cons d gap =>
    have hd : d = c := by
      cases insides <;> simpa [weave] using h
    cases texts <;> simp [weave, hd]
  | nil =>
    cases insides with
    | nil =>
      rw [List.length_eq_zero_iff.mp hlength.symm] at h
      cases h
    | cons x insides =>
      have hx := hquotes x List.mem_cons_self
      simp only [weave, List.nil_append, List.head?_append, hx, Option.some_or,
        Option.some.injEq] at h
      rw [← h] at hname
      exact absurd hname (by decide)

theorem Quote.head?_text (q : Quote) : q.text.head? = some '[' := rfl

theorem Quote.getLast?_text (q : Quote) : q.text.getLast? = some ']' := by
  rw [text, List.getLast?_append]
  rfl

/-- A cut text around one of the quotes, and the same gaps around a text put in its place: what
belongs to a name next to the quote stands next to that text. -/
theorem Cut.neighbours {cs : List Char} {front back : List Quote} {q : Quote}
    {gaps texts₁ : List (List Char)} (call : List Char) (texts₂ : List (List Char))
    (h : Cut 0 cs ((front ++ q :: back).map (·.span)) gaps ((front ++ q :: back).map Quote.text))
    (htexts₁ : texts₁.length = front.length) :
    ∃ before after left right,
      cs = before ++ q.text ++ after ∧ byteLength before = q.span.first ∧
      weave gaps (texts₁ ++ call :: texts₂) = left ++ call ++ right ∧
      (∀ c, before.getLast? = some c → Haskell.isNameChar c → left.getLast? = some c) ∧
      (∀ c, after.head? = some c → Haskell.isNameChar c → right.head? = some c) := by
  have hcs := h.weave_eq
  rw [List.map_append, List.map_cons] at h
  obtain ⟨gaps₁, gap, gap', gaps₂, insides₁, inside, insides₂, rfl, hgaps₁, hinsides, hinsides₁,
    hbytes⟩ := h.around
  have hgaps : gaps₁.length = front.length := by rw [hgaps₁, List.length_map]
  rw [List.length_map] at hinsides₁
  rw [List.map_append, List.map_cons] at hinsides hcs
  obtain ⟨rfl, hrest⟩ := List.append_inj hinsides (by rw [hinsides₁, List.length_map])
  obtain ⟨rfl, rfl⟩ := List.cons.inj hrest
  have hfront : (front.map Quote.text).length = gaps₁.length := hinsides₁.trans hgaps.symm
  have htexts : texts₁.length = gaps₁.length := htexts₁.trans hgaps.symm
  have hback : (back.map Quote.text).length = gaps₂.length := by
    have hlength := h.length_gaps
    simp only [List.length_append, List.length_cons, List.length_map] at hlength
    rw [List.length_map]
    omega
  -- An empty gap shows the bracket of the next quote, which is no character of a name.
  have hopened : ∀ x ∈ back.map Quote.text, x.head? = some '[' := by
    intro x hx
    obtain ⟨r, -, rfl⟩ := List.mem_map.mp hx
    exact r.head?_text
  have hclosed : ∀ x ∈ front.map Quote.text, x.getLast? = some ']' := by
    intro x hx
    obtain ⟨r, -, rfl⟩ := List.mem_map.mp hx
    exact r.getLast?_text
  rw [weave_around hfront] at hcs
  refine ⟨_, _, _, _, hcs.symm, ?_, weave_around htexts gap gap' call gaps₂ texts₂, ?_, ?_⟩
  · rw [← hbytes, Nat.zero_add]
  · exact fun c hc hname => getLast?_weave hfront htexts hclosed hname hc
  · exact fun c hc hname => head?_weave hopened hname hc hback

/-! ## The calls of a file -/

/-- The call of a record is that of a symbol of its unit, with an argument for each placeholder. -/
structure CallSite.Calls (l : HostLanguage) (raw unit : String) (record : CallSite) : Prop where
  function : ∃ count, record.call.function =
    l.bindingName (Symbol.joined (Symbol.sanitize raw) (Symbol.unitTag unit) count)
  args : record.call.args.length = record.argNames.length

namespace Spliced

variable {l : HostLanguage} {scope : HostScope} {u v : CompilationUnit} {quotes : List Quote}
  {records : List CallSite} {texts : List String}

/-- Of quotes that are expanded, the text of each expression quote is the call of its record. -/
theorem calls (h : Spliced l scope u quotes records texts v) {minted : Nat}
    (hminter : u.minter =
      ⟨Symbol.sanitize u.options.symbolName, Symbol.unitTag u.name, minted⟩)
    {front back : List Quote} {q : Quote} (hquotes : quotes = front ++ q :: back)
    (hq : q.isExpression) :
    ∃ record texts₁ texts₂, records[front.countP (·.isExpression)]? = some record ∧
      texts = texts₁ ++ l.renderCall record.call :: texts₂ ∧ texts₁.length = front.length ∧
      record.Calls l u.options.symbolName u.name := by
  -- The quote is the first one, or it is found among the later ones with the minter moved on.
  induction h generalizing front minted with
  | nil u => simp at hquotes
  | @expression u v q₀ quotes entry record records texts hkind hexpand _ ih =>
    obtain ⟨r, events, hr, hrecord⟩ := CompilationUnit.expand_eq_ok hexpand
    have hagrees := CompilationUnit.expand_agrees hr entry hminter
    rw [← hrecord] at hagrees
    rw [CompilationUnit.expand_of_ok hr] at ih
    cases front with
    | nil =>
      refine ⟨record, [], texts, rfl, rfl, rfl, ⟨⟨minted, ?_⟩, hagrees.arity.2.2⟩⟩
      rw [hagrees.called, hagrees.bound, hagrees.symbol, CompilationUnit.expand_of_ok hr]
      rfl
    | cons q₁ front =>
      obtain ⟨rfl, hback⟩ := List.cons.inj hquotes
      have hq₀ : q₀.isExpression := by rw [Quote.isExpression, hkind]
      have hnext : u.minter.advance =
          ⟨Symbol.sanitize u.options.symbolName, Symbol.unitTag u.name, minted + 1⟩ := by
        rw [hminter]
        rfl
      obtain ⟨found, texts₁, texts₂, hfound, rfl, hlength, hcalls⟩ := ih hnext hback
      refine ⟨found, l.renderCall record.call :: texts₁, texts₂, ?_, rfl, ?_, hcalls⟩
      · rw [List.countP_cons_of_pos hq₀, List.getElem?_cons_succ]
        exact hfound
      · rw [List.length_cons, List.length_cons, hlength]
  | @items u v w q₀ quotes handle records texts hkind hemit _ ih =>
    have hq₀ : ¬ q₀.isExpression := by
      rw [Quote.isExpression, hkind]
      exact Bool.false_ne_true
    rw [CompilationUnit.emitItems_eq_ok hemit] at ih
    cases front with
    | nil =>
      obtain ⟨rfl, -⟩ := List.cons.inj hquotes
      exact absurd hq hq₀
    | cons q₁ front =>
      obtain ⟨rfl, hback⟩ := List.cons.inj hquotes
      obtain ⟨found, texts₁, texts₂, hfound, rfl, hlength, hcalls⟩ := ih hminter hback
      refine ⟨found, "" :: texts₁, texts₂, ?_, rfl, ?_, hcalls⟩
      · rw [List.countP_cons_of_neg hq₀]
        exact hfound
      · rw [List.length_cons, List.length_cons, hlength]

end Spliced

/-- **A call with arguments stands apart from the names next to it.** In a file that is expanded, a
character of a name before or behind an expression quote stands before or behind its call. The call
starts and ends with such a character just where the snippet has no placeholder: with one, no name
next to the quote runs on into the call; without any, each does. -/
theorem CompilationUnit.expandSource_keeps_words_apart (name : String) (options : UnitOptions)
    (context : TypeContext) (ops : List UnitOp) (scope : HostScope) (source : String) :
    let u := ((ofName name options context).run ops).unit
    ∀ out v, u.expandSource source haskell scope = (.ok out, v) →
      ∃ quotes, Quote.scan source haskell.comments QuoteKind.isQuoter = .ok quotes ∧
        ∀ front q back, quotes = front ++ q :: back → q.isExpression →
          ∃ record before after left right,
            v.callSites[u.callSites.length + front.countP (·.isExpression)]? = some record ∧
            source.toList = before ++ q.text ++ after ∧ byteLength before = q.span.first ∧
            out.toList = left ++ (haskell.renderCall record.call).toList ++ right ∧
            (∀ c, before.getLast? = some c → Haskell.isNameChar c → left.getLast? = some c) ∧
            (∀ c, after.head? = some c → Haskell.isNameChar c → right.head? = some c) ∧
            ((haskell.renderCall record.call).toList.head?.any Haskell.isNameChar ↔
              record.argNames = []) ∧
            ((haskell.renderCall record.call).toList.getLast?.any Haskell.isNameChar ↔
              record.argNames = []) := by
  intro u out v hout
  obtain ⟨quotes, gaps, records, texts, hscan, hcut, hspliced, hresult⟩ := expandSource_eq_ok hout
  refine ⟨quotes, hscan, ?_⟩
  rintro front q back rfl hq
  -- Of the run before, only the state of the minter matters from here on.
  have hminter : ∃ minted, u.minter =
      ⟨Symbol.sanitize u.options.symbolName, Symbol.unitTag u.name, minted⟩ := by
    have hagrees := History.agrees_run name options context ops
    exact ⟨_, by rw [hagrees.minter, hagrees.sameName, hagrees.sameOptions]⟩
  clear_value u
  obtain ⟨minted, hminter⟩ := hminter
  obtain ⟨record, texts₁, texts₂, hrecord, rfl, htexts₁, ⟨count, hfunction⟩, hargs⟩ :=
    hspliced.calls hminter rfl hq
  rw [List.map_append, List.map_cons] at hresult
  obtain ⟨before, after, left, right, hsource, hbytes, hwoven, hleft, hright⟩ :=
    hcut.neighbours (haskell.renderCall record.call).toList (texts₂.map String.toList)
      ((List.length_map String.toList).trans htexts₁)
  have hword : Haskell.IsWord record.call.function := hfunction ▸ Haskell.isWord_bindingName
  have hends := Haskell.ends_renderCall hword
  have hnone : record.call.args = [] ↔ record.argNames = [] := by
    rw [← List.length_eq_zero_iff, hargs, List.length_eq_zero_iff]
  rw [hnone] at hends
  rw [hwoven] at hresult
  refine ⟨record, before, after, left, right ++ (declarationsBehind haskell u.name
    (left ++ (haskell.renderCall record.call).toList ++ right) records).toList, ?_, hsource,
    hbytes, ?_, hleft, ?_, hends⟩
  · rw [hspliced.callSites_eq, List.getElem?_append_right (Nat.le_add_right ..),
      Nat.add_sub_cancel_left]
    exact hrecord
  · rw [hresult, String.toList_append, String.toList_ofList]
    simp only [List.append_assoc]
  · intro c hc hname
    rw [List.head?_append, hright c hc hname]
    rfl

theorem CompilationUnit.expandSource_keeps_words_apart_call :
    let u := ((ofName "Main.hs" .standard .basic).run []).unit
    let source := "f = x[rust| i32 { $(a: i32) } |]y\n"
    ∃ out v record left right,
      u.expandSource source haskell .open = (.ok out, v) ∧
      v.callSites[0]? = some record ∧ record.argNames = ["a"] ∧
      out.toList = left ++ (haskell.renderCall record.call).toList ++ right ∧
      left.getLast? = some 'x' ∧ right.head? = some 'y' ∧
      ¬ (haskell.renderCall record.call).toList.head?.any Haskell.isNameChar ∧
      ¬ (haskell.renderCall record.call).toList.getLast?.any Haskell.isNameChar := by
  intro u source
  have hok : (u.expandSource source haskell .open).1.isOk := by decide +kernel
  have hargs : (u.expandSource source haskell .open).2.callSites.map (·.argNames) = [["a"]] := by
    decide +kernel
  rcases h : u.expandSource source haskell .open with ⟨result, v⟩
  rw [h] at hok hargs
  cases result with
  | error ds => cases hok
  | ok out =>
    obtain ⟨quotes, hscan, hquotes⟩ :=
      expandSource_keeps_words_apart "Main.hs" .standard .basic [] .open source out v h
    have hone : (Quote.scan source haskell.comments QuoteKind.isQuoter).toOption.map
        (·.map fun q => (q.isExpression, q.span.first, q.text.length)) =
        some [(true, 5, 27)] := by
      decide +kernel
    rw [hscan] at hone
    obtain ⟨q, rfl, hq⟩ := List.map_eq_singleton_iff.mp (Option.some.inj hone)
    simp only [Prod.mk.injEq] at hq
    obtain ⟨record, before, after, left, right, hrecord, hsource, hbytes, hout, hleft, hright,
      hhead, hlast⟩ := hquotes [] q [] rfl hq.1
    have hnames : record.argNames = ["a"] := by
      have hfirst : v.callSites[0]? = some record := hrecord
      have hfirst := congrArg (Option.map (·.argNames)) hfirst
      rw [← List.getElem?_map, hargs] at hfirst
      exact (Option.some.inj hfirst).symm
    have hsplit : splitAtByte? 5 source.toList = some (before, q.text ++ after) := by
      rw [hsource, List.append_assoc, ← hq.2.1, ← hbytes, splitAtByte?_byteLength]
    have hbefore : before.getLast? = some 'x' ∧ (q.text ++ after)[27]? = some 'y' := by
      have hat : (splitAtByte? 5 source.toList).map (fun p => (p.1.getLast?, p.2[27]?)) =
          some (some 'x', some 'y') := by
        decide
      rw [hsplit] at hat
      simpa using hat
    have hafter : after.head? = some 'y' := by
      rw [List.getElem?_append_right (by omega), hq.2.2] at hbefore
      rw [List.head?_eq_getElem?]
      exact hbefore.2
    have hsome : ¬ record.argNames = [] := by rw [hnames]; exact List.cons_ne_nil _ _
    exact ⟨out, v, record, left, right, rfl, hrecord, hnames, hout,
      hleft 'x' hbefore.1 (by decide), hright 'y' hafter (by decide), mt hhead.mp hsome,
      mt hlast.mp hsome⟩

/-- A call without arguments runs on from the name before its quote. -/
theorem CompilationUnit.expandSource_joins_words :
    let u := ((ofName "Main.hs" .standard .basic).run []).unit
    let source := "f = x[rust| i32 { 0 } |]\n"
    (Quote.scan source haskell.comments QuoteKind.isQuoter).map
        (·.map fun q => (q.isExpression, source.toList.take q.span.first)) =
      .ok [(true, "f = x".toList)] ∧ Haskell.isNameChar 'x' ∧
    (u.expandSource source haskell .open).1 =
      .ok ("f = xinline_rust_e79dc073_0\n\n-- generated by splicer for Main.hs\n" ++
        "foreign import ccall safe \"inline_rust_e79dc073_0\" inline_rust_e79dc073_0 :: Int32\n") ∧
    (u.expandSource source haskell .open).2.callSites.map
        (fun record => (haskell.renderCall record.call).toList.head?.any Haskell.isNameChar) =
      [true] := by
  intro u source
  refine ⟨?_, ?_, ?_, ?_⟩ <;> decide +kernel

end Graft

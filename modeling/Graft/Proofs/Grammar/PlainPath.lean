import Graft.Proofs.Grammar.Plain

/-!
# Reading paths

Paths as plain types have them: names with the types that are their arguments.
-/

namespace Graft

open Token (Word Bare Sign Written)

namespace Grammar

open Graft.Parser

variable {g : Grammar} {ts tail : List Token}

/-! ## Generic arguments -/

theorem takes_genericArgument {t : PlainType} (ht : TakesType g t) (hts : Written t.bare ts)
    (htail : Stops tail) : Takes g.genericArgument ts tail t.bare (· = false) := by
  have hopens := (t.opens hts).append tail
  -- No lifetime and no constant is next, so that the argument is a type.
  refine (takes_rest _).look ?_
  simp only [hopens.lifetime_eq_false, hopens.literal_eq_false, hopens.braces_eq_false,
    Bool.false_and, Bool.or_false, Bool.false_eq_true, if_false]
  refine (ht true ts tail hts htail).last fun tree _ => ?_
  have hequals : Look.op "=" tail = false := htail.op_eq_false rfl (by decide)
  have hcolon : Look.op ":" tail = false := htail.op_eq_false rfl (by decide)
  -- A single name could be that of an associated type, with its value or its bounds behind it.
  split
  next =>
    refine (takes_op?_of_not hequals).look ?_
    simp only [Bool.false_eq_true, if_false]
    refine (takes_op?_of_not hcolon).look ?_
    simp only [Bool.false_eq_true, if_false]
    exact .pure rfl
  next => exact .pure rfl

/-- Types as arguments, each with the comma behind it. -/
inductive Arguments : Commas PlainType → List Argument → Prop where
  | none : Arguments .none []
  | last {t ts} : Written (PlainType.bare t) ts → Arguments (.last t) [⟨false, ts, []⟩]
  | cons {t rest ts comma as} : Written (PlainType.bare t) ts → Written [.sign .comma] comma →
      Arguments rest as → Arguments (.cons t rest) (⟨false, ts, comma⟩ :: as)

theorem Arguments.joined {args : Commas PlainType} {as : List Argument} (h : Arguments args as) :
    Written (PlainType.bareCommas args) (Argument.joined as) := by
  induction h with
  | none => exact .nil
  | last ht =>
    rw [PlainType.bareCommas, Argument.joined, List.append_nil]
    exact ht
  | @cons t rest ts comma as ht hcomma hrest ih =>
    have hne : comma.isEmpty = false := by
      cases hcomma
      rfl
    have hcons : Written (t.bare ++ [Bare.sign .comma] ++ PlainType.bareCommas rest)
        (ts ++ comma ++ Argument.joined as) := (ht.append hcomma).append ih
    rw [List.append_assoc] at hcons
    cases as with
    | nil =>
      rw [Argument.joined, List.append_nil] at hcons
      exact hcons
    | cons a as =>
      rw [Argument.joined, hne]
      · exact hcons
      · exact List.cons_ne_nil a as

theorem Arguments.isLifetime {args : Commas PlainType} {as : List Argument}
    (h : Arguments args as) : ∀ a ∈ as, a.isLifetime = false := by
  induction h with
  | none => nofun
  | last _ => simp
  | cons _ _ _ ih => simpa using ih

/-- Types keep their order. -/
theorem Arguments.arrange {args : Commas PlainType} {as : List Argument} (h : Arguments args as) :
    Argument.arrange as = Argument.joined as := by
  have hnone : as.filter (·.isLifetime) = [] :=
    List.filter_eq_nil_iff.mpr fun a ha => by simp [h.isLifetime a ha]
  have hall : as.filter (!·.isLifetime) = as :=
    List.filter_eq_self.mpr fun a ha => by simp [h.isLifetime a ha]
  rw [Argument.arrange, hnone, hall]
  rfl

theorem takes_argument?_end {spacing : Spacing} {span : Span} :
    Takes g.argument? [] (.punct '>' spacing span :: tail) [] (· = none) :=
  (takes_ahead _).look (.pure rfl)

theorem takes_argument?_last {t : PlainType} (ht : TakesType g t) (hts : Written t.bare ts)
    {spacing : Spacing} {span : Span} :
    Takes g.argument? ts (.punct '>' spacing span :: tail) [] fun o =>
      ∃ a, o = some a ∧ Arguments (.last t) [a] := by
  have hopens := (t.opens hts).append (.punct '>' spacing span :: tail)
  have hclosed : Look.op ">" (ts ++ .punct '>' spacing span :: tail) = false :=
    hopens.op_eq_false rfl (by decide)
  have hstops : Stops (.punct '>' spacing span :: tail) := .sign .greater _ _ _ (by decide)
  refine (takes_ahead _).look ?_
  simp only [hclosed, Bool.false_eq_true, if_false]
  refine (takes_detached (takes_genericArgument ht hts hstops)).last ?_
  rintro ⟨isLifetime, us⟩ ⟨rfl, hus⟩
  refine (takes_ahead _).look ?_
  exact .pure ⟨_, rfl, .last hus⟩

theorem takes_argument?_cons {t : PlainType} (ht : TakesType g t) (hts : Written t.bare ts)
    {spacing : Spacing} {span : Span} :
    Takes g.argument? (ts ++ [Token.punct ',' spacing span]) tail [] fun o =>
      ∃ a, o = some a ∧ ∀ rest as, Arguments rest as → Arguments (.cons t rest) (a :: as) := by
  have hclosed : Look.op ">" (ts ++ [Token.punct ',' spacing span] ++ tail) = false :=
    ((t.opens hts).append _ |>.append _).op_eq_false rfl (by decide)
  have hstops : Stops ([Token.punct ',' spacing span] ++ tail) := .sign .comma _ _ _ (by decide)
  refine (takes_ahead _).look ?_
  simp only [hclosed, Bool.false_eq_true, if_false]
  -- Arguments are kept aside with their commas and written once all are read.
  show Takes _ _ _ ([] ++ []) _
  refine (takes_detached (takes_genericArgument ht hts hstops)).bind ?_
  rintro ⟨isLifetime, us⟩ ⟨rfl, hus⟩
  refine (takes_ahead _).look ?_
  refine (takes_detached (takes_sign .comma spacing span)).silent ?_
  rintro ⟨_, comma⟩ ⟨-, hcomma⟩
  exact .pure ⟨_, rfl, fun rest as hrest => .cons hus hcomma hrest⟩

theorem takes_arguments {args : Commas PlainType} (hargs : ∀ t ∈ args.toList, TakesType g t)
    (hts : Written (PlainType.bareCommas args) ts) {spacing : Spacing} {span : Span} :
    Takes (many g.argument?) ts (.punct '>' spacing span :: tail) [] (Arguments args) := by
  induction args generalizing ts with
  | none =>
    cases hts
    exact (takes_many_nil takes_argument?_end).mono fun as has => has ▸ .none
  | last t =>
    refine (takes_many_last (t.opens hts).ne_nil
      (takes_argument?_last (hargs t List.mem_cons_self) hts) takes_argument?_end).mono ?_
    rintro _ ⟨a, rfl, ha⟩
    exact ha
  | cons t rest ih =>
    obtain ⟨us, spacing', span', us', rfl, hus, hus'⟩ := hts.split_sign
    have hmore := ih (fun u hu => hargs u (List.mem_cons_of_mem _ hu)) hus'
    rw [List.append_cons]
    refine (takes_many_cons (by simp)
      (takes_argument?_cons (hargs t List.mem_cons_self) hus) hmore).mono ?_
    rintro _ ⟨a, as, rfl, ha, has⟩
    exact ha rest as has

theorem takes_genericArguments {args : Commas PlainType}
    (hargs : ∀ t ∈ args.toList, TakesType g t)
    (hts : Written (.sign .less :: (PlainType.bareCommas args ++ [Bare.sign .greater])) ts) :
    Takes g.genericArguments ts tail
      (.sign .less :: (PlainType.bareCommas args ++ [Bare.sign .greater])) fun _ => True := by
  cases hts with
  | sign _ spacing span hts =>
    obtain ⟨us, spacing', span', us', rfl, hus, hnil⟩ := hts.split_sign
    cases hnil
    unfold genericArguments
    show Takes _ ([Token.punct '<' spacing span] ++ (us ++ [Token.punct '>' spacing' span'])) _
      ([Bare.sign .less] ++ ([] ++ (PlainType.bareCommas args ++ [Bare.sign .greater]))) _
    refine (takes_sign .less spacing span).bind fun _ _ => ?_
    refine (takes_arguments hargs hus).bind fun as has => ?_
    show Takes _ ([] ++ _) _ _ _
    refine (takes_write (has.arrange ▸ has.joined)).bind fun _ _ => ?_
    exact (takes_sign .greater spacing' span').last fun _ _ => .pure trivial

/-! ## Paths -/

/-- Tokens that a name of a path may stand before. -/
inductive EndsSegment : List Token → Prop where
  | stops {ts : List Token} : Stops ts → EndsSegment ts
  | colons (spacing : Spacing) (span span' span'' : Span) (text : String) (ts : List Token) :
      EndsSegment (.punct ':' .joint span :: .punct ':' spacing span' :: .ident text span'' :: ts)

theorem EndsSegment.no_arguments (h : EndsSegment ts) :
    ((!false && Look.opOnly "<" ["<=", "<<="] ts) ||
      (Look.op "::" ts && Look.op "<" (Look.third ts))) = false := by
  cases h with
  | stops h =>
    have hless : Look.op "<" ts = false := h.op_eq_false rfl (by decide)
    have hcolons : Look.op "::" ts = false := h.op_eq_false rfl (by decide)
    simp [Look.opOnly, hless, hcolons]
  | colons spacing span span' span'' text ts => rfl

theorem takes_segmentRest_nil (htail : EndsSegment tail) :
    Takes (g.segmentRest false) [] tail [] fun _ => True := by
  refine takes_written.last fun _ _ => (takes_rest _).look ?_
  rw [List.nil_append, if_neg (by rw [htail.no_arguments]; exact Bool.false_ne_true)]
  exact .pure trivial

theorem takes_plainSegment (n : PathWord) (span : Span) (htail : EndsSegment tail) :
    Takes (g.pathSegment false) [.ident n.text span] tail [.word n.toWord] fun _ => True := by
  unfold pathSegment
  refine (takes_rest _).look ?_
  by_cases hkeyword : Look.oneOf ["super", "self", "crate", "try"]
      ([Token.ident n.text span] ++ tail) = true
  · rw [if_pos hkeyword]
    refine (takes_anyWord n.toWord span).last fun _ _ => ?_
    exact takes_written.last fun _ _ => .pure trivial
  rw [if_neg hkeyword]
  by_cases hself : Look.word "Self" ([Token.ident n.text span] ++ tail) = true
  · rw [if_pos hself]
    exact (takes_anyWord n.toWord span).last fun _ _ => takes_segmentRest_nil htail
  rw [if_neg hself]
  -- Reserved words that may stand in a path have all been dealt with.
  have hfree : reservedWords.contains n.text = false := by
    have hnames := n.names
    simp only [Look.oneOf, Look.word, List.any_cons, List.any_nil, List.singleton_append,
      Bool.or_eq_true, decide_eq_true_eq, not_or] at hkeyword hself
    by_contra hreserved
    rw [Bool.not_eq_false] at hreserved
    rw [hreserved, Bool.not_true, Bool.false_or, List.contains_iff_mem] at hnames
    simp only [List.mem_cons, List.not_mem_nil, or_false] at hnames
    rcases hnames with h | h | h | h
    · exact hkeyword.1 h.symm
    · exact hkeyword.2.1 h.symm
    · exact hself h.symm
    · exact hkeyword.2.2.1 h.symm
  exact (takes_name n.toWord span hfree).last fun _ _ => takes_segmentRest_nil htail

/-- Behind the bracket of a list of arguments nothing makes it a longer operator. -/
theorem go_arguments {args : Commas PlainType} {us : List Token}
    (hus : Written (PlainType.bareCommas args ++ [Bare.sign .greater]) us) {c : Char}
    (hc : c ∉ ['&', '*', ':', '>']) (marks : List Char) :
    Look.op.go (c :: marks) (us ++ tail) = false := by
  have hopen : c ∉ ['&', '*', ':'] := fun hmem => hc (List.mem_append_left ['>'] hmem)
  cases args with
  | none =>
    cases hus with
    | sign _ spacing span _ =>
      have hne : c ≠ '>' := by
        rintro rfl
        exact hc (by decide)
      cases marks <;> simp [Look.op.go, Sign.char, hne]
  | last t =>
    obtain ⟨vs, vs', rfl, hvs, -⟩ := hus.split
    rw [List.append_assoc]
    exact ((t.opens hvs).append _).go_eq_false hopen marks
  | cons t rest =>
    rw [PlainType.bareCommas, List.append_assoc] at hus
    obtain ⟨vs, vs', rfl, hvs, -⟩ := hus.split
    rw [List.append_assoc]
    exact ((t.opens hvs).append _).go_eq_false hopen marks

theorem opOnly_arguments {args : Commas PlainType} {us : List Token}
    (hus : Written (PlainType.bareCommas args ++ [Bare.sign .greater]) us) (spacing : Spacing)
    (span : Span) :
    Look.opOnly "<" ["<=", "<<="] (.punct '<' spacing span :: (us ++ tail)) = true := by
  -- It would have to be one of `<=` and `<<=` instead.
  have hmore : ∀ marks, Look.op.go ('=' :: marks) (us ++ tail) = false :=
    go_arguments hus (by decide)
  have hshift : ∀ marks, Look.op.go ('<' :: marks) (us ++ tail) = false :=
    go_arguments hus (by decide)
  simp [Look.opOnly, Look.op, Look.op.go, hmore, hshift]

theorem takes_segmentRest {args : Commas PlainType} (turbofish : Bool)
    (hargs : ∀ t ∈ args.toList, TakesType g t)
    (hts : Written ((if turbofish then [Bare.colons] else []) ++
      .sign .less :: (PlainType.bareCommas args ++ [Bare.sign .greater])) ts) :
    Takes (g.segmentRest false) ts tail ((if turbofish then [Bare.colons] else []) ++
      .sign .less :: (PlainType.bareCommas args ++ [Bare.sign .greater])) fun _ => True := by
  show Takes _ ([] ++ ts) _ ([] ++ _) _
  refine takes_written.bind fun _ _ => (takes_rest _).look ?_
  -- Two tests lead to the arguments, with and without colons before them.
  cases turbofish with
  | false =>
    have hless := hts
    cases hless with
    | sign _ spacing span hus =>
      rw [if_pos (by exact Bool.or_eq_true_iff.mpr (.inl (opOnly_arguments hus spacing span)))]
      refine (takes_op?_of_not rfl).look ?_
      exact (takes_genericArguments hargs hts).last fun _ _ => .pure trivial
  | true =>
    cases hts with
    | @colons _ us spacing span span' hts =>
      have hless : Look.op "<" (us ++ tail) = true := by
        cases hts with
        | sign _ spacing span _ => rfl
      rw [if_pos (by exact Bool.or_eq_true_iff.mpr (.inr (Bool.and_eq_true_iff.mpr ⟨rfl, hless⟩)))]
      show Takes _ ([Token.punct ':' .joint span, .punct ':' spacing span'] ++ us) _
        ([Bare.colons] ++ _) _
      refine (takes_colons? spacing span span').bind fun _ _ => ?_
      exact (takes_genericArguments hargs hts).last fun _ _ => .pure trivial

theorem takes_genericSegment (n : Name) (turbofish : Bool) {args : Commas PlainType}
    (hargs : ∀ t ∈ args.toList, TakesType g t)
    (hts : Written (Segment.generic n turbofish args).bare ts) :
    Takes (g.pathSegment false) ts tail (Segment.generic n turbofish args).bare
      fun _ => True := by
  cases hts with
  | @word _ us _ span hts =>
    have hkeyword : Look.oneOf ["super", "self", "crate", "try"]
        (.ident n.text span :: us ++ tail) = false := by
      have hsuper : "super" ≠ n.text := (n.ne (by decide)).symm
      have hself : "self" ≠ n.text := (n.ne (by decide)).symm
      have hcrate : "crate" ≠ n.text := (n.ne (by decide)).symm
      have htry : "try" ≠ n.text := (n.ne (by decide)).symm
      simp [Look.oneOf, Look.word, hsuper, hself, hcrate, htry]
    have hself : Look.word "Self" (.ident n.text span :: us ++ tail) = false :=
      decide_eq_false (n.ne (by decide)).symm
    unfold pathSegment
    refine (takes_rest _).look ?_
    rw [hkeyword, if_neg Bool.false_ne_true, hself, if_neg Bool.false_ne_true]
    show Takes _ ([Token.ident n.text span] ++ us) _ ([Bare.word n.toWord] ++ _) _
    refine (takes_name n.toWord span n.free).bind fun _ _ => ?_
    exact takes_segmentRest turbofish hargs hts

theorem takes_pathSegment (s : Segment) (hargs : ∀ t ∈ s.args, TakesType g t)
    (hts : Written s.bare ts) (htail : EndsSegment tail) :
    Takes (g.pathSegment false) ts tail s.bare fun _ => True := by
  cases s with
  | plain n =>
    cases hts with
    | word _ span hts =>
      cases hts
      exact takes_plainSegment n span htail
  | generic n turbofish args => exact takes_genericSegment n turbofish hargs hts

theorem endsSegment_more {more : List Segment} (hts : Written (Segment.bareMore more) ts)
    (htail : Stops tail) : EndsSegment (ts ++ tail) := by
  cases more with
  | nil =>
    cases hts
    exact .stops htail
  | cons s more =>
    cases hts with
    | colons spacing span span' hts =>
      obtain ⟨us, us', rfl, hus, -⟩ := hts.split
      obtain ⟨span'', us, rfl⟩ := Segment.head hus
      exact .colons spacing span span' span'' _ _

theorem takes_nextSegment? {s : Segment} (hargs : ∀ t ∈ s.args, TakesType g t)
    (hts : Written (.colons :: s.bare) ts) (htail : EndsSegment tail) :
    Takes (g.nextSegment? false) ts tail (.colons :: s.bare) fun o => ∃ p, o = some p ∧ True := by
  cases hts with
  | @colons _ us spacing span span' hus =>
    have hname : Look.parens (us ++ tail) = false := by
      obtain ⟨_, _, rfl⟩ := Segment.head hus
      rfl
    refine (takes_rest _).look ?_
    rw [if_pos (by exact Bool.and_eq_true_iff.mpr ⟨rfl, Bool.not_eq_true' _ ▸ hname⟩)]
    show Takes _ ([Token.punct ':' .joint span, .punct ':' spacing span'] ++ us) _
      ([Bare.colons] ++ _) _
    refine (takes_colons spacing span span').bind fun _ _ => ?_
    exact (takes_pathSegment s hargs hus htail).last fun p _ => .pure ⟨p, rfl, trivial⟩

theorem takes_nextSegment?_none (htail : Stops tail) :
    Takes (g.nextSegment? false) [] tail [] (· = none) := by
  have hcolons : Look.op "::" tail = false := htail.op_eq_false rfl (by decide)
  refine (takes_rest _).look ?_
  rw [List.nil_append, hcolons, Bool.false_and, if_neg Bool.false_ne_true]
  exact .pure rfl

theorem takes_moreSegments {more : List Segment}
    (hargs : ∀ s ∈ more, ∀ t ∈ s.args, TakesType g t)
    (hts : Written (Segment.bareMore more) ts) (htail : Stops tail) :
    Takes (many (g.nextSegment? false)) ts tail (Segment.bareMore more) fun _ => True := by
  induction more generalizing ts with
  | nil =>
    cases hts
    exact (takes_many_nil (takes_nextSegment?_none htail)).mono fun _ _ => trivial
  | cons s more ih =>
    rw [Segment.bareMore, ← List.cons_append] at hts ⊢
    obtain ⟨us, us', rfl, hus, hus'⟩ := hts.split
    have hne : us ≠ [] := by
      rintro rfl
      cases hus
    have hsegment := takes_nextSegment? (hargs s List.mem_cons_self) hus
      (endsSegment_more hus' htail)
    have hmore := ih (fun s hs => hargs s (List.mem_cons_of_mem _ hs)) hus'
    exact (takes_many_cons hne hsegment hmore).mono fun _ _ => trivial

theorem takes_morePath {more : List Segment} (hargs : ∀ s ∈ more, ∀ t ∈ s.args, TakesType g t)
    (hts : Written (Segment.bareMore more) ts) (htail : Stops tail) (first : PathForm) :
    Takes (g.morePath false first) ts tail (Segment.bareMore more) fun _ => True := by
  unfold morePath
  refine (takes_moreSegments hargs hts htail).last fun more _ => ?_
  split <;> exact .pure trivial

/-- The names of a path behind the `::` that may lead it. -/
def pathNames (g : Grammar) (leading : Bool) : Parser PathForm := do
  let p ← g.morePath false (← g.pathSegment false)
  return { p with single := p.single && !leading }

theorem path_eq : g.path false = op? "::" >>= g.pathNames := rfl

theorem takes_pathNames {first : Segment} {more : List Segment}
    (hfirst : ∀ t ∈ first.args, TakesType g t) (hmore : ∀ s ∈ more, ∀ t ∈ s.args, TakesType g t)
    (hts : Written (first.bare ++ Segment.bareMore more) ts) (htail : Stops tail)
    (leading : Bool) :
    Takes (g.pathNames leading) ts tail (first.bare ++ Segment.bareMore more) fun _ => True := by
  obtain ⟨us, us', rfl, hus, hus'⟩ := hts.split
  refine (takes_pathSegment first hfirst hus (endsSegment_more hus' htail)).bind fun p _ => ?_
  exact (takes_morePath hmore hus' htail p).last fun _ _ => .pure trivial

theorem takes_path (rooted : Bool) {first : Segment} {more : List Segment}
    (hfirst : ∀ t ∈ first.args, TakesType g t) (hmore : ∀ s ∈ more, ∀ t ∈ s.args, TakesType g t)
    (hts : Written (PlainType.path rooted first more).bare ts) (htail : Stops tail) :
    Takes (g.path false) ts tail (PlainType.path rooted first more).bare fun _ => True := by
  rw [path_eq]
  cases rooted with
  | false =>
    have hunrooted : Look.op "::" (ts ++ tail) = false := by
      obtain ⟨_, _, rfl⟩ := PlainType.path_head hts
      rfl
    refine (takes_op?_of_not hunrooted).look ?_
    exact takes_pathNames hfirst hmore hts htail false
  | true =>
    cases hts with
    | @colons _ us spacing span span' hus =>
      show Takes _ ([Token.punct ':' .joint span, .punct ':' spacing span'] ++ us) _
        ([Bare.colons] ++ _) _
      refine (takes_colons? spacing span span').bind fun _ _ => ?_
      exact takes_pathNames hfirst hmore hus htail _

end Grammar

end Graft

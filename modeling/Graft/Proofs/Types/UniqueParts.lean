import Graft.Proofs.Grammar.PlainFunction
import Graft.Proofs.Grammar.PlainPath

/-!
# Token sequences tell the parts of types

Lists, paths, parameters and the words of types: what stands behind one of them shows where it ends,
so that its tokens are the tokens of no other.
-/

namespace Graft

open Token (Word Whole Bare Sign Written)
open Grammar (EndsSegment endsSegment_more)

/-- Before tokens with `R`, what `a` is written with tells `a` and where it ends. -/
def Tells {α : Type} (f : α → List Bare) (R : List Token → Prop) (a : α) : Prop :=
  ∀ b ts us r r', Written (f a) ts → Written (f b) us → R r → R r' → ts ++ r = us ++ r' →
    a = b ∧ r = r'

/-- A part that may be left out is told where the tokens behind it are none that it starts with. -/
theorem Tells.optional {α : Type} {f : α → List Bare} {R : List Token → Prop} {a : α} (absent : α)
    (habsent : f absent = [])
    (hstarts : ∀ b ts r, b ≠ absent → Written (f b) ts → ¬ R (ts ++ r))
    (hpresent : a ≠ absent → ∀ b ts us r r', b ≠ absent → Written (f a) ts → Written (f b) us →
      R r → R r' → ts ++ r = us ++ r' → a = b ∧ r = r') : Tells f R a := by
  intro b ts us r r' hts hus hr hr' heq
  by_cases ha : a = absent
  · rw [ha, habsent] at hts
    cases hts
    by_cases hb : b = absent
    · rw [hb, habsent] at hus
      cases hus
      exact ⟨ha.trans hb.symm, heq⟩
    · obtain rfl : r = us ++ r' := heq
      exact absurd hr (hstarts b us r' hb hus)
  · by_cases hb : b = absent
    · rw [hb, habsent] at hus
      cases hus
      obtain rfl : ts ++ r = r' := heq
      exact absurd hr' (hstarts a ts r ha hts)
    · exact hpresent ha b ts us r r' hb hts hus hr hr' heq

/-! ## Lists -/

/-- Tokens that a list with commas may stand before. -/
inductive Closes : List Token → Prop where
  | nil : Closes []
  | greater (spacing : Spacing) (span : Span) (ts : List Token) :
      Closes (.punct '>' spacing span :: ts)

theorem Closes.stops {ts : List Token} (h : Closes ts) : Stops ts := by
  cases h with
  | nil => exact .nil
  | greater spacing span ts => exact .sign .greater spacing span ts (by decide)

theorem not_closes_comma (spacing : Spacing) (span : Span) (ts : List Token) :
    ¬ Closes (.punct ',' spacing span :: ts) := by
  rintro ⟨⟩

theorem Opens.not_closes {ts : List Token} (h : Opens ts) (r : List Token) :
    ¬ Closes (ts ++ r) := by
  intro hcloses
  cases h with
  | mark c spacing span ts hc =>
    cases hcloses
    exact absurd hc (by decide)
  | _ => cases hcloses

section Lists

variable {α : Type} {f : α → List Bare}

/-- Where one of two lists goes on and the other does not, a comma or an item would have to stand
behind the shorter one. -/
theorem Commas.tells {xs : Commas α} (hitem : ∀ a ∈ xs.toList, Tells f Stops a)
    (hstarts : ∀ a ts r, Written (f a) ts → ¬ Closes (ts ++ r)) :
    Tells (Commas.bare f) Closes xs := by
  -- One list cannot end where the other goes on: what closes is neither a comma nor an entry.
  induction xs with
  | none =>
    intro ys ts us r r' hts hus hr hr' heq
    cases hts
    cases ys with
    | none =>
      cases hus
      exact ⟨rfl, heq⟩
    | last b =>
      rw [List.nil_append] at heq
      exact absurd (heq ▸ hr) (hstarts b us r' hus)
    | cons b ys =>
      obtain ⟨vs, spacing, span, vs', rfl, hvs, -⟩ := hus.split_sign
      rw [List.nil_append, List.append_assoc] at heq
      exact absurd (heq ▸ hr) (hstarts b vs _ hvs)
  | last a =>
    intro ys ts us r r' hts hus hr hr' heq
    have ha := hitem a List.mem_cons_self
    cases ys with
    | none =>
      cases hus
      rw [List.nil_append] at heq
      exact absurd (heq ▸ hr') (hstarts a ts r hts)
    | last b =>
      obtain ⟨rfl, hrest⟩ := ha b ts us r r' hts hus hr.stops hr'.stops heq
      exact ⟨rfl, hrest⟩
    | cons b ys =>
      obtain ⟨vs, spacing, span, vs', rfl, hvs, -⟩ := hus.split_sign
      rw [List.append_assoc] at heq
      obtain ⟨-, rfl⟩ := ha b ts vs r _ hts hvs hr.stops (.sign .comma _ _ _ (by decide)) heq
      exact absurd hr (not_closes_comma spacing span _)
  | cons a xs ih =>
    intro ys ts us r r' hts hus hr hr' heq
    have ha := hitem a List.mem_cons_self
    obtain ⟨vs, spacing, span, vs', rfl, hvs, hvs'⟩ := hts.split_sign
    rw [List.append_assoc] at heq
    cases ys with
    | none =>
      cases hus
      rw [List.nil_append] at heq
      exact absurd (heq ▸ hr') (hstarts a vs _ hvs)
    | last b =>
      obtain ⟨-, rfl⟩ := ha b vs us _ r' hvs hus (.sign .comma _ _ _ (by decide)) hr'.stops heq
      exact absurd hr' (not_closes_comma spacing span _)
    | cons b ys =>
      obtain ⟨ws, spacing', span', ws', rfl, hws, hws'⟩ := hus.split_sign
      rw [List.append_assoc] at heq
      obtain ⟨rfl, hrest⟩ := ha b vs ws _ _ hvs hws (.sign .comma _ _ _ (by decide))
        (.sign .comma _ _ _ (by decide)) heq
      have hmore := (List.cons.inj hrest).2
      obtain ⟨rfl, hrest⟩ := ih (fun b hb => hitem b (List.mem_cons_of_mem _ hb)) ys vs' ws' r r'
        hvs' hws' hr hr' hmore
      exact ⟨rfl, hrest⟩

end Lists

/-! ## Paths -/

theorem not_endsSegment {turbofish : Bool} {bs : List Bare} {ts : List Token}
    (hts : Written ((if turbofish then [.colons] else []) ++ .sign .less :: bs) ts)
    (r : List Token) : ¬ EndsSegment (ts ++ r) := by
  intro hends
  cases turbofish with
  | true =>
    cases hts with
    | colons spacing span span' hts =>
      cases hts with
      | sign _ _ _ _ =>
        cases hends with
        | stops h => exact absurd h.mark (by decide)
  | false =>
    cases hts with
    | sign _ spacing span _ =>
      cases hends with
      | stops h => exact absurd h.mark (by decide)

variable {t : PlainType}

theorem PlainType.tells_commas {args : Commas PlainType}
    (hargs : ∀ t ∈ args.toList, Tells PlainType.bare Stops t) :
    Tells PlainType.bareCommas Closes args := by
  have hstarts : ∀ t ts r, Written (PlainType.bare t) ts → ¬ Closes (ts ++ r) :=
    fun t ts r hts => (t.opens hts).not_closes r
  rw [funext PlainType.bareCommas_eq]
  exact Commas.tells hargs hstarts

theorem tells_angles {α : Type} {f : Commas α → List Bare} {xs : Commas α} (h : Tells f Closes xs) :
    Tells (fun xs => .sign .less :: (f xs ++ [.sign .greater])) (fun _ => True) xs := by
  intro ys ts us r r' hts hus _ _ heq
  cases hts with
  | sign _ _ _ hts => cases hus with
    | sign _ _ _ hus =>
      obtain ⟨vs, spacing, span, _, rfl, hvs, hnil⟩ := hts.split_sign
      cases hnil
      obtain ⟨ws, spacing', span', _, rfl, hws, hnil⟩ := hus.split_sign
      cases hnil
      have hrest := (List.cons.inj heq).2
      rw [List.append_eq, List.append_eq, List.append_assoc, List.append_assoc] at hrest
      obtain ⟨rfl, hrest⟩ := h ys vs ws _ _ hvs hws (.greater spacing span _)
        (.greater spacing' span' _) hrest
      exact ⟨rfl, (List.cons.inj hrest).2⟩

theorem PlainType.tells_arguments {args : Commas PlainType}
    (hargs : ∀ t ∈ args.toList, Tells PlainType.bare Stops t) :
    Tells (fun args => .sign .less :: (PlainType.bareCommas args ++ [.sign .greater]))
      (fun _ => True) args :=
  tells_angles (PlainType.tells_commas hargs)

theorem tells_turbofish (turbofish : Bool) :
    Tells (fun b : Bool => if b then [.colons] else []) (Look.op "::" · = false) turbofish := by
  refine Tells.optional false rfl ?starts ?present
  case starts =>
    intro b ts r hb hts hr
    obtain rfl := Bool.eq_true_of_not_eq_false hb
    cases hts with
    | colons _ _ _ _ => cases hr
  case present =>
    intro ha b ts us r r' hb hts hus _ _ heq
    obtain rfl := Bool.eq_true_of_not_eq_false ha
    obtain rfl := Bool.eq_true_of_not_eq_false hb
    cases hts with
    | colons _ _ _ hts => cases hus with
      | colons _ _ _ hus =>
        cases hts
        cases hus
        exact ⟨rfl, (List.cons.inj (List.cons.inj heq).2).2⟩

theorem op_colons_less {bs : List Bare} {ts : List Token} (hts : Written (.sign .less :: bs) ts)
    (r : List Token) : Look.op "::" (ts ++ r) = false := by
  cases hts with
  | sign _ _ _ _ => rfl

theorem Segment.tells {s : Segment} (hargs : ∀ t ∈ s.args, Tells PlainType.bare Stops t) :
    Tells Segment.bare EndsSegment s := by
  intro s' ts us r r' hts hus hr hr' heq
  cases s with
  | plain n =>
    cases s' with
    | plain n' =>
      cases hts with
      | word _ span hts => cases hus with
        | word _ span' hus =>
          cases hts
          cases hus
          obtain ⟨hname, hrest⟩ := List.cons.inj heq
          rw [PathWord.ext (Token.ident.inj hname).1]
          exact ⟨rfl, hrest⟩
    | generic n' turbofish args =>
      cases hts with
      | word _ span hts => cases hus with
        | word _ span' hus =>
          -- The arguments of the other name would stand behind this one.
          cases hts
          obtain rfl := (List.cons.inj heq).2
          exact absurd hr (not_endsSegment hus r')
  | generic n turbofish args =>
    cases s' with
    | plain n' =>
      cases hts with
      | word _ span hts => cases hus with
        | word _ span' hus =>
          cases hus
          obtain rfl := (List.cons.inj heq).2
          exact absurd hr' (not_endsSegment hts r)
    | generic n' turbofish' args' =>
      cases hts with
      | word _ span hts => cases hus with
        | word _ span' hus =>
          obtain ⟨hname, hrest⟩ := List.cons.inj heq
          obtain rfl := Name.ext (Token.ident.inj hname).1
          obtain ⟨cs, vs, rfl, hcs, hvs⟩ := Written.split hts
          obtain ⟨cs', vs', rfl, hcs', hvs'⟩ := Written.split hus
          rw [List.append_eq, List.append_eq, List.append_assoc, List.append_assoc] at hrest
          obtain ⟨rfl, hrest⟩ := tells_turbofish turbofish turbofish' cs cs' _ _ hcs hcs'
            (op_colons_less hvs r) (op_colons_less hvs' r') hrest
          obtain ⟨rfl, hr⟩ := PlainType.tells_arguments hargs args' vs vs' r r' hvs hvs' trivial
            trivial hrest
          exact ⟨rfl, hr⟩

theorem Segment.tells_more {more : List Segment}
    (hargs : ∀ s ∈ more, ∀ t ∈ s.args, Tells PlainType.bare Stops t) :
    Tells Segment.bareMore Stops more := by
  -- Where one path goes on with two colons, so does the other, for nothing that stops starts so.
  induction more with
  | nil =>
    intro more' ts us r r' hts hus hr hr' heq
    cases hts
    cases more' with
    | nil =>
      cases hus
      exact ⟨rfl, heq⟩
    | cons s more' =>
      cases hus with
      | colons _ _ _ _ =>
        obtain rfl : r = _ := heq
        exact absurd hr.mark (by decide)
  | cons s more ih =>
    intro more' ts us r r' hts hus hr hr' heq
    cases hts with
    | colons _ _ _ hts =>
      obtain ⟨vs, vs', rfl, hvs, hvs'⟩ := hts.split
      cases more' with
      | nil =>
        cases hus
        obtain rfl : r' = _ := heq.symm
        exact absurd hr'.mark (by decide)
      | cons s' more' =>
        cases hus with
        | colons _ _ _ hus =>
          obtain ⟨ws, ws', rfl, hws, hws'⟩ := hus.split
          have hnames := (List.cons.inj (List.cons.inj heq).2).2
          rw [List.append_eq, List.append_eq, List.append_assoc, List.append_assoc] at hnames
          obtain ⟨rfl, hrest⟩ := Segment.tells (hargs s List.mem_cons_self) s' vs ws _ _ hvs hws
            (endsSegment_more hvs' hr) (endsSegment_more hws' hr') hnames
          have hmore := ih fun s hs => hargs s (List.mem_cons_of_mem _ hs)
          obtain ⟨rfl, hrest⟩ := hmore more' vs' ws' r r' hvs' hws' hr hr' hrest
          exact ⟨rfl, hrest⟩

/-! ## Parameters -/

/-- A type that starts with a colon starts with two. -/
theorem PlainType.colons {t : PlainType} {ts r rest : List Token} {spacing : Spacing} {span : Span}
    (hts : Written t.bare ts) (heq : .punct ':' spacing span :: rest = ts ++ r) :
    Look.op ":" rest = true := by
  cases hroot : t.isRooted with
  | false =>
    have hcolon : Look.op.go [':'] (ts ++ r) = false := Grammar.go_colon_type hroot hts []
    rw [← heq] at hcolon
    cases hcolon
  | true =>
    cases t with
    | path rooted first more =>
      cases hroot
      cases hts with
      | colons _ _ _ _ =>
        obtain rfl := (List.cons.inj heq).2
        rfl
    | _ => cases hroot

/-- No parameter without a name starts with a name and a type. -/
theorem PlainType.ne_named {t u : PlainType} {ts us r r' : List Token} (name : ParamName)
    (span span' : Span) (spacing : Spacing) (hts : Written t.bare ts) (hus : Written u.bare us)
    (hr : Stops r) : ts ++ r ≠ .ident name.text span :: .punct ':' spacing span' :: (us ++ r') := by
  intro heq
  cases t with
  | path rooted first more =>
    cases rooted with
    | true => cases hts with
      | colons _ _ _ _ => cases heq
    | false =>
      obtain ⟨vs, vs', rfl, hvs, hvs'⟩ := Written.split (show Written (first.bare ++ _) ts from hts)
      cases first with
      | plain n =>
        cases hvs with
        | word _ _ hvs =>
          cases hvs
          have hmore := (List.cons.inj heq).2
          cases more with
          | nil =>
            cases hvs'
            obtain rfl : r = _ := hmore
            exact absurd hr.mark (by decide)
          | cons s more =>
            cases hvs' with
            | colons _ _ _ hvs' =>
              -- Of the colons behind the name one is that of the parameter, so the type of the
              -- parameter starts with the other; behind that stands a further colon, and no name.
              have hcolon := PlainType.colons hus (List.cons.inj hmore).2
              obtain ⟨ws, ws', rfl, hws, -⟩ := hvs'.split
              obtain ⟨_, _, rfl⟩ := Segment.head hws
              cases hcolon
      | generic n turbofish args =>
        cases hvs with
        | word _ _ hvs =>
          have hmore := (List.cons.inj heq).2
          cases turbofish with
          | false => cases hvs with
            | sign _ _ _ _ => cases hmore
          | true => cases hvs with
            | colons _ _ _ hvs => cases hvs with
              | sign _ _ _ _ => cases PlainType.colons hus (List.cons.inj hmore).2
  | function binder unchecked params result =>
    obtain ⟨w, _, _, rfl, hw⟩ := PlainType.function_head hts
    have hwords : ∀ w ∈ ["for", "unsafe", "extern"],
        (!reservedWords.contains w || w = "_") = false := by decide
    exact name.ne (hwords w hw) (Token.ident.inj (List.cons.inj heq).1).1.symm
  | reference lifetime mutable target => cases hts with
    | sign _ _ _ _ => cases heq
  | pointer mutable pointee => cases hts with
    | sign _ _ _ _ => cases heq
  | _ => cases hts with
    | group _ _ _ _ => cases heq

theorem Param.tells {p : Param} (htype : Tells PlainType.bare Stops p.type) :
    Tells Param.bare Stops p := by
  intro q ts us r r' hts hus hr hr' heq
  obtain ⟨name, t⟩ := p
  obtain ⟨name', u⟩ := q
  cases name with
  | none =>
    cases name' with
    | none =>
      obtain ⟨rfl, hrest⟩ := htype u ts us r r' hts hus hr hr' heq
      exact ⟨rfl, hrest⟩
    | some name' => cases hus with
      | word _ _ hus => cases hus with
        | sign _ _ _ hus => exact absurd heq (PlainType.ne_named name' _ _ _ hts hus hr)
  | some name =>
    cases hts with
    | word _ _ hts => cases hts with
      | sign _ _ _ hts =>
        cases name' with
        | none => exact absurd heq.symm (PlainType.ne_named name _ _ _ hus hts hr')
        | some name' => cases hus with
          | word _ _ hus => cases hus with
            | sign _ _ _ hus =>
              obtain ⟨hname, hrest⟩ := List.cons.inj heq
              obtain rfl := ParamName.ext (Token.ident.inj hname).1
              obtain ⟨rfl, hrest⟩ := htype u _ _ r r' hts hus hr hr' (List.cons.inj hrest).2
              exact ⟨rfl, hrest⟩

theorem Param.tells_commas {params : Commas Param}
    (hparams : ∀ p ∈ params.toList, Tells PlainType.bare Stops p.type) :
    Tells Param.bareCommas Closes params := by
  have hstarts : ∀ p ts r, Written (Param.bare p) ts → ¬ Closes (ts ++ r) :=
    fun p ts r hts => (p.opens hts).not_closes r
  rw [funext Param.bareCommas_eq]
  exact Commas.tells (fun p hp => Param.tells (hparams p hp)) hstarts

/-! ## Lifetimes, words and results -/

theorem tells_lifetime (R : List Token → Prop) (name : Word) :
    Tells (fun name : Word => [.lifetime name]) R name := by
  intro name' ts us r r' hts hus _ _ heq
  cases hts with
  | lifetime _ _ _ hts => cases hus with
    | lifetime _ _ _ hus =>
      cases hts
      cases hus
      obtain ⟨hname, hrest⟩ := List.cons.inj (List.cons.inj heq).2
      exact ⟨Token.Word.ext (Token.ident.inj hname).1, hrest⟩

theorem tells_lifetime? (lifetime : Option Word) :
    Tells (fun l : Option Word => l.toList.map .lifetime) (Look.lifetime · = false) lifetime := by
  refine Tells.optional none rfl ?starts ?present
  case starts =>
    intro b ts r hb hts hr
    obtain ⟨w, rfl⟩ := Option.ne_none_iff_exists'.mp hb
    cases hts with
    | lifetime _ _ _ _ => cases hr
  case present =>
    intro ha b ts us r r' hb hts hus _ _ heq
    obtain ⟨w, rfl⟩ := Option.ne_none_iff_exists'.mp ha
    obtain ⟨w', rfl⟩ := Option.ne_none_iff_exists'.mp hb
    obtain ⟨rfl, hrest⟩ := tells_lifetime (fun _ => True) w w' ts us r r' hts hus trivial trivial heq
    exact ⟨rfl, hrest⟩

theorem tells_word (w : Word) (present : Bool) :
    Tells (fun b : Bool => if b then [.word w] else []) (Look.word w.text · = false) present := by
  refine Tells.optional false rfl ?starts ?present
  case starts =>
    intro b ts r hb hts hr
    obtain rfl := Bool.eq_true_of_not_eq_false hb
    cases hts with
    | word _ _ _ => exact absurd rfl (of_decide_eq_false hr)
  case present =>
    intro ha b ts us r r' hb hts hus _ _ heq
    obtain rfl := Bool.eq_true_of_not_eq_false ha
    obtain rfl := Bool.eq_true_of_not_eq_false hb
    cases hts with
    | word _ _ hts => cases hus with
      | word _ _ hus =>
        cases hts
        cases hus
        exact ⟨rfl, (List.cons.inj heq).2⟩

theorem tells_lifetimes (names : Commas Word) :
    Tells (Commas.bare fun name => [.lifetime name]) Closes names := by
  refine Commas.tells (fun name _ => tells_lifetime Stops name) fun name ts r hts hcloses => ?_
  cases hts with
  | lifetime _ _ _ _ => cases hcloses

theorem tells_binder (binder : Option (Commas Word)) :
    Tells binderBare (Look.word "for" · = false) binder := by
  refine Tells.optional none rfl ?starts ?present
  case starts =>
    intro b ts r hb hts hr
    obtain ⟨names, rfl⟩ := Option.ne_none_iff_exists'.mp hb
    cases hts with
    | word _ _ _ => cases hr
  case present =>
    intro ha b ts us r r' hb hts hus _ _ heq
    obtain ⟨names, rfl⟩ := Option.ne_none_iff_exists'.mp ha
    obtain ⟨names', rfl⟩ := Option.ne_none_iff_exists'.mp hb
    cases hts with
    | word _ _ hts => cases hus with
      | word _ _ hus =>
        obtain ⟨rfl, hrest⟩ := tells_angles (tells_lifetimes names) names' _ _ r r' hts hus
          trivial trivial (List.cons.inj heq).2
        exact ⟨rfl, hrest⟩

theorem PlainType.tells_result {result : Option PlainType}
    (hresult : ∀ t ∈ result, Tells PlainType.bare Stops t) :
    Tells PlainType.bareResult Stops result := by
  refine Tells.optional none rfl ?starts ?present
  case starts =>
    intro b ts r hb hts hr
    obtain ⟨t, rfl⟩ := Option.ne_none_iff_exists'.mp hb
    cases hts with
    | arrow _ _ _ _ =>
      exact absurd hr.mark (by decide)
  case present =>
    intro ha b ts us r r' hb hts hus hr hr' heq
    obtain ⟨t, rfl⟩ := Option.ne_none_iff_exists'.mp ha
    obtain ⟨u, rfl⟩ := Option.ne_none_iff_exists'.mp hb
    cases hts with
    | arrow _ _ _ hts => cases hus with
      | arrow _ _ _ hus =>
        obtain ⟨rfl, hrest⟩ := hresult t rfl u _ _ r r' hts hus hr hr'
          (List.cons.inj (List.cons.inj heq).2).2
        exact ⟨rfl, hrest⟩

end Graft

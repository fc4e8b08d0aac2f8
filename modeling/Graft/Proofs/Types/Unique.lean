import Graft.Proofs.Types.UniqueParts

/-!
# One type for each token sequence

The tokens of a plain type are the tokens of no other, even if it is not said where the type ends.
-/

namespace Graft

open Token (Word Whole Bare Written)
open Grammar (EndsSegment endsSegment_more)

/-- The kinds of types that their first token tells apart. -/
inductive Lead where
  | path (rooted : Bool)
  | reference
  | pointer
  | parenthesis
  | bracket
  | function
  | other

def PlainType.lead : PlainType → Lead
  | .path rooted _ _ => .path rooted
  | .reference .. => .reference
  | .pointer .. => .pointer
  | .unit | .tuple .. => .parenthesis
  | .slice _ | .array .. => .bracket
  | .function .. => .function

def Lead.of : List Token → Lead
  | .ident w _ :: _ => if w ∈ ["for", "unsafe", "extern"] then .function else .path false
  | .punct c _ _ :: _ => if c = ':' then .path true else if c = '&' then .reference else .pointer
  | .group d _ _ :: _ => if d = .parenthesis then .parenthesis else .bracket
  | _ => .other

theorem PlainType.lead_eq {t : PlainType} {ts : List Token} (hts : Written t.bare ts)
    (r : List Token) : Lead.of (ts ++ r) = t.lead := by
  cases t with
  | path rooted first more =>
    cases rooted with
    | true => cases hts with
      | colons _ _ _ _ => rfl
    | false =>
      obtain ⟨span, us, rfl⟩ := PlainType.path_head hts
      have hwords : ∀ w ∈ ["for", "unsafe", "extern"],
          (!reservedWords.contains w || ["super", "self", "Self", "crate"].contains w) = false := by
        decide
      exact if_neg fun hw => first.name.ne (hwords _ hw) rfl
  | function binder unchecked params result =>
    obtain ⟨w, span, us, rfl, hw⟩ := PlainType.function_head hts
    exact if_pos hw
  | reference lifetime mutable target => cases hts with
    | sign _ _ _ _ => rfl
  | pointer mutable pointee => cases hts with
    | sign _ _ _ _ => rfl
  | _ => cases hts with
    | group _ _ _ _ => rfl

theorem PlainType.lead_eq_lead {t u : PlainType} {ts us r r' : List Token}
    (hts : Written t.bare ts) (hus : Written u.bare us) (heq : ts ++ r = us ++ r') :
    t.lead = u.lead := by
  rw [← PlainType.lead_eq hts r, ← PlainType.lead_eq hus r', heq]

theorem PlainType.tells_path {rooted : Bool} {first : Segment} {more : List Segment}
    (hfirst : Tells Segment.bare EndsSegment first) (hmore : Tells Segment.bareMore Stops more) :
    Tells PlainType.bare Stops (.path rooted first more) := by
  have hnames : ∀ {first' more' ts us r r'}, Written (first.bare ++ Segment.bareMore more) ts →
      Written (first'.bare ++ Segment.bareMore more') us → Stops r → Stops r' →
      ts ++ r = us ++ r' → first = first' ∧ more = more' ∧ r = r' := by
    intro first' more' ts us r r' hts hus hr hr' heq
    obtain ⟨vs, vs', rfl, hvs, hvs'⟩ := hts.split
    obtain ⟨ws, ws', rfl, hws, hws'⟩ := hus.split
    rw [List.append_assoc, List.append_assoc] at heq
    obtain ⟨rfl, hrest⟩ := hfirst first' vs ws _ _ hvs hws (endsSegment_more hvs' hr)
      (endsSegment_more hws' hr') heq
    exact ⟨rfl, hmore more' vs' ws' r r' hvs' hws' hr hr' hrest⟩
  intro u ts us r r' hts hus hr hr' heq
  have hlead := PlainType.lead_eq_lead hts hus heq
  -- The two types lead in the same way, so both start with `::` or neither does.
  cases u with
  | path rooted' first' more' =>
    cases hlead
    cases rooted with
    | false =>
      obtain ⟨rfl, rfl, hrest⟩ := hnames hts hus hr hr' heq
      exact ⟨rfl, hrest⟩
    | true => cases hts with
      | colons _ _ _ hts => cases hus with
        | colons _ _ _ hus =>
          have hmore := (List.cons.inj (List.cons.inj heq).2).2
          obtain ⟨rfl, rfl, hrest⟩ := hnames hts hus hr hr' hmore
          exact ⟨rfl, hrest⟩
  | _ => cases hlead

theorem PlainType.tells_reference {lifetime : Option Word} {mutable : Bool} {target : PlainType}
    (htarget : Tells PlainType.bare Stops target) :
    Tells PlainType.bare Stops (.reference lifetime mutable target) := by
  intro u ts us r r' hts hus hr hr' heq
  have hlead := PlainType.lead_eq_lead hts hus heq
  cases u with
  | reference lifetime' mutable' target' => cases hts with
    | sign _ _ _ hts => cases hus with
      | sign _ _ _ hus =>
        obtain ⟨ls, _, rfl, hls, hmore⟩ := hts.split
        obtain ⟨ms, vs, rfl, hms, hvs⟩ := hmore.split
        obtain ⟨ls', _, rfl, hls', hmore'⟩ := hus.split
        obtain ⟨ms', vs', rfl, hms', hvs'⟩ := hmore'.split
        -- Behind the lifetime stands `mut` or the target, and behind `mut` the target.
        have hopens := (target.opens hvs).append r
        have hopens' := (target'.opens hvs').append r'
        have hrest := (List.cons.inj heq).2
        simp only [List.append_eq, List.append_assoc] at hrest
        obtain ⟨rfl, hrest⟩ := tells_lifetime? lifetime lifetime' ls ls' _ _ hls hls'
          (hopens.lifetime_mutable hms) (hopens'.lifetime_mutable hms') hrest
        obtain ⟨rfl, hrest⟩ := tells_word .mutable mutable mutable' ms ms' _ _ hms hms'
          (hopens.word_eq_false (by decide)) (hopens'.word_eq_false (by decide)) hrest
        obtain ⟨rfl, hrest⟩ := htarget target' vs vs' r r' hvs hvs' hr hr' hrest
        exact ⟨rfl, hrest⟩
  | _ => cases hlead

theorem PlainType.tells_pointer {mutable : Bool} {pointee : PlainType}
    (hpointee : Tells PlainType.bare Stops pointee) :
    Tells PlainType.bare Stops (.pointer mutable pointee) := by
  intro u ts us r r' hts hus hr hr' heq
  have hlead := PlainType.lead_eq_lead hts hus heq
  cases u with
  | pointer mutable' pointee' => cases hts with
    | sign _ _ _ hts => cases hts with
      | word _ _ hts => cases hus with
        | sign _ _ _ hus => cases hus with
          | word _ _ hus =>
            obtain ⟨hword, hrest⟩ := List.cons.inj (List.cons.inj heq).2
            obtain ⟨rfl, hrest⟩ := hpointee pointee' _ _ r r' hts hus hr hr' hrest
            have hmutable : mutable = mutable' := by
              cases mutable <;> cases mutable' <;>
                first | rfl | exact absurd (Token.ident.inj hword).1 (by decide)
            rw [hmutable]
            exact ⟨rfl, hrest⟩
  | _ => cases hlead

/-- Behind a binder no binder stands, and behind a mark no mark. -/
theorem function_words {unchecked : Bool} {bs : List Bare} {ms us : List Token}
    (hms : Written (if unchecked then [.word .unchecked] else []) ms)
    (hus : Written (.word .foreign :: bs) us) (r : List Token) :
    Look.word "for" (ms ++ (us ++ r)) = false ∧ Look.word "unsafe" (us ++ r) = false := by
  cases hus with
  | word _ _ _ =>
    cases unchecked with
    | false =>
      cases hms
      exact ⟨rfl, rfl⟩
    | true => cases hms with
      | word _ _ _ => exact ⟨rfl, rfl⟩

theorem PlainType.tells_function {binder : Option (Commas Word)} {unchecked : Bool}
    {params : Commas Param} {result : Option PlainType}
    (hparams : Tells Param.bareCommas Closes params)
    (hresult : Tells PlainType.bareResult Stops result) :
    Tells PlainType.bare Stops (.function binder unchecked params result) := by
  intro u ts us r r' hts hus hr hr' heq
  have hlead := PlainType.lead_eq_lead hts hus heq
  obtain ⟨binder', unchecked', params', result', rfl⟩ : ∃ binder' unchecked' params' result',
      u = .function binder' unchecked' params' result' := by
    cases u with
    | function binder' unchecked' params' result' => exact ⟨_, _, _, _, rfl⟩
    | _ => cases hlead
  rw [PlainType.bare] at hts hus
  obtain ⟨bs, _, rfl, hbs, hmore⟩ := hts.split
  obtain ⟨ms, fs, rfl, hms, hfs⟩ := hmore.split
  obtain ⟨bs', _, rfl, hbs', hmore'⟩ := hus.split
  obtain ⟨ms', fs', rfl, hms', hfs'⟩ := hmore'.split
  obtain ⟨hfor, hunsafe⟩ := function_words hms hfs r
  obtain ⟨hfor', hunsafe'⟩ := function_words hms' hfs' r'
  simp only [List.append_assoc] at heq
  obtain ⟨rfl, hrest⟩ := tells_binder binder binder' bs bs' _ _ hbs hbs' hfor hfor' heq
  obtain ⟨rfl, hrest⟩ := tells_word .unchecked unchecked unchecked' ms ms' _ _ hms hms' hunsafe
    hunsafe' hrest
  -- The convention, the word and the group of the parameters are three tokens each.
  cases hfs with
  | word _ _ hfs => cases hfs with
    | convention _ hfs => cases hfs with
      | word _ _ hfs => cases hfs with
        | group _ _ hps hfs => cases hfs' with
          | word _ _ hfs' => cases hfs' with
            | convention _ hfs' => cases hfs' with
              | word _ _ hfs' => cases hfs' with
                | group _ _ hps' hfs' =>
                  have hfn := (List.cons.inj (List.cons.inj hrest).2).2
                  obtain ⟨hgroup, hrest⟩ := List.cons.inj (List.cons.inj hfn).2
                  have hinner := congrArg (· ++ []) (Token.group.inj hgroup).2.1
                  obtain ⟨rfl, -⟩ := hparams params' _ _ [] [] hps hps' .nil .nil hinner
                  obtain ⟨rfl, hrest⟩ := hresult result' _ _ r r' hfs hfs' hr hr' hrest
                  exact ⟨rfl, hrest⟩

theorem tells_group {d d' : Delimiter} {bs bs' : List Bare}
    {ts us r r' : List Token} (hts : Written [.group d bs] ts) (hus : Written [.group d' bs'] us)
    (heq : ts ++ r = us ++ r') : ∃ vs, Written bs vs ∧ Written bs' vs ∧ r = r' := by
  cases hts with
  | group _ _ hts hnil => cases hus with
    | group _ _ hus hnil' =>
      cases hnil
      cases hnil'
      obtain ⟨hgroup, hrest⟩ := List.cons.inj heq
      exact ⟨_, hts, (Token.group.inj hgroup).2.1 ▸ hus, hrest⟩

theorem PlainType.tells_unit : Tells PlainType.bare Stops .unit := by
  intro u ts us r r' hts hus hr hr' heq
  have hlead := PlainType.lead_eq_lead hts hus heq
  cases u with
  | unit =>
    obtain ⟨vs, -, -, hrest⟩ := tells_group hts hus heq
    exact ⟨rfl, hrest⟩
  | tuple first' rest' =>
    -- A tuple has a comma inside.
    obtain ⟨vs, hvs, hvs', -⟩ := tells_group hts hus heq
    cases hvs
    obtain ⟨ws, _, _, _, hnil, -, -⟩ := hvs'.split_sign
    cases ws <;> cases hnil
  | _ => cases hlead

theorem PlainType.tells_tuple {first : PlainType} {rest : Commas PlainType}
    (hfirst : Tells PlainType.bare Stops first)
    (hrest : Tells PlainType.bareCommas Closes rest) :
    Tells PlainType.bare Stops (.tuple first rest) := by
  intro u ts us r r' hts hus hr hr' heq
  have hlead := PlainType.lead_eq_lead hts hus heq
  cases u with
  | unit =>
    obtain ⟨vs, hvs, hvs', -⟩ := tells_group hts hus heq
    cases hvs'
    obtain ⟨ws, _, _, _, hnil, -, -⟩ := hvs.split_sign
    cases ws <;> cases hnil
  | tuple first' rest' =>
    obtain ⟨vs, hvs, hvs', hr⟩ := tells_group hts hus heq
    obtain ⟨ws, _, _, xs, rfl, hws, hxs⟩ := hvs.split_sign
    obtain ⟨ws', _, _, xs', heq, hws', hxs'⟩ := hvs'.split_sign
    obtain ⟨rfl, hmore⟩ := hfirst first' ws ws' _ _ hws hws' (.sign .comma _ _ _ (by decide))
      (.sign .comma _ _ _ (by decide)) heq
    obtain rfl := (List.cons.inj hmore).2
    obtain ⟨rfl, -⟩ := hrest rest' xs xs [] [] hxs hxs' .nil .nil rfl
    exact ⟨rfl, hr⟩
  | _ => cases hlead

theorem PlainType.tells_slice {element : PlainType}
    (helement : Tells PlainType.bare Stops element) :
    Tells PlainType.bare Stops (.slice element) := by
  intro u ts us r r' hts hus hr hr' heq
  have hlead := PlainType.lead_eq_lead hts hus heq
  cases u with
  | slice element' =>
    obtain ⟨vs, hvs, hvs', hrest⟩ := tells_group hts hus heq
    obtain ⟨rfl, -⟩ := helement element' vs vs [] [] hvs hvs' .nil .nil rfl
    exact ⟨rfl, hrest⟩
  | array element' length' =>
    -- Behind the element stands a semicolon or nothing.
    obtain ⟨vs, hvs, hvs', -⟩ := tells_group hts hus heq
    obtain ⟨ws, spacing, span, xs, rfl, hws, -⟩ := hvs'.split_sign
    obtain ⟨-, hnil⟩ := helement element' _ ws [] _ hvs hws .nil
      (.sign .semicolon spacing span xs (by decide)) (List.append_nil _)
    cases hnil
  | _ => cases hlead

theorem PlainType.tells_array {element : PlainType} {length : Whole}
    (helement : Tells PlainType.bare Stops element) :
    Tells PlainType.bare Stops (.array element length) := by
  intro u ts us r r' hts hus hr hr' heq
  have hlead := PlainType.lead_eq_lead hts hus heq
  cases u with
  | slice element' =>
    obtain ⟨vs, hvs, hvs', -⟩ := tells_group hts hus heq
    obtain ⟨ws, spacing, span, xs, rfl, hws, -⟩ := hvs.split_sign
    obtain ⟨-, hnil⟩ := helement element' ws _ _ [] hws hvs'
      (.sign .semicolon spacing span xs (by decide)) .nil (List.append_nil _).symm
    cases hnil
  | array element' length' =>
    obtain ⟨vs, hvs, hvs', hrest⟩ := tells_group hts hus heq
    obtain ⟨ws, _, _, xs, rfl, hws, hxs⟩ := hvs.split_sign
    obtain ⟨ws', _, _, xs', heq, hws', hxs'⟩ := hvs'.split_sign
    obtain ⟨rfl, hmore⟩ := helement element' ws ws' _ _ hws hws'
      (.sign .semicolon _ _ _ (by decide)) (.sign .semicolon _ _ _ (by decide)) heq
    cases hxs with
    | whole _ _ _ => cases hxs' with
      | whole _ _ _ =>
        have htoken := (List.cons.inj (List.cons.inj hmore).2).1
        rw [Token.Whole.ext (Token.literal.inj htoken).1]
        exact ⟨rfl, hrest⟩
  | _ => cases hlead

/-- No two types have a token sequence in common, however it goes on behind them. -/
theorem PlainType.tells (t : PlainType) : Tells PlainType.bare Stops t := by
  induction t using PlainType.parts_induction with
  | step t ih =>
    cases t with
    | path rooted first more =>
      refine PlainType.tells_path (Segment.tells fun u hu => ih u (List.mem_append_left _ hu)) ?_
      refine Segment.tells_more fun s hs u hu => ih u (List.mem_append_right _ ?_)
      exact List.mem_flatMap.mpr ⟨s, hs, hu⟩
    | reference lifetime mutable target =>
      exact PlainType.tells_reference (ih target List.mem_cons_self)
    | pointer mutable pointee => exact PlainType.tells_pointer (ih pointee List.mem_cons_self)
    | unit => exact PlainType.tells_unit
    | tuple first rest =>
      exact PlainType.tells_tuple (ih first List.mem_cons_self)
        (PlainType.tells_commas fun u hu => ih u (List.mem_cons_of_mem _ hu))
    | slice element => exact PlainType.tells_slice (ih element List.mem_cons_self)
    | array element length => exact PlainType.tells_array (ih element List.mem_cons_self)
    | function binder unchecked params result =>
      refine PlainType.tells_function (Param.tells_commas fun p hp => ?_)
        (PlainType.tells_result fun u hu => ?_)
      · exact ih p.type (List.mem_append_left _ (List.mem_map_of_mem hp))
      · exact ih u (List.mem_append_right _ (Option.mem_toList.mpr hu))

theorem PlainType.eq_of_written {t u : PlainType} {ts : List Token} (hts : Written t.bare ts)
    (hus : Written u.bare ts) : t = u :=
  (t.tells u ts ts [] [] hts hus .nil .nil rfl).1

end Graft

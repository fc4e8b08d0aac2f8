import Graft.Grammar.Look

/-!
# Tests before more tokens

A semicolon on its own and a group in braces end an item, and no test on the tokens ahead looks past
such a token: as long as one is still to come, the answer does not depend on what stands behind it.
-/

namespace Graft

/-- A token that ends an item wherever it stands: a semicolon on its own or a group in braces. -/
def Token.endsItem : Token → Bool
  | .punct c .alone _ => c = ';'
  | .group .brace _ _ => true
  | _ => false

/-- The tokens hold the end of an item. -/
class HoldsEnd (ts : List Token) : Prop where
  exists_end : ∃ t ∈ ts, t.endsItem = true

theorem HoldsEnd.of_suffix {ts us : List Token} (h : HoldsEnd ts) (hsuffix : ts <:+ us) :
    HoldsEnd us := by
  obtain ⟨t, ht, hend⟩ := h.exists_end
  exact ⟨t, hsuffix.subset ht, hend⟩

/-- Tokens that hold the end of an item, as one value that a search for instances can name. -/
structure Ending where
  tokens : List Token
  holdsEnd : HoldsEnd tokens

attribute [instance] Ending.holdsEnd

theorem not_holdsEnd_nil : ¬ HoldsEnd [] := by
  intro h
  obtain ⟨t, ht, -⟩ := h.exists_end
  cases ht

/-- Tokens that hold the end of an item start with one. -/
theorem Ending.exists_cons (e : Ending) : ∃ t ts, e.tokens = t :: ts := by
  obtain ⟨ts, hts⟩ := e
  cases ts with
  | nil => exact absurd hts not_holdsEnd_nil
  | cons t ts => exact ⟨t, ts, rfl⟩

/-- Behind a token that ends no item the end is still to come. -/
theorem HoldsEnd.tail {t : Token} {ts : List Token} (h : HoldsEnd (t :: ts))
    (ht : t.endsItem = false) : HoldsEnd ts := by
  obtain ⟨u, hu, hend⟩ := h.exists_end
  rcases List.mem_cons.mp hu with rfl | hu
  · rw [ht] at hend
    cases hend
  · exact ⟨u, hu, hend⟩

/-- The same answer with more tokens behind as without. -/
class Kept (x x' : Bool) : Prop where
  eq : x' = x

namespace Kept

variable {x x' y y' : Bool}

instance (priority := low) refl (x : Bool) : Kept x x := ⟨rfl⟩

instance not [h : Kept x x'] : Kept (!x) (!x') := ⟨congrArg Bool.not h.eq⟩

instance and [h : Kept x x'] [h' : Kept y y'] : Kept (x && y) (x' && y') :=
  ⟨by rw [h.eq, h'.eq]⟩

instance or [h : Kept x x'] [h' : Kept y y'] : Kept (x || y) (x' || y') :=
  ⟨by rw [h.eq, h'.eq]⟩

/-- The second test counts only where the first one holds. -/
theorem guarded [h : Kept x x'] (h' : x = true → Kept y y') : Kept (x && y) (x' && y') := by
  rw [h.eq]
  cases x with
  | false => exact ⟨rfl⟩
  | true => exact ⟨(h' rfl).eq⟩

end Kept

namespace Look

variable {more ts : List Token}

theorem go_before (cs : List Char) (more : List Token) (h : HoldsEnd ts) :
    op.go cs (ts ++ more) = op.go cs ts := by
  induction cs generalizing ts with
  | nil =>
    cases ts with
    | nil => exact absurd h not_holdsEnd_nil
    | cons t ts => cases t <;> rfl
  | cons c cs ih =>
    cases ts with
    | nil => exact absurd h not_holdsEnd_nil
    | cons t ts =>
      cases t with
      | punct c' spacing span =>
        cases cs with
        | nil => rfl
        | cons d cs =>
          show (decide (c = c') && decide (spacing = .joint) && op.go (d :: cs) (ts ++ more)) =
            (decide (c = c') && decide (spacing = .joint) && op.go (d :: cs) ts)
          -- A mark that runs on ends no item.
          cases spacing with
          | joint => rw [ih (h.tail rfl)]
          | alone => simp
      | _ => cases cs <;> rfl

section

variable [h : HoldsEnd ts]

instance kept_op (s : String) : Kept (op s ts) (op s (ts ++ more)) := ⟨go_before _ more h⟩

instance kept_word (name : String) : Kept (word name ts) (word name (ts ++ more)) := by
  rcases ts with _ | ⟨_ | _ | _ | _, _⟩
  · exact absurd h not_holdsEnd_nil
  all_goals exact ⟨rfl⟩

instance kept_anyWord : Kept (anyWord ts) (anyWord (ts ++ more)) := by
  rcases ts with _ | ⟨_ | _ | _ | _, _⟩
  · exact absurd h not_holdsEnd_nil
  all_goals exact ⟨rfl⟩

instance kept_name : Kept (name ts) (name (ts ++ more)) := by
  rcases ts with _ | ⟨_ | _ | _ | _, _⟩
  · exact absurd h not_holdsEnd_nil
  all_goals exact ⟨rfl⟩

instance kept_text : Kept (text ts) (text (ts ++ more)) := by
  rcases ts with _ | ⟨_ | _ | _ | _, _⟩
  · exact absurd h not_holdsEnd_nil
  all_goals exact ⟨rfl⟩

instance kept_group (d : Delimiter) : Kept (group d ts) (group d (ts ++ more)) := by
  rcases ts with _ | ⟨_ | _ | _ | _, _⟩
  · exact absurd h not_holdsEnd_nil
  all_goals exact ⟨rfl⟩

instance kept_parens : Kept (parens ts) (parens (ts ++ more)) := kept_group _

instance kept_brackets : Kept (brackets ts) (brackets (ts ++ more)) := kept_group _

instance kept_braces : Kept (braces ts) (braces (ts ++ more)) := kept_group _

/-- A mark that a second token belongs to ends no item, so that the second token is there. -/
theorem exists_second {c : Char} {spacing : Spacing} {span : Span} {us : List Token}
    (hc : c ≠ ';') (hus : HoldsEnd (.punct c spacing span :: us)) : ∃ t vs, us = t :: vs := by
  have htail : HoldsEnd us := hus.tail (by cases spacing <;> simp [Token.endsItem, hc])
  cases us with
  | nil => exact absurd htail not_holdsEnd_nil
  | cons t vs => exact ⟨t, vs, rfl⟩

instance kept_lifetime : Kept (lifetime ts) (lifetime (ts ++ more)) := by
  rcases ts with _ | ⟨_ | ⟨c, spacing, span⟩ | _ | _, us⟩
  · exact absurd h not_holdsEnd_nil
  any_goals exact ⟨rfl⟩
  by_cases hc : c = '\''
  · subst hc
    obtain ⟨t, us, rfl⟩ := exists_second (by decide) h
    cases spacing <;> cases t <;> exact ⟨rfl⟩
  · constructor
    simp [lifetime, hc]

instance kept_literal : Kept (literal ts) (literal (ts ++ more)) := by
  rcases ts with _ | ⟨_ | ⟨c, spacing, span⟩ | _ | _, us⟩
  · exact absurd h not_holdsEnd_nil
  any_goals exact ⟨rfl⟩
  by_cases hc : c = '-'
  · subst hc
    obtain ⟨t, us, rfl⟩ := exists_second (by decide) h
    cases t <;> exact ⟨rfl⟩
  · constructor
    simp [literal, hc]

instance kept_int : Kept (int ts) (int (ts ++ more)) := by
  rcases ts with _ | ⟨_ | ⟨c, spacing, span⟩ | _ | _, us⟩
  · exact absurd h not_holdsEnd_nil
  any_goals exact ⟨rfl⟩
  by_cases hc : c = '-'
  · subst hc
    obtain ⟨t, us, rfl⟩ := exists_second (by decide) h
    cases t <;> exact ⟨rfl⟩
  · constructor
    simp [int, hc]

instance kept_isEmpty : Kept ts.isEmpty (ts ++ more).isEmpty := by
  cases ts with
  | nil => exact absurd h not_holdsEnd_nil
  | cons t ts => exact ⟨rfl⟩

instance kept_any (names : List String) (test : String → List Token → Bool)
    [htest : ∀ s, Kept (test s ts) (test s (ts ++ more))] :
    Kept (names.any (test · ts)) (names.any (test · (ts ++ more))) :=
  ⟨congrArg names.any (funext fun s => (htest s).eq)⟩

instance kept_opOnly (s : String) (longer : List String) :
    Kept (opOnly s longer ts) (opOnly s longer (ts ++ more)) := by
  unfold opOnly
  infer_instance

instance kept_oneOf (names : List String) : Kept (oneOf names ts) (oneOf names (ts ++ more)) :=
  kept_any names word

/-- An item ends at the first token, or what follows it goes on with `more`. -/
theorem second_before (ts more : List Token) [h : HoldsEnd ts] :
    (∃ t us, ts = t :: us ∧ t.endsItem = true) ∨
      HoldsEnd (second ts) ∧ second (ts ++ more) = second ts ++ more := by
  cases ts with
  | nil => exact absurd h not_holdsEnd_nil
  | cons t us =>
    by_cases ht : t.endsItem = true
    · exact .inl ⟨t, us, rfl, ht⟩
    rw [Bool.not_eq_true] at ht
    have htail : HoldsEnd us := h.tail ht
    refine .inr ?_
    obtain ⟨u, vs, rfl⟩ : ∃ u vs, us = u :: vs := by
      cases us with
      | nil => exact absurd htail not_holdsEnd_nil
      | cons u vs => exact ⟨u, vs, rfl⟩
    -- Of a lifetime the word behind its mark is passed over as well.
    by_cases hlifetime : (∃ span, t = .punct '\'' .joint span) ∧ ∃ name span, u = .ident name span
    · obtain ⟨⟨span, rfl⟩, name, span', rfl⟩ := hlifetime
      exact ⟨htail.tail rfl, rfl⟩
    · have hsecond : ∀ ws, second (t :: u :: ws) = u :: ws := by
        intro ws
        unfold second
        split
        next heq =>
          obtain ⟨hmark, hbehind⟩ := List.cons.inj heq
          exact absurd ⟨⟨_, hmark⟩, _, _, (List.cons.inj hbehind).1⟩ hlifetime
        next heq => exact (List.cons.inj heq).2.symm
        next heq => cases heq
      rw [List.cons_append, List.cons_append, hsecond, hsecond]
      exact ⟨htail, rfl⟩

end

/-- A token that ends an item is a semicolon or a group in braces. -/
theorem endsItem_cases {t : Token} (h : t.endsItem = true) :
    (∃ span, t = .punct ';' .alone span) ∨ ∃ inner span, t = .group .brace inner span := by
  rcases t with _ | ⟨c, _ | _, span⟩ | _ | ⟨_ | _ | _, inner, span⟩
  any_goals cases h
  · have hc : c = ';' := of_decide_eq_true h
    exact .inl ⟨span, by rw [hc]⟩
  · exact .inr ⟨inner, span, rfl⟩

/-- The test `x` on `ts` holds only before the end of an item. -/
class Guard (x : Bool) (ts : List Token) : Prop where
  eq_false {t : Token} {us : List Token} : ts = t :: us → t.endsItem = true → x = false

section

variable {x x' y : Bool}

/-- Guards are tests that fail at a semicolon and at a group in braces. -/
theorem Guard.of_ends (test : List Token → Bool) (ts : List Token)
    (hmark : ∀ span us, test (.punct ';' .alone span :: us) = false)
    (hbraces : ∀ inner span us, test (.group .brace inner span :: us) = false) :
    Guard (test ts) ts where
  eq_false hts ht := by
    subst hts
    rcases endsItem_cases ht with ⟨span, rfl⟩ | ⟨inner, span, rfl⟩
    · exact hmark _ _
    · exact hbraces _ _ _

instance guard_word (name : String) : Guard (word name ts) ts :=
  .of_ends (word name) ts (fun _ _ => rfl) fun _ _ _ => rfl

instance guard_anyWord : Guard (anyWord ts) ts :=
  .of_ends anyWord ts (fun _ _ => rfl) fun _ _ _ => rfl

instance guard_name : Guard (name ts) ts :=
  .of_ends name ts (fun _ _ => rfl) fun _ _ _ => rfl

instance guard_lifetime : Guard (lifetime ts) ts :=
  .of_ends lifetime ts (fun _ _ => rfl) fun _ _ _ => rfl

instance guard_oneOf (names : List String) : Guard (oneOf names ts) ts :=
  .of_ends (oneOf names) ts (fun _ _ => List.any_eq_false.mpr fun _ _ => Bool.false_ne_true)
    fun _ _ _ => List.any_eq_false.mpr fun _ _ => Bool.false_ne_true

theorem guard_op {s : String} (hs : s.toList.head? ≠ some ';') : Guard (op s ts) ts := by
  refine .of_ends (op s) ts (fun span us => ?_) fun inner span us => ?_
  · unfold op
    rcases hcs : s.toList with _ | ⟨c, _ | ⟨d, cs⟩⟩
    · rfl
    · have hc : c ≠ ';' := by
        rintro rfl
        rw [hcs] at hs
        exact hs rfl
      simp [op.go, hc]
    · simp [op.go]
  · unfold op
    rcases s.toList with _ | ⟨c, _ | ⟨d, cs⟩⟩ <;> rfl

instance guard_less : Guard (op "<" ts) ts := guard_op (by decide)
instance guard_ampersand : Guard (op "&" ts) ts := guard_op (by decide)
instance guard_question : Guard (op "?" ts) ts := guard_op (by decide)
instance guard_exclamation : Guard (op "!" ts) ts := guard_op (by decide)

instance guard_and [h : Guard x ts] : Guard (x && y) ts :=
  ⟨fun hts ht => by rw [h.eq_false hts ht, Bool.false_and]⟩

instance guard_or [h : Guard x ts] [h' : Guard y ts] : Guard (x || y) ts :=
  ⟨fun hts ht => by rw [h.eq_false hts ht, h'.eq_false hts ht, Bool.false_or]⟩

/-- Behind a guard the end of the item is still to come. -/
theorem Guard.second (hguard : Guard x ts) [HoldsEnd ts] (hx : x = true) (more : List Token) :
    HoldsEnd (Look.second ts) ∧ Look.second (ts ++ more) = Look.second ts ++ more := by
  rcases second_before ts more with ⟨t, us, hts, ht⟩ | h
  · have hfalse := hguard.eq_false hts ht
    rw [hx] at hfalse
    cases hfalse
  · exact h

/-- Behind a guard, tests on what follows the next token are kept. -/
instance kept_second (ts more : List Token) (first test : List Token → Bool)
    [hguard : Guard (first ts) ts] [HoldsEnd ts] [Kept (first ts) (first (ts ++ more))]
    [h : ∀ e : Ending, Kept (test e.tokens) (test (e.tokens ++ more))] :
    Kept (first ts && test (second ts)) (first (ts ++ more) && test (second (ts ++ more))) := by
  refine .guarded fun hyes => ?_
  obtain ⟨hend, hsecond⟩ := hguard.second hyes more
  rw [hsecond]
  exact h ⟨second ts, hend⟩

/-- Behind the two colons of a path, tests on what follows them are kept. -/
instance kept_behindColons (ts more : List Token) (test : List Token → Bool) [HoldsEnd ts]
    [htest : ∀ e : Ending, Kept (test e.tokens) (test (e.tokens ++ more))] :
    Kept (op "::" ts && test (third ts)) (op "::" (ts ++ more) && test (third (ts ++ more))) := by
  refine .guarded fun hcolons => ?_
  have hguard : Guard (op "::" ts) ts := guard_op (by decide)
  obtain ⟨hend, hsecond⟩ := hguard.second hcolons more
  have hcolon : op ":" (second ts) = true := by
    rcases ts with _ | ⟨_ | ⟨c, spacing, span⟩ | _ | _, us⟩
    any_goals cases hcolons
    have hgo : (decide (':' = c) && decide (spacing = .joint) && op.go [':'] us) = true := hcolons
    simp only [Bool.and_eq_true, decide_eq_true_iff] at hgo
    obtain ⟨⟨rfl, rfl⟩, hgo⟩ := hgo
    exact hgo
  have hguard' : Guard (op ":" (second ts)) (second ts) := guard_op (by decide)
  obtain ⟨hend', hthird⟩ := hguard'.second hcolon more
  unfold third
  rw [hsecond, hthird]
  exact htest ⟨_, hend'⟩

end

end Look

end Graft

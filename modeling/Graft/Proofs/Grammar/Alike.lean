import Graft.Proofs.Token.Respaced
import Graft.Grammar.Tree

/-!
# Values apart from places and blanks

Tokens and what is made of them hold the places where they were read, and which marks ran on. What
is left of them without is compared here, value by value, and no test on the tokens ahead looks at
a place, or at blanks that say nothing.
-/

namespace Graft

/-- Values that may hold places and blanks, and what is left of them without. -/
class Spaced (α : Type) where
  unspaced : α → α

open Spaced (unspaced)

/-- Values that hold neither places nor blanks. -/
class Spaceless (α : Type) [Spaced α] : Prop where
  unspaced_eq (a : α) : unspaced a = a

section Values

variable {α β : Type}

instance : Spaced PUnit := ⟨id⟩
instance : Spaceless PUnit := ⟨fun _ => rfl⟩
instance : Spaced Bool := ⟨id⟩
instance : Spaceless Bool := ⟨fun _ => rfl⟩
instance : Spaced Nat := ⟨id⟩
instance : Spaceless Nat := ⟨fun _ => rfl⟩
instance : Spaced String := ⟨id⟩
instance : Spaceless String := ⟨fun _ => rfl⟩
instance : Spaced ExprForm := ⟨id⟩
instance : Spaceless ExprForm := ⟨fun _ => rfl⟩
instance : Spaced BoundForm := ⟨id⟩
instance : Spaceless BoundForm := ⟨fun _ => rfl⟩

instance : Spaced Position := ⟨fun _ => .start⟩
instance : Spaced Token := ⟨Token.unspaced⟩

instance [Spaced α] [Spaced β] : Spaced (α × β) := ⟨Prod.map unspaced unspaced⟩
instance [Spaced α] [Spaced β] [Spaceless α] [Spaceless β] : Spaceless (α × β) :=
  ⟨fun (a, b) => congrArg₂ Prod.mk (Spaceless.unspaced_eq a) (Spaceless.unspaced_eq b)⟩

instance [Spaced α] : Spaced (Option α) := ⟨Option.map unspaced⟩
instance [Spaced α] [Spaceless α] : Spaceless (Option α) :=
  ⟨fun a => by cases a <;> simp [unspaced, Spaceless.unspaced_eq]⟩

instance [Spaced α] : Spaced (List α) := ⟨List.map unspaced⟩
instance [Spaced α] [Spaceless α] : Spaceless (List α) :=
  ⟨fun as => (List.map_congr_left fun a _ => Spaceless.unspaced_eq a).trans (List.map_id as)⟩

/-- A step of a loop without places and blanks. -/
def ForInStep.unspaced [Spaced α] : ForInStep α → ForInStep α
  | .done a => .done (Spaced.unspaced a)
  | .yield a => .yield (Spaced.unspaced a)

instance [Spaced α] : Spaced (ForInStep α) := ⟨ForInStep.unspaced⟩

instance [Spaced α] [Spaceless α] : Spaceless (ForInStep α) :=
  ⟨fun r => by
    cases r
    · exact congrArg ForInStep.done (Spaceless.unspaced_eq _)
    · exact congrArg ForInStep.yield (Spaceless.unspaced_eq _)⟩

end Values

mutual

def TypeTree.unspaced : TypeTree → TypeTree
  | .mk ts shape => .mk (Token.unspacedAll ts) (TypeTree.unspacedShape shape)

def TypeTree.unspacedShape : TypeShape TypeTree → TypeShape TypeTree
  | .paren inner => .paren inner.unspaced
  | .pointer pointee => .pointer pointee.unspaced
  | .function abi params variadic result =>
    .function abi (unspacedList params) variadic (unspacedOption result)
  | .path qualified single => .path qualified single
  | .bareBounds single => .bareBounds single
  | .other => .other

def TypeTree.unspacedList : List TypeTree → List TypeTree
  | [] => []
  | t :: ts => t.unspaced :: unspacedList ts

def TypeTree.unspacedOption : Option TypeTree → Option TypeTree
  | none => none
  | some t => some t.unspaced

end

/-- The place of an operator is all that a pattern keeps of its tokens. -/
def PatternForm.unspaced : PatternForm → PatternForm
  | .rest => .rest
  | .openRange _ => .openRange .start
  | .other => .other

instance : Spaced PatternForm := ⟨PatternForm.unspaced⟩
instance : Spaced TypeTree := ⟨TypeTree.unspaced⟩
instance : Spaced (TypeShape TypeTree) := ⟨TypeTree.unspacedShape⟩

theorem unspacedAll_eq (ts : List Token) : Token.unspacedAll ts = unspaced ts :=
  Token.unspacedAll_eq_map ts

theorem unspaced_append {α : Type} [Spaced α] (as bs : List α) :
    unspaced (as ++ bs) = unspaced as ++ unspaced bs :=
  List.map_append

/-- The values are one apart from places and blanks. -/
class Alike {α : Type} [Spaced α] (a a' : α) : Prop where
  eq : unspaced a = unspaced a'

/-- Two tests that come out the same. -/
class SameTest (t t' : Prop) : Prop where
  iff : t ↔ t'

namespace Alike

variable {α β : Type} [Spaced α] [Spaced β]
variable {a a' : α} {b b' : β} {as as' bs bs' : List α} {o o' : Option α} {r r' : α × β}
  {x x' y y' : Bool}

instance (priority := low) refl (a : α) : Alike a a := ⟨rfl⟩

/-- Values without places and blanks are alike only if they are equal. -/
theorem eq_of_spaceless [Spaceless α] (h : Alike a a') : a = a' := by
  rw [← Spaceless.unspaced_eq a, h.eq, Spaceless.unspaced_eq]

instance position (p p' : Position) : Alike p p' := ⟨rfl⟩

instance pair [h : Alike a a'] [h' : Alike b b'] : Alike (a, b) (a', b') :=
  ⟨congrArg₂ Prod.mk h.eq h'.eq⟩

instance fst [h : Alike r r'] : Alike r.1 r'.1 := ⟨congrArg Prod.fst h.eq⟩


instance some [h : Alike a a'] : Alike (Option.some a) (.some a') := ⟨congrArg Option.some h.eq⟩

theorem option (h : Alike o o') : (o = .none ∧ o' = .none) ∨
    ∃ a a', o = .some a ∧ o' = .some a' ∧ Alike a a' := by
  cases o with
  | none =>
    cases o' with
    | none => exact .inl ⟨rfl, rfl⟩
    | some a' => cases h.eq
  | some a =>
    cases o' with
    | none => cases h.eq
    | some a' => exact .inr ⟨a, a', rfl, rfl, ⟨Option.some.inj h.eq⟩⟩

instance isSome [h : Alike o o'] : Alike o.isSome o'.isSome := by
  obtain ⟨rfl, rfl⟩ | ⟨a, a', rfl, rfl, -⟩ := h.option <;> exact refl _

instance cons [h : Alike a a'] [h' : Alike as as'] : Alike (a :: as) (a' :: as') :=
  ⟨congrArg₂ List.cons h.eq h'.eq⟩

instance toList [h : Alike o o'] : Alike o.toList o'.toList := by
  obtain ⟨rfl, rfl⟩ | ⟨a, a', rfl, rfl, _⟩ := h.option
  · exact refl _
  · exact cons

instance append [h : Alike as as'] [h' : Alike bs bs'] : Alike (as ++ bs) (as' ++ bs') :=
  ⟨by rw [unspaced_append, unspaced_append, h.eq, h'.eq]⟩

theorem reverse (h : Alike as as') : Alike as.reverse as'.reverse :=
  ⟨List.map_reverse.trans ((congrArg List.reverse h.eq).trans List.map_reverse.symm)⟩

theorem take (h : Alike as as') (n : Nat) : Alike (as.take n) (as'.take n) :=
  ⟨List.map_take.trans ((congrArg (List.take n) h.eq).trans List.map_take.symm)⟩

instance getLast? [h : Alike as as'] : Alike as.getLast? as'.getLast? :=
  ⟨List.getLast?_map.symm.trans ((congrArg List.getLast? h.eq).trans List.getLast?_map)⟩

instance head? [h : Alike as as'] : Alike as.head? as'.head? :=
  ⟨List.head?_map.symm.trans ((congrArg List.head? h.eq).trans List.head?_map)⟩

instance length [h : Alike as as'] : Alike as.length as'.length :=
  ⟨(List.length_map _).symm.trans ((congrArg List.length h.eq).trans (List.length_map _))⟩

instance isEmpty [h : Alike as as'] : Alike as.isEmpty as'.isEmpty :=
  ⟨List.isEmpty_map.symm.trans ((congrArg List.isEmpty h.eq).trans List.isEmpty_map)⟩

instance punctToken (c : Char) (spacing spacing' : Spacing) (span span' : Span) :
    Alike (Token.punct c spacing span) (.punct c spacing' span') := ⟨rfl⟩

instance literalToken (text : String) (span span' : Span) :
    Alike (Token.literal text span) (.literal text span') := ⟨rfl⟩

instance groupToken (d : Delimiter) {ts ts' : List Token} [h : Alike ts ts'] (span span' : Span) :
    Alike (Token.group d ts span) (.group d ts' span') :=
  ⟨congrArg (Token.group d · .nowhere)
    ((unspacedAll_eq ts).trans (h.eq.trans (unspacedAll_eq ts').symm))⟩

instance ite {t t' : Prop} [Decidable t] [Decidable t'] [ht : SameTest t t'] {e e' : α}
    [h : Alike a a'] [h' : Alike e e'] : Alike (if t then a else e) (if t' then a' else e') := by
  by_cases hyes : t
  · rw [if_pos hyes, if_pos (ht.iff.mp hyes)]
    infer_instance
  · rw [if_neg hyes, if_neg fun hyes' => hyes (ht.iff.mpr hyes')]
    infer_instance

instance not [h : Alike x x'] : Alike (!x) (!x') := ⟨congrArg Bool.not h.eq⟩

instance and [h : Alike x x'] [h' : Alike y y'] : Alike (x && y) (x' && y') :=
  ⟨congrArg₂ Bool.and h.eq h'.eq⟩

instance or [h : Alike x x'] [h' : Alike y y'] : Alike (x || y) (x' || y') :=
  ⟨congrArg₂ Bool.or h.eq h'.eq⟩

end Alike

namespace SameTest

instance (priority := low) refl (t : Prop) : SameTest t t := ⟨.rfl⟩

instance eq {α : Type} [Spaced α] [Spaceless α] {a a' b b' : α} [h : Alike a a'] [h' : Alike b b'] :
    SameTest (a = b) (a' = b') :=
  ⟨by rw [h.eq_of_spaceless, h'.eq_of_spaceless]⟩

instance lt {m m' n n' : Nat} [h : Alike m m'] [h' : Alike n n'] : SameTest (m < n) (m' < n') :=
  ⟨by rw [h.eq_of_spaceless, h'.eq_of_spaceless]⟩

instance decide {t t' : Prop} [Decidable t] [Decidable t'] [h : SameTest t t'] :
    Alike (decide t) (decide t') :=
  ⟨decide_eq_decide.mpr h.iff⟩

end SameTest

/-! ## Looking at tokens -/

namespace Token

instance Respaced.alike {ts ts' : List Token} [h : Respaced ts ts'] : Alike ts ts' :=
  ⟨(Graft.unspacedAll_eq ts).symm.trans (h.unspacedAll_eq.trans (Graft.unspacedAll_eq ts'))⟩

end Token

namespace Look

open Token (Respaced IsOperator AreOperators joins runsInto runsInto_quote)

variable {ts ts' : List Token}

theorem exists_cons_of_go {d : Char} {cs : List Char} (h : op.go (d :: cs) ts = true) :
    ∃ spacing span us, ts = .punct d spacing span :: us := by
  rcases ts with _ | ⟨_ | ⟨c, spacing, span⟩ | _ | _, us⟩
  case cons.punct =>
    have hd : d = c := by
      cases cs <;> simp [op.go] at h
      · exact h.1
      · exact h.1.1
    exact ⟨spacing, span, us, by rw [hd]⟩
  all_goals cases cs <;> cases h

theorem go_respaced {cs : List Char} (hcs : ∀ p ∈ cs.zip cs.tail, joins p.1 p.2 = true)
    (h : Respaced ts ts') : op.go cs ts = op.go cs ts' := by
  induction cs generalizing ts ts' with
  | nil => cases h <;> rfl
  | cons c cs ih =>
    cases cs with
    | nil => cases h <;> rfl
    | cons d cs =>
      cases h with
      | @punct us us' c' spacing spacing' span span' hruns h =>
        have hmore := ih (fun p hp => hcs p (List.mem_cons_of_mem _ hp)) h
        show (c = c' && spacing = .joint && op.go (d :: cs) us) =
          (c = c' && spacing' = .joint && op.go (d :: cs) us')
        rw [← hmore]
        cases hgo : op.go (d :: cs) us with
        | false => simp
        | true =>
          -- The marks `c` and `d` stand in one operator, so they run on in both or in neither.
          obtain ⟨_, _, more, rfl⟩ := exists_cons_of_go hgo
          by_cases hc : c = c'
          · subst hc
            have hjoins : joins c d = true := hcs (c, d) List.mem_cons_self
            rw [hruns (by simp [runsInto, hjoins])]
          · simp [hc]
      | _ => rfl

instance alike_op [h : Respaced ts ts'] (s : String) [hs : IsOperator s] :
    Alike (op s ts) (op s ts') :=
  ⟨go_respaced hs.joined h⟩

instance alike_word [h : Respaced ts ts'] (name : String) :
    Alike (word name ts) (word name ts') := by
  cases h <;> exact .refl _

instance alike_anyWord [h : Respaced ts ts'] : Alike (anyWord ts) (anyWord ts') := by
  cases h <;> exact .refl _

instance alike_name [h : Respaced ts ts'] : Alike (name ts) (name ts') := by
  cases h <;> exact .refl _

instance alike_text [h : Respaced ts ts'] : Alike (text ts) (text ts') := by
  cases h <;> exact .refl _

instance alike_group [h : Respaced ts ts'] (d : Delimiter) :
    Alike (group d ts) (group d ts') := by
  cases h <;> exact .refl _

instance alike_parens [Respaced ts ts'] : Alike (parens ts) (parens ts') := alike_group _

instance alike_brackets [Respaced ts ts'] : Alike (brackets ts) (brackets ts') := alike_group _

instance alike_braces [Respaced ts ts'] : Alike (braces ts) (braces ts') := alike_group _

instance alike_lifetime [h : Respaced ts ts'] : Alike (lifetime ts) (lifetime ts') := by
  cases h with
  | @punct us us' c spacing spacing' _ _ hruns h =>
    by_cases hc : c = '\''
    · subst hc
      obtain rfl := hruns (runsInto_quote us)
      cases h <;> cases spacing' <;> exact .refl _
    · have hno : ∀ spacing span us, lifetime (.punct c spacing span :: us) = false := by
        simp [lifetime, hc]
      rw [hno, hno]
      exact .refl _
  | _ => exact .refl _

instance alike_literal [h : Respaced ts ts'] : Alike (literal ts) (literal ts') := by
  cases h with
  | @punct us us' c _ _ _ _ _ h =>
    by_cases hc : c = '-'
    · subst hc
      cases h <;> exact .refl _
    · have hno : ∀ spacing span us, literal (.punct c spacing span :: us) = false := by
        simp [literal, hc]
      rw [hno, hno]
      exact .refl _
  | _ => exact .refl _

instance alike_int [h : Respaced ts ts'] : Alike (int ts) (int ts') := by
  cases h with
  | @punct us us' c _ _ _ _ _ h =>
    by_cases hc : c = '-'
    · subst hc
      cases h <;> exact .refl _
    · have hno : ∀ spacing span us, int (.punct c spacing span :: us) = false := by
        simp [int, hc]
      rw [hno, hno]
      exact .refl _
  | _ => exact .refl _

/-- A lifetime counts as one token only if its mark runs on. -/
instance respaced_second [h : Respaced ts ts'] : Respaced (second ts) (second ts') := by
  cases h with
  | @punct us us' c spacing spacing' span span' hruns h =>
    by_cases hc : c = '\''
    · subst hc
      obtain rfl := hruns (runsInto_quote us)
      cases spacing' with
      | alone => exact h
      | joint =>
        have hus := h
        cases h with
        | ident => exact hus.tail
        | _ => exact hus
    · have hnext : ∀ spacing span us, second (.punct c spacing span :: us) = us := by
        simp [second, hc]
      rwa [hnext, hnext]
  | nil => exact .nil
  | _ => assumption

instance respaced_third [Respaced ts ts'] : Respaced (third ts) (third ts') :=
  inferInstanceAs (Respaced (second (second ts)) (second (second ts')))

instance alike_any [Respaced ts ts'] (names : List String) (test : String → List Token → Bool)
    [h : ∀ s, Alike (test s ts) (test s ts')] :
    Alike (names.any (test · ts)) (names.any (test · ts')) :=
  ⟨congrArg names.any (funext fun s => (h s).eq)⟩

instance alike_anyOp [h : Respaced ts ts'] (names : List String) [hnames : AreOperators names] :
    Alike (names.any (op · ts)) (names.any (op · ts')) :=
  ⟨by
    show names.any _ = names.any _
    rw [Bool.eq_iff_iff, List.any_eq_true, List.any_eq_true]
    refine exists_congr fun s => and_congr_right fun hs => ?_
    rw [op, op, go_respaced (hnames.isOperator s hs).joined h]⟩

instance alike_opOnly [Respaced ts ts'] (s : String) (longer : List String) [IsOperator s]
    [AreOperators longer] : Alike (opOnly s longer ts) (opOnly s longer ts') := by
  unfold opOnly
  infer_instance

instance alike_oneOf [Respaced ts ts'] (names : List String) :
    Alike (oneOf names ts) (oneOf names ts') :=
  alike_any names word

end Look

end Graft

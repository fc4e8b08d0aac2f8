import Graft.Token.Basic

/-!
# Tokens at every depth

A group holds tokens of its own, so that a sequence of tokens has levels: its own, and those inside
of its groups.
-/

namespace Graft.Token

theorem size_pos (t : Token) : 0 < t.size := by
  cases t <;> simp [size]

/-- A token that is no group. -/
def IsLeaf (t : Token) : Prop := ∀ d inner span, t ≠ .group d inner span

theorem isLeaf_ident (name : String) (span : Span) : (ident name span).IsLeaf := by
  rintro _ _ _ ⟨⟩

theorem isLeaf_punct (mark : Char) (spacing : Spacing) (span : Span) :
    (punct mark spacing span).IsLeaf := by
  rintro _ _ _ ⟨⟩

theorem isLeaf_literal (text : String) (span : Span) : (literal text span).IsLeaf := by
  rintro _ _ _ ⟨⟩

/-- `level` is `ts` itself, or what a group of `ts` holds, at any depth. -/
inductive Within (level : List Token) : List Token → Prop where
  | here : Within level level
  | inside {d : Delimiter} {inner ts : List Token} {span : Span}
      (hmem : .group d inner span ∈ ts) : Within level inner → Within level ts

/-- `P` holds of the tokens of `ts`, at every depth. -/
def Everywhere (P : Token → Prop) (ts : List Token) : Prop :=
  ∀ level, Within level ts → ∀ t ∈ level, P t

variable {P : Token → Prop} {level ts ts' inner : List Token} {t : Token} {d : Delimiter}
  {span : Span}

theorem Within.of_cons (h : Within level (t :: ts)) :
    level = t :: ts ∨ (∃ d inner span, t = .group d inner span ∧ Within level inner) ∨
      Within level ts := by
  cases h with
  | here => exact .inl rfl
  | inside hmem hlevel =>
    rcases List.mem_cons.mp hmem with heq | hmem
    · exact .inr (.inl ⟨_, _, _, heq.symm, hlevel⟩)
    · exact .inr (.inr (.inside hmem hlevel))

theorem Everywhere.subset (h : Everywhere P ts) (hsubset : ts' ⊆ ts) : Everywhere P ts' := by
  intro level hlevel t ht
  cases hlevel with
  | here => exact h ts .here t (hsubset ht)
  | inside hmem hlevel => exact h level (.inside (hsubset hmem) hlevel) t ht

theorem Everywhere.cons_leaf (h : Everywhere P ts) (ht : P t) (hleaf : t.IsLeaf) :
    Everywhere P (t :: ts) := by
  intro level hlevel t' ht'
  rcases hlevel.of_cons with rfl | ⟨d, inner, span, rfl, _⟩ | hlevel
  · rcases List.mem_cons.mp ht' with rfl | ht'
    · exact ht
    · exact h ts .here t' ht'
  · exact absurd rfl (hleaf d inner span)
  · exact h level hlevel t' ht'

theorem Everywhere.cons_group (h : Everywhere P ts) (ht : P (.group d inner span))
    (hinner : Everywhere P inner) : Everywhere P (.group d inner span :: ts) := by
  intro level hlevel t' ht'
  rcases hlevel.of_cons with rfl | ⟨d, inner, span, heq, hlevel⟩ | hlevel
  · rcases List.mem_cons.mp ht' with rfl | ht'
    · exact ht
    · exact h ts .here t' ht'
  · obtain ⟨rfl, rfl, rfl⟩ := Token.group.inj heq
    exact hinner level hlevel t' ht'
  · exact h level hlevel t' ht'

theorem Everywhere.append (h : Everywhere P ts) (h' : Everywhere P ts') :
    Everywhere P (ts ++ ts') := by
  intro level hlevel t ht
  cases hlevel with
  | here =>
    rcases List.mem_append.mp ht with ht | ht
    · exact h ts .here t ht
    · exact h' ts' .here t ht
  | inside hmem hlevel =>
    rcases List.mem_append.mp hmem with hmem | hmem
    · exact h level (.inside hmem hlevel) t ht
    · exact h' level (.inside hmem hlevel) t ht

theorem Everywhere.nil : Everywhere P [] := by
  intro level hlevel t ht
  cases hlevel with
  | here => cases ht
  | inside hmem _ => cases hmem

end Graft.Token

import Graft.Proofs.Grammar.BlindItem
import Graft.Proofs.Token.Apart
import Graft.Proofs.Types.Resolve

/-!
# Spellings that are read again

A key is the spelling of a type. It is canonical if reading it gives the key itself, which holds as
long as the tokens of the type stay apart in it.
-/

namespace Graft

open Token (Word Written written_tokensOf)

variable {t : PlainType} {ts : List Token} {tree : TypeTree} {text : String}

/-- The tokens are read as a type, which is spelled as they are, and in the spelling they stay
apart. -/
structure TypeTree.KeptFrom (ts : List Token) (tree : TypeTree) : Prop where
  reads : ofTokens ts = .ok tree
  spelled : Token.spelling tree.tokens = Token.spelling ts
  apart : Token.StaysApart ts

theorem ForeignType.read_of_tokens (hread : Token.read text.toList = .ok ts)
    (htree : TypeTree.ofTokens ts = .ok tree) :
    ForeignType.read text = .ok ⟨Token.spelling tree.tokens⟩ := by
  have htext : TypeTree.read text = .ok tree := by
    rw [TypeTree.read, hread]
    exact htree
  rw [ForeignType.read, htext]
  rfl

/-- Whether the text has such tokens. -/
def TypeTree.isKept (text : String) : Bool :=
  (Token.read text.toList).toOption.any fun ts => Token.checkApart ts &&
    (ofTokens ts).toOption.any fun tree => Token.spelling tree.tokens = Token.spelling ts

namespace TypeTree

theorem exists_keptFrom (h : isKept text = true) :
    ∃ ts tree, Token.read text.toList = .ok ts ∧ KeptFrom ts tree := by
  obtain ⟨ts, hread, hkept⟩ := (Option.any_eq_true _ _).mp h
  obtain ⟨hapart, hkept⟩ := Bool.and_eq_true_iff.mp hkept
  obtain ⟨tree, htree, hspelled⟩ := (Option.any_eq_true _ _).mp hkept
  exact ⟨ts, tree, eq_ok_of_toOption hread, eq_ok_of_toOption htree, of_decide_eq_true hspelled,
    .of_check ts hapart⟩

/-- The spelling is read as the type, up to blanks. -/
theorem KeptFrom.read_spelling (h : KeptFrom ts tree) :
    ForeignType.read (Token.spelling ts) = .ok ⟨Token.spelling ts⟩ := by
  obtain ⟨us, hread, hus⟩ := h.apart.read_spelling
  obtain ⟨tree', htree', halike⟩ := ofTokens_respaced hus h.reads
  rw [ForeignType.read_of_tokens hread htree', ← halike.spelling_eq, h.spelled]

end TypeTree

/-- **The spelling of a type is canonical**: it gives itself, whatever the type is made of, if its
tokens stay apart. Those of a clear plain type always do. -/
theorem ForeignType.spelling_fixed (hread : Token.read text.toList = .ok ts)
    (h : (∃ tree, TypeTree.KeptFrom ts tree) ∨ ∃ t : PlainType, t.isClear ∧ Written t.bare ts) :
    ∃ key, ForeignType.read text = .ok key ∧ ForeignType.read key.spelling = .ok key := by
  rcases h with ⟨tree, htree⟩ | ⟨t, hclear, hts⟩
  · refine ⟨⟨Token.spelling ts⟩, ?_, htree.read_spelling⟩
    rw [ForeignType.read_of_tokens hread htree.reads, htree.spelled]
  · exact ⟨t.key, ForeignType.read_eq hclear hread hts, ForeignType.read_key hclear⟩

/-- Vectors in a vector. -/
def PlainType.nested : PlainType :=
  let vectorOf (t : PlainType) : PlainType :=
    .path false (.generic ⟨⟨"Vec", by decide +kernel⟩, by decide⟩ false (.last t)) []
  vectorOf (vectorOf (.path false (.plain ⟨⟨"T", by decide +kernel⟩, by decide⟩) []))

theorem ForeignType.spelling_fixed_texts :
    (∀ text ∈ ["extern  \"C\"  fn ( * mut  u8 )", "[u8; N * 2 - 1]",
        "[u8; f(|x: u8| -> u8 \x7b x \x7d)]",
        "Box< dyn Fn(& 'a str) -> Option<u8> + Send + 'static >",
        "impl Into< String >", "< Vec < T > as Iterator > :: Item", "Matrix<\x7b N + 1 \x7d, 3>",
        "tuple! ( u8 , i32 )"],
      ∃ key, ForeignType.read text = .ok key ∧ ForeignType.read key.spelling = .ok key) ∧
    ∃ key, ForeignType.read "Vec< Vec< T> >" = .ok key ∧
      ForeignType.read key.spelling = .ok key := by
  refine ⟨fun text htext => ?_, ?_⟩
  · have hkept : TypeTree.isKept text = true := by
      revert text
      decide +kernel
    obtain ⟨ts, tree, hread, htree⟩ := TypeTree.exists_keptFrom hkept
    exact ForeignType.spelling_fixed hread (.inl ⟨tree, htree⟩)
  · -- The marks that close both vectors stand apart, where `>>` would shift bits.
    have htext : "Vec< Vec< T> >".toList = "Vec".toList ++ '<' :: ' ' ::
        ("Vec".toList ++ '<' :: ' ' :: ("T".toList ++ ['>', ' ', '>'])) := by decide +kernel
    have hspells : Token.Spells "Vec< Vec< T> >".toList PlainType.nested.bare := by
      rw [htext]
      exact .word ⟨"Vec", _⟩ (.cons (by decide) _) <| .sign .less <| .blank <|
        .word ⟨"Vec", _⟩ (.cons (by decide) _) <| .sign .less <| .blank <|
          .word ⟨"T", _⟩ (.cons (by decide) _) <| .sign .greater <| .blank <| .sign .greater .nil
    obtain ⟨ts, hread, hts⟩ := hspells.read
    exact ForeignType.spelling_fixed hread (.inr ⟨PlainType.nested, by decide, hts⟩)

/-- Marks that stand apart may open a comment in the spelling, and an arrow in a text grows at every
reading. -/
theorem ForeignType.spelling_unreadable :
    (ForeignType.read "[u8; a / *b]" = .ok ⟨"[u8; a/*b]"⟩ ∧
      (ForeignType.read "[u8; a/*b]").toOption = none) ∧
    ForeignType.read "[u8; \"->\".len()]" = .ok ⟨"[u8; \" -> \".len()]"⟩ ∧
      ForeignType.read "[u8; \" -> \".len()]" = .ok ⟨"[u8; \"  ->  \".len()]"⟩ := by
  decide +kernel

end Graft

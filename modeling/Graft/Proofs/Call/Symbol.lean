import Mathlib.Data.List.Nodup
import Graft.Call.Symbol

/-!
# What a symbol tells

A symbol is a name, a tag and a count with underscores between them. The name may hold underscores
and digits of its own, so a symbol is taken apart from its end: a count holds no underscore, and all
tags are of one length.
-/

namespace Graft

namespace Symbol

/-- The symbol of a name, a tag and a count. -/
def joined (name tag : String) (count : Nat) : String := name ++ "_" ++ tag ++ "_" ++ toString count

theorem toList_joined (name tag : String) (count : Nat) :
    (joined name tag count).toList =
      (name.toList ++ '_' :: tag.toList) ++ '_' :: Nat.toDigits 10 count := by
  have hline : "_".toList = ['_'] := rfl
  simp only [joined, String.toList_append, Nat.toString_eq_ofList_toDigits, String.toList_ofList,
    hline, List.append_assoc, List.cons_append, List.nil_append]

/-- There is one way only to split a text at its last `c`. -/
theorem append_cons_inj_of_last {c : Char} {as bs as' bs' : List Char} (hbs : c ∉ bs)
    (hbs' : c ∉ bs') (h : as ++ c :: bs = as' ++ c :: bs') : as = as' ∧ bs = bs' := by
  rcases List.append_eq_append_iff.mp h with ⟨mid, has, hmid⟩ | ⟨mid, has, hmid⟩
  · cases mid with
    | nil => exact ⟨by rw [has, List.append_nil], (List.cons.inj hmid).2⟩
    | cons d mid =>
      rw [(List.cons.inj hmid).2] at hbs
      exact absurd (List.mem_append_right mid List.mem_cons_self) hbs
  · cases mid with
    | nil => exact ⟨by rw [has, List.append_nil], (List.cons.inj hmid).2.symm⟩
    | cons d mid =>
      rw [(List.cons.inj hmid).2] at hbs'
      exact absurd (List.mem_append_right mid List.mem_cons_self) hbs'

/-- Name, tag and count can be read off a symbol. -/
theorem joined_inj {name name' tag tag' : String} {i j : Nat}
    (htag : tag.toList.length = tag'.toList.length)
    (h : joined name tag i = joined name' tag' j) : name = name' ∧ tag = tag' ∧ i = j := by
  have hchars := congrArg String.toList h
  rw [toList_joined, toList_joined] at hchars
  obtain ⟨hfront, hcount⟩ := append_cons_inj_of_last Nat.underscore_not_in_toDigits
    Nat.underscore_not_in_toDigits hchars
  obtain ⟨hname, htag⟩ := List.append_inj' hfront (by rw [List.length_cons, List.length_cons, htag])
  refine ⟨String.toList_inj.mp hname, String.toList_inj.mp (List.cons.inj htag).2, ?_⟩
  calc
    i = Nat.ofDigitChars 10 (Nat.toDigits 10 i) 0 := Nat.ofDigitChars_ten_toDigits.symm
    _ = Nat.ofDigitChars 10 (Nat.toDigits 10 j) 0 := by rw [hcount]
    _ = j := Nat.ofDigitChars_ten_toDigits

/-- A tag is four bytes with two digits each. -/
theorem length_unitTag (unit : String) : (unitTag unit).toList.length = 8 := by
  rw [unitTag, String.toList_ofList]
  rfl

end Symbol

namespace SymbolMinter

/-- The symbols that are minted next. -/
def mint : Nat → SymbolMinter → List String
  | 0, _ => []
  | n + 1, m => m.next :: mint n m.advance

/-- The symbols that are minted next count on from those minted before. -/
theorem mint_eq (n : Nat) (m : SymbolMinter) :
    mint n m = (List.range' m.minted n).map (Symbol.joined m.name m.tag) := by
  induction n generalizing m with
  | zero => rfl
  | succ n ih =>
    rw [mint, ih, List.range'_succ]
    rfl

/-- The symbols of a new minter are those of its name and its tag with the counts from zero on. -/
theorem mint_ofUnit (n : Nat) (name unit : String) :
    mint n (ofUnit name unit) =
      (List.range n).map (Symbol.joined (Symbol.sanitize name) (Symbol.unitTag unit)) := by
  rw [mint_eq, List.range_eq_range']
  rfl

theorem getElem?_mint_ofUnit {n i : Nat} {name unit symbol : String}
    (h : (mint n (ofUnit name unit))[i]? = some symbol) :
    symbol = Symbol.joined (Symbol.sanitize name) (Symbol.unitTag unit) i := by
  rw [mint_ofUnit, List.getElem?_map] at h
  obtain ⟨k, hk, hsymbol⟩ := Option.map_eq_some_iff.mp h
  obtain ⟨_, hk⟩ := List.getElem?_eq_some_iff.mp hk
  rw [List.getElem_range] at hk
  rw [← hsymbol, hk]

/-- Minters that mint one symbol have the same name and the same tag, and have come equally far. -/
theorem mint_inj {n n' i j : Nat} {name name' unit unit' symbol : String}
    (hi : (mint n (ofUnit name unit))[i]? = some symbol)
    (hj : (mint n' (ofUnit name' unit'))[j]? = some symbol) :
    Symbol.sanitize name = Symbol.sanitize name' ∧
      Symbol.unitTag unit = Symbol.unitTag unit' ∧ i = j := by
  have hjoined := (getElem?_mint_ofUnit hi).symm.trans (getElem?_mint_ofUnit hj)
  have hlength : (Symbol.unitTag unit).toList.length = (Symbol.unitTag unit').toList.length := by
    rw [Symbol.length_unitTag, Symbol.length_unitTag]
  exact Symbol.joined_inj hlength hjoined

theorem nodup_mint_ofUnit (n : Nat) (name unit : String) : (mint n (ofUnit name unit)).Nodup := by
  rw [mint_ofUnit]
  refine List.Nodup.map ?_ List.nodup_range
  intro i j h
  exact (Symbol.joined_inj rfl h).2.2

end SymbolMinter

end Graft

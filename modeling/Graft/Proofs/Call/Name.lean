import Graft.Call.Foreign
import Graft.Call.Haskell
import Graft.Proofs.Call.Symbol
import Graft.Proofs.Token.Bare

/-!
# Names in both languages

A symbol names a function of the foreign file, and its binding names a variable of the host file.
Both are names for any configured text and any unit: the name that symbols start with is made
plain, and the tag and the count behind it keep a symbol from being a word of either language.
-/

namespace Graft

/-! ## Characters of symbols -/

namespace Symbol

theorem isAscii_of_isAlphanum {c : Char} (h : c.isAlphanum) : isAscii c := by
  have hupper : c.isUpper → 'A' ≤ c ∧ c ≤ 'Z' := decide_eq_true_iff.mp
  have hlower : c.isLower → 'a' ≤ c ∧ c ≤ 'z' := fun h =>
    (Bool.and_eq_true_iff.mp h).imp decide_eq_true_iff.mp decide_eq_true_iff.mp
  have hdigit : c.isDigit → '0' ≤ c ∧ c ≤ '9' := fun h =>
    (Bool.and_eq_true_iff.mp h).imp decide_eq_true_iff.mp decide_eq_true_iff.mp
  rw [isAscii, decide_eq_true_eq]
  rcases Bool.or_eq_true_iff.mp h with hletter | h
  · rcases Bool.or_eq_true_iff.mp hletter with h | h
    · exact Nat.lt_of_le_of_lt (hupper h).2 (by decide)
    · exact Nat.lt_of_le_of_lt (hlower h).2 (by decide)
  · exact Nat.lt_of_le_of_lt (hdigit h).2 (by decide)

theorem isSymbolChar_iff {c : Char} : isSymbolChar c ↔ c.isAlphanum ∨ c = '_' := by
  rw [isSymbolChar, Bool.and_eq_true, Bool.or_eq_true, decide_eq_true_eq]
  constructor
  · exact fun h => h.2
  · rintro (h | rfl)
    · exact ⟨isAscii_of_isAlphanum h, .inl h⟩
    · exact ⟨by decide, .inr rfl⟩

theorem isSymbolChar_sanitize (raw : String) : ∀ c ∈ (sanitize raw).toList, isSymbolChar c := by
  have hmapped : ∀ c ∈ raw.toList.map fun c => if isSymbolChar c then c else '_',
      isSymbolChar c := by
    intro c hc
    obtain ⟨d, -, rfl⟩ := List.mem_map.mp hc
    split
    next hd => exact hd
    next => decide
  unfold sanitize
  split
  next => decide
  next c cs hcs =>
    rw [hcs] at hmapped
    intro d hd
    rw [String.toList_ofList] at hd
    split at hd
    next =>
      rcases List.mem_cons.mp hd with rfl | hd
      · decide
      · exact hmapped d hd
    next => exact hmapped d hd

theorem isSymbolChar_hexDigit {n : UInt32} (h : n < 16) : isSymbolChar (Blake3.hexDigit n) := by
  have hdigits : ∀ k : Fin 16, isSymbolChar (Blake3.hexDigit (UInt32.ofNat k.val)) := by decide
  have hn : UInt32.ofNat n.toNat = n := UInt32.ofNat_toNat
  have hlt : n.toNat < 16 := UInt32.lt_iff_toNat_lt.mp h
  rw [← hn]
  exact hdigits ⟨n.toNat, hlt⟩

theorem isSymbolChar_unitTag (unit : String) : ∀ c ∈ (unitTag unit).toList, isSymbolChar c := by
  intro c hc
  rw [unitTag, String.toList_ofList, Blake3.hexWord] at hc
  obtain ⟨shift, -, hc⟩ := List.mem_flatMap.mp hc
  -- Each byte is written as its two halves.
  generalize hbyte : (Blake3.digest unit.toUTF8.toList)[0] >>> shift &&& 255 = byte at hc
  have hbound : byte.toNat ≤ 255 := by
    rw [← hbyte, UInt32.toNat_and]
    exact Nat.and_le_right
  rcases List.mem_cons.mp hc with rfl | hc
  · refine isSymbolChar_hexDigit (UInt32.lt_iff_toNat_lt.mpr ?_)
    rw [UInt32.toNat_shiftRight]
    show byte.toNat >>> 4 < 16
    rw [Nat.shiftRight_eq_div_pow]
    omega
  · rw [List.mem_singleton.mp hc]
    refine isSymbolChar_hexDigit (UInt32.lt_iff_toNat_lt.mpr ?_)
    rw [UInt32.toNat_and]
    exact Nat.lt_succ_of_le Nat.and_le_right

theorem isSymbolChar_joined (raw unit : String) (count : Nat) :
    ∀ c ∈ (joined (sanitize raw) (unitTag unit) count).toList, isSymbolChar c := by
  have hdigit : ∀ c ∈ Nat.toDigits 10 count, isSymbolChar c := by
    intro c hc
    have hc := Nat.isDigit_of_mem_toDigits (by decide) (by decide) hc
    have hascii : c.toNat < 128 := by
      simp only [Char.isDigit, Bool.and_eq_true, decide_eq_true_eq] at hc
      exact Nat.lt_of_le_of_lt hc.2 (by decide)
    simp [isSymbolChar, isAscii, hascii, Char.isAlphanum, hc]
  intro c hc
  rw [toList_joined] at hc
  simp only [List.mem_append, List.mem_cons] at hc
  rcases hc with (hc | rfl | hc) | rfl | hc
  · exact isSymbolChar_sanitize raw c hc
  · decide
  · exact isSymbolChar_unitTag unit c hc
  · decide
  · exact hdigit c hc

/-! ## Plain names -/

/-- A name of ASCII letters, digits and underscores that starts with no digit. -/
structure IsPlain (s : String) : Prop where
  ne_nil : s.toList ≠ []
  chars : ∀ c ∈ s.toList, c.isAlphanum ∨ c = '_'
  start : ∀ c ∈ s.toList.head?, c.isDigit = false

theorem isPlain_sanitize (raw : String) : IsPlain (sanitize raw) := by
  have hchars : ∀ c ∈ (sanitize raw).toList, c.isAlphanum ∨ c = '_' := fun c hc =>
    isSymbolChar_iff.mp (isSymbolChar_sanitize raw c hc)
  cases hcs : raw.toList.map fun c => if isSymbolChar c then c else '_' with
  | nil =>
    have hname : sanitize raw = standardName := by rw [sanitize, hcs]
    rw [hname] at hchars ⊢
    refine ⟨List.cons_ne_nil _ _, hchars, fun c hc => ?_⟩
    obtain rfl : 'i' = c := Option.some.inj hc
    rfl
  | cons c cs =>
    have hname : (sanitize raw).toList = if c.isDigit then '_' :: c :: cs else c :: cs := by
      rw [sanitize, hcs, String.toList_ofList]
    cases hdigit : c.isDigit with
    | true =>
      rw [hdigit, if_pos rfl] at hname
      exact ⟨by simp [hname], hchars, by simp [hname]⟩
    | false =>
      rw [hdigit, if_neg Bool.false_ne_true] at hname
      exact ⟨by simp [hname], hchars, by simp [hname, hdigit]⟩

/-- A plain name is kept as it is. -/
theorem sanitize_eq_self {s : String} (h : IsPlain s) : sanitize s = s := by
  have hmap : s.toList.map (fun c => if isSymbolChar c then c else '_') = s.toList := by
    refine (List.map_congr_left fun c hc => ?_).trans (List.map_id' s.toList)
    exact if_pos (isSymbolChar_iff.mpr (h.chars c hc))
  obtain ⟨c, cs, hcs⟩ := List.exists_cons_of_ne_nil h.ne_nil
  have hstart : c.isDigit = false := h.start c (by rw [hcs]; rfl)
  unfold sanitize
  rw [hmap, hcs]
  simp only [hstart, Bool.false_eq_true, if_false]
  rw [← hcs, String.ofList_toList]

/-- A tag and a count behind a plain name keep it plain. -/
theorem isPlain_joined {name : String} (h : IsPlain name) (unit : String) (count : Nat) :
    IsPlain (joined name (unitTag unit) count) := by
  have hchars := isSymbolChar_joined name unit count
  rw [sanitize_eq_self h] at hchars
  obtain ⟨c, cs, hcs⟩ := List.exists_cons_of_ne_nil h.ne_nil
  have hjoined := toList_joined name (unitTag unit) count
  rw [hcs] at hjoined
  refine ⟨by rw [hjoined]; exact List.cons_ne_nil _ _,
    fun d hd => isSymbolChar_iff.mp (hchars d hd), fun d hd => ?_⟩
  rw [hjoined] at hd
  exact h.start d (by rw [hcs]; exact hd)

theorem underscore_mem_joined (name tag : String) (count : Nat) :
    '_' ∈ (joined name tag count).toList := by
  rw [toList_joined]
  simp

/-! ## Words of the foreign language -/

variable {s : String}

namespace IsPlain

theorem isIdentStart (h : IsPlain s) : ∀ c ∈ s.toList.head?, isIdentStart c := by
  intro c hc
  have hdigit := h.start c hc
  have hascii := isSymbolChar_iff.mpr (h.chars c (List.mem_of_mem_head? hc))
  rw [isSymbolChar, Bool.and_eq_true, Char.isAlphanum, hdigit, Bool.or_false] at hascii
  rw [Graft.isIdentStart, if_pos hascii.1]
  exact hascii.2

theorem isIdentContinue (h : IsPlain s) : ∀ c ∈ s.toList, isIdentContinue c := by
  intro c hc
  have hascii := isSymbolChar_iff.mpr (h.chars c hc)
  rw [isSymbolChar, Bool.and_eq_true] at hascii
  rw [Graft.isIdentContinue, if_pos hascii.1]
  exact hascii.2

/-- A plain name is read as one identifier. -/
theorem read_eq (h : IsPlain s) :
    Token.read s.toList = .ok [.ident s ⟨.start, Position.start.advance s.toList⟩] := by
  have hstart := h.isIdentStart
  have hcontinue := h.isIdentContinue
  have hchars := h.chars
  have htext : String.ofList s.toList = s := String.ofList_toList
  obtain ⟨c, cs, hcs⟩ := List.exists_cons_of_ne_nil h.ne_nil
  rw [hcs] at hstart hcontinue hchars htext ⊢
  have hc : Graft.isIdentStart c := hstart c rfl
  have hword : Token.WordText (c :: cs) :=
    .plain hc fun d hd => hcontinue d (List.mem_cons_of_mem c hd)
  have hascii : c.toNat < 128 := by
    have hsymbol := isSymbolChar_iff.mpr (hchars c List.mem_cons_self)
    rw [isSymbolChar, Bool.and_eq_true, isAscii, decide_eq_true_eq] at hsymbol
    exact hsymbol.1
  have hblank : Comment.isBlankMark c = false := by
    have hall : ∀ n : Fin 128, Graft.isIdentStart (Char.ofNat n) →
        Comment.isBlankMark (Char.ofNat n) = false := by decide
    have hnat := hall ⟨c.toNat, hascii⟩
    rw [Char.ofNat_toNat] at hnat
    exact hnat hc
  have hsolid : Token.Solid c := ⟨isIdentStart_ne hc (by decide), hblank⟩
  obtain ⟨hopened, hclosed⟩ := Token.delimiter_of_solid_word hc
  have hleaf := hword.leaf?_append .nil .start
  rw [Token.read, if_neg (by omega), ← List.append_nil (c :: cs),
    Token.readFrom_leaf hsolid hopened hclosed hleaf, Token.readFrom_nil, List.append_nil, htext]
  rfl

theorem isIdentifier (h : IsPlain s) : isIdentifier s.toList := by
  have hstart := h.isIdentStart
  have hcontinue := h.isIdentContinue
  obtain ⟨c, cs, hcs⟩ := List.exists_cons_of_ne_nil h.ne_nil
  rw [hcs] at hstart hcontinue ⊢
  rw [Symbol.isIdentifier, Bool.and_eq_true, List.all_eq_true]
  exact ⟨hstart c rfl, fun d hd => hcontinue d (List.mem_cons_of_mem c hd)⟩

/-- A plain name can name a function: it starts with no digit, so it is no number. -/
theorem fault?_eq_none (h : IsPlain s) : fault? s = none := by
  have hstart := h.start
  obtain ⟨c, cs, hcs⟩ := List.exists_cons_of_ne_nil h.ne_nil
  have hidentifier := h.isIdentifier
  rw [hcs] at hidentifier hstart
  have hdigit : c.isDigit = false := hstart c rfl
  unfold fault?
  simp [hcs, hidentifier, hdigit]

end IsPlain

/-- No word of the foreign language but `_` has an underscore in it. -/
theorem not_mem_reservedWords (hline : '_' ∈ s.toList) (hne : s ≠ "_") : s ∉ reservedWords := by
  have hwords : ∀ w ∈ reservedWords, w = "_" ∨ '_' ∉ w.toList := by decide
  intro hmem
  rcases hwords s hmem with heq | hnot
  · exact hne heq
  · exact hnot hline

theorem head?_joined {name : String} (h : IsPlain name) (tag : String) (count count' : Nat) :
    (joined name tag count).toList.head? = (joined name tag count').toList.head? := by
  obtain ⟨c, cs, hcs⟩ := List.exists_cons_of_ne_nil h.ne_nil
  rw [toList_joined, toList_joined, hcs]
  rfl

theorem joined_ne_line (name tag : String) (count : Nat) : joined name tag count ≠ "_" := by
  intro heq
  have hlength := congrArg List.length (congrArg String.toList heq)
  rw [toList_joined] at hlength
  simp only [List.length_append, List.length_cons] at hlength
  have hone : "_".toList.length = 1 := rfl
  omega

end Symbol

/-! ## Variables of the host language -/

namespace Haskell

theorem isNameChar_of_isSymbolChar {c : Char} (h : Symbol.isSymbolChar c) : isNameChar c := by
  rw [Symbol.isSymbolChar, Bool.and_eq_true, Bool.or_eq_true] at h
  rw [isNameChar, isAlphanumeric, if_pos h.1]
  simp only [Bool.or_eq_true]
  exact .inl h.2

/-- A text of name characters behind an underscore is a variable, unless it is the underscore. -/
theorem isVariable_of_line {s : String} (hline : s.toList.head? = some '_') (hne : s ≠ "_")
    (hchars : ∀ c ∈ s.toList, isNameChar c) : isVariable s := by
  have hwords : ∀ w ∈ reservedWords, w = "_" ∨ w.toList.head? ≠ some '_' := by decide
  have hfree : s ∉ reservedWords := fun hmem => (hwords s hmem).elim hne fun hnot => hnot hline
  obtain ⟨cs, hcs⟩ := List.head?_eq_some_iff.mp hline
  have hrest : cs.all isNameChar := by
    rw [List.all_eq_true]
    exact fun c hc => hchars c (by rw [hcs]; exact List.mem_cons_of_mem _ hc)
  rw [isVariable, hcs]
  simp [hrest, hfree]

/-- What a declaration binds for a plain name is a variable. -/
theorem isVariable_bindingName {s : String} (h : Symbol.IsPlain s) :
    isVariable (haskell.bindingName s) := by
  have hline : "_".toList = ['_'] := rfl
  have hchars : ∀ c ∈ s.toList, isNameChar c := fun c hc =>
    isNameChar_of_isSymbolChar (Symbol.isSymbolChar_iff.mpr (h.chars c hc))
  unfold HostLanguage.bindingName
  split
  next hvariable => exact hvariable
  next =>
    refine isVariable_of_line ?_ ?_ ?_
    · rw [String.toList_append, hline]
      rfl
    · intro heq
      have htext := congrArg String.toList heq
      rw [String.toList_append, hline, List.singleton_append] at htext
      exact h.ne_nil (List.cons.inj htext).2
    · intro c hc
      rw [String.toList_append, hline, List.singleton_append, List.mem_cons] at hc
      rcases hc with rfl | hc
      · decide
      · exact hchars c hc

/-- A plain name that is bound behind an underscore starts with none of its own. -/
theorem head_ne_line {s : String} (h : Symbol.IsPlain s) (hne : s ≠ "_")
    (hvariable : ¬ isVariable s) : s.toList.head? ≠ some '_' := fun hline =>
  hvariable (isVariable_of_line hline hne fun c hc =>
    isNameChar_of_isSymbolChar (Symbol.isSymbolChar_iff.mpr (h.chars c hc)))

/-- Plain names that start alike are bound as different variables. -/
theorem bindingName_inj {s s' : String} (h : Symbol.IsPlain s) (h' : Symbol.IsPlain s')
    (hne : s ≠ "_") (hne' : s' ≠ "_") (hhead : s.toList.head? = s'.toList.head?)
    (hbound : haskell.bindingName s = haskell.bindingName s') : s = s' := by
  have hline : ∀ t : String, ("_" ++ t).toList = '_' :: t.toList := fun t => String.toList_append
  unfold HostLanguage.bindingName at hbound
  -- If one of two names needs an underscore and the other does not, their first characters differ.
  split at hbound <;> split at hbound
  next => exact hbound
  next hvariable =>
    have hstart := head_ne_line h' hne' hvariable
    rw [← hhead, hbound, hline] at hstart
    exact absurd rfl hstart
  next hvariable _ =>
    have hstart := head_ne_line h hne hvariable
    rw [hhead, ← hbound, hline] at hstart
    exact absurd rfl hstart
  next =>
    have htext := congrArg String.toList hbound
    rw [hline, hline] at htext
    exact String.toList_inj.mp (List.cons.inj htext).2

end Haskell

namespace SymbolMinter

/-- **What is minted names a function and a variable.** The name that symbols start with is plain
for any configured text, and plain names are kept as they are. Every symbol that starts with it is
read as one identifier of the foreign language that is not reserved, so that a function can always be
written under it; in the host language its binding is a variable, and the symbols of one unit are
bound as different variables. -/
theorem symbols_are_names (name unit : String) (n : Nat) :
    (Symbol.IsPlain (Symbol.sanitize name) ∧
      Symbol.sanitize (Symbol.sanitize name) = Symbol.sanitize name) ∧
    ∀ symbol ∈ mint n (ofUnit name unit),
      (Token.read symbol.toList =
          .ok [.ident symbol ⟨.start, Position.start.advance symbol.toList⟩] ∧
        symbol ∉ reservedWords) ∧
      (∀ (s : Snippet) (entry : EntryPoint) (edition : Edition),
        ForeignFunction.ofSnippet? symbol s entry edition =
          .ok (.ofSnippet symbol s entry edition)) ∧
      Haskell.isVariable (haskell.bindingName symbol) ∧
      ∀ symbol' ∈ mint n (ofUnit name unit),
        haskell.bindingName symbol = haskell.bindingName symbol' → symbol = symbol' := by
  have hname := Symbol.isPlain_sanitize name
  have hjoined : ∀ symbol ∈ mint n (ofUnit name unit), ∃ count,
      symbol = Symbol.joined (Symbol.sanitize name) (Symbol.unitTag unit) count := by
    intro symbol hmem
    rw [mint_ofUnit] at hmem
    obtain ⟨count, -, rfl⟩ := List.mem_map.mp hmem
    exact ⟨count, rfl⟩
  refine ⟨⟨hname, Symbol.sanitize_eq_self hname⟩, fun symbol hmem => ?_⟩
  obtain ⟨count, rfl⟩ := hjoined symbol hmem
  have hplain := Symbol.isPlain_joined hname unit count
  have hne := Symbol.joined_ne_line (Symbol.sanitize name) (Symbol.unitTag unit) count
  have hfree := Symbol.not_mem_reservedWords
    (Symbol.underscore_mem_joined (Symbol.sanitize name) (Symbol.unitTag unit) count) hne
  refine ⟨⟨hplain.read_eq, hfree⟩, fun s entry edition => ?_,
    Haskell.isVariable_bindingName hplain, fun symbol' hmem' hbound => ?_⟩
  · rw [ForeignFunction.ofSnippet?, hplain.fault?_eq_none]
  · obtain ⟨count', rfl⟩ := hjoined symbol' hmem'
    exact Haskell.bindingName_inj hplain (Symbol.isPlain_joined hname unit count') hne
      (Symbol.joined_ne_line _ _ count') (Symbol.head?_joined hname _ count count') hbound

end SymbolMinter

end Graft

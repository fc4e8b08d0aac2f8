import Mathlib.Data.List.Basic
import Graft.Json.Basic

/-!
# Reading JSON

A reader of JSON texts: blanks between the parts of a value do not matter, and escapes in a text
stand for characters, but for those that come in pairs. It reads the indented text of a value as
this value, so such a text tells all that is in the value and nothing else.
-/

namespace Graft.Json

/-! ## The reader -/

/-- A blank that may stand between the parts of a value. -/
def isGap (c : Char) : Bool := c = ' ' || c = '\n' || c = '\r' || c = '\t'

def skipGaps (cs : List Char) : List Char := cs.dropWhile isGap

/-- The value of a digit of base sixteen. -/
def hexValue? (c : Char) : Option Nat :=
  if '0' ≤ c ∧ c ≤ '9' then some (c.toNat - '0'.toNat)
  else if 'a' ≤ c ∧ c ≤ 'f' then some (c.toNat - 'a'.toNat + 10)
  else if 'A' ≤ c ∧ c ≤ 'F' then some (c.toNat - 'A'.toNat + 10)
  else none

/-- The character whose number has the given digits of base sixteen. -/
def ofHex? (ds : List Char) : Option Char := do
  let n ← ds.foldlM (fun n d => return 16 * n + (← hexValue? d)) 0
  if n.isValidChar then return Char.ofNat n else none

/-- What a character stands for behind a backslash. -/
def unescape? : Char → Option Char
  | '"' => some '"'
  | '\\' => some '\\'
  | '/' => some '/'
  | 'b' => some '\x08'
  | 'f' => some '\x0c'
  | 'n' => some '\n'
  | 'r' => some '\r'
  | 't' => some '\t'
  | _ => none

/-- The characters up to the quote that ends a text, and what stands behind it. -/
def readText : List Char → Option (List Char × List Char)
  | [] => none
  | '"' :: cs => some ([], cs)
  | '\\' :: 'u' :: d₁ :: d₂ :: d₃ :: d₄ :: cs => do
    let c ← ofHex? [d₁, d₂, d₃, d₄]
    let (s, cs) ← readText cs
    return (c :: s, cs)
  | '\\' :: e :: cs => do
    let c ← unescape? e
    let (s, cs) ← readText cs
    return (c :: s, cs)
  | c :: cs => do
    if c.toNat < 32 ∨ c = '\\' then none
    let (s, cs) ← readText cs
    return (c :: s, cs)

/-- A number without needless zeros. -/
def readNumber (cs : List Char) : Option (Nat × List Char) :=
  let ds := cs.takeWhile Char.isDigit
  if ds = [] ∨ ds.head? = some '0' ∧ ds ≠ ['0'] then none
  else some (Nat.ofDigitChars 10 ds 0, cs.dropWhile Char.isDigit)

section Parts

variable {α : Type}

/-- One part or more with commas between them, up to the closing bracket. -/
def readParts (part : List Char → Option (α × List Char)) (close : Char) :
    Nat → List Char → Option (List α × List Char)
  | 0, _ => none
  | n + 1, cs => do
    let (a, cs) ← part cs
    match skipGaps cs with
    | [] => none
    | c :: cs =>
      if c = close then return ([a], cs)
      else if c = ',' then do
        let (as, cs) ← readParts part close n cs
        return (a :: as, cs)
      else none

/-- The parts of a value behind its opening bracket. -/
def readBetween (part : List Char → Option (α × List Char)) (close : Char) (cs : List Char) :
    Option (List α × List Char) :=
  if (skipGaps cs).head? = some close then some ([], (skipGaps cs).tail)
  else readParts part close cs.length cs

end Parts

/-- A key and its value. -/
def readField (value : List Char → Option (Json × List Char)) (cs : List Char) :
    Option ((String × Json) × List Char) :=
  match skipGaps cs with
  | '"' :: cs => do
    let (key, cs) ← readText cs
    match skipGaps cs with
    | ':' :: cs => do
      let (j, cs) ← value cs
      return ((.ofList key, j), cs)
    | _ => none
  | _ => none

/-- The value at the start of a text, and what stands behind it. Brackets may stand in one another
as deep as the given number. -/
def readValue : Nat → List Char → Option (Json × List Char)
  | 0, _ => none
  | n + 1, cs =>
    match skipGaps cs with
    | '"' :: cs => (readText cs).map fun (s, cs) => (string (.ofList s), cs)
    | '[' :: cs => (readBetween (readValue n) ']' cs).map fun (js, cs) => (array js, cs)
    | '\x7b' :: cs =>
      (readBetween (readField (readValue n)) '\x7d' cs).map fun (fs, cs) => (object fs, cs)
    | 'n' :: 'u' :: 'l' :: 'l' :: cs => some (null, cs)
    | 't' :: 'r' :: 'u' :: 'e' :: cs => some (bool true, cs)
    | 'f' :: 'a' :: 'l' :: 's' :: 'e' :: cs => some (bool false, cs)
    | cs => (readNumber cs).map fun (n, cs) => (number n, cs)

/-- The value that a text stands for. -/
def read (s : String) : Option Json := do
  let (j, rest) ← readValue s.length s.toList
  if (skipGaps rest).isEmpty then return j else none

/-- The value of a key. -/
def field? (key : String) : Json → Option Json
  | object fs => fs.lookup key
  | _ => none

/-! ## Texts and numbers -/

theorem skipGaps_append {gap : List Char} (hgap : gap.all isGap) (cs : List Char) :
    skipGaps (gap ++ cs) = skipGaps cs := by
  unfold skipGaps
  rw [List.dropWhile_append_of_pos fun c hc => List.all_eq_true.mp hgap c hc]

theorem skipGaps_cons {c : Char} (hc : isGap c = false) (cs : List Char) :
    skipGaps (c :: cs) = c :: cs := by
  simp [skipGaps, hc]

theorem ofHex?_hexDigit {c : Char} (h : c.toNat < 32) :
    ofHex? ['0', '0', hexDigit (c.toNat / 16), hexDigit (c.toNat % 16)] = some c := by
  have hall : ∀ n < 32, ofHex? ['0', '0', hexDigit (n / 16), hexDigit (n % 16)] =
      some (Char.ofNat n) := by decide
  rw [hall _ h, Char.ofNat_toNat]

theorem readText_unescape {e c : Char} (h : unescape? e = some c) (hne : e ≠ 'u')
    (cs : List Char) :
    readText ('\\' :: e :: cs) = (readText cs).map fun (s, rest) => (c :: s, rest) := by
  cases hrest : readText cs <;> simp [readText, hne, h, hrest]

/-- A character as it is written in a text is read as itself. -/
theorem readText_escapeChar (c : Char) (cs : List Char) :
    readText ((escapeChar c).toList ++ cs) = (readText cs).map fun (s, rest) => (c :: s, rest) := by
  have hofNat : Char.ofNat c.toNat = c := Char.ofNat_toNat c
  unfold escapeChar
  split_ifs with hquote hback hfeed hreturn htab hbackspace hform hcontrol
  · rw [hquote]
    exact readText_unescape rfl (by decide) cs
  · rw [hback]
    exact readText_unescape rfl (by decide) cs
  · rw [hfeed]
    exact readText_unescape rfl (by decide) cs
  · rw [hreturn]
    exact readText_unescape rfl (by decide) cs
  · rw [htab]
    exact readText_unescape rfl (by decide) cs
  · rw [← hofNat, hbackspace]
    exact readText_unescape rfl (by decide) cs
  · rw [← hofNat, hform]
    exact readText_unescape rfl (by decide) cs
  · cases hrest : readText cs <;> simp [readText, ofHex?_hexDigit hcontrol, hrest]
  · cases hrest : readText cs <;> simp [readText, hback, hcontrol, hrest]

theorem readText_join (s rest : List Char) :
    readText ((String.join (s.map escapeChar)).toList ++ '"' :: rest) = some (s, rest) := by
  induction s with
  | nil => simp [readText]
  | cons c s ih =>
    rw [List.map_cons, String.join_cons, String.toList_append, List.append_assoc,
      readText_escapeChar, ih]
    rfl

/-- No number but zero starts with a zero. -/
theorem head?_toDigits {n : Nat} (h : n ≠ 0) : (Nat.toDigits 10 n).head? ≠ some '0' := by
  induction n using Nat.strongRecOn with
  | ind n ih =>
    rw [Nat.toDigits_eq_if (by decide)]
    have hdigit : ∀ d < 10, d ≠ 0 → [d.digitChar].head? ≠ some '0' := by decide
    split
    next hlt => exact hdigit n hlt h
    next =>
      have hne : Nat.toDigits 10 (n / 10) ≠ [] := Nat.toDigits_ne_nil
      rw [List.head?_append_of_ne_nil _ hne]
      exact ih (n / 10) (by omega) (by omega)

/-- A text does not go on with a digit. -/
def Stops (cs : List Char) : Prop := ∀ c ∈ cs.head?, c.isDigit = false

theorem readNumber_toString (n : Nat) {rest : List Char} (h : Stops rest) :
    readNumber ((toString n).toList ++ rest) = some (n, rest) := by
  have hdigits : ∀ c ∈ Nat.toDigits 10 n, c.isDigit :=
    fun c hc => Nat.isDigit_of_mem_toDigits (by decide) (by decide) hc
  have hnone : rest.takeWhile Char.isDigit = [] ∧ rest.dropWhile Char.isDigit = rest := by
    cases rest with
    | nil => exact ⟨rfl, rfl⟩
    | cons c rest => simp [h c rfl]
  have htake : (Nat.toDigits 10 n ++ rest).takeWhile Char.isDigit = Nat.toDigits 10 n := by
    rw [List.takeWhile_append_of_pos hdigits, hnone.1, List.append_nil]
  have hdrop : (Nat.toDigits 10 n ++ rest).dropWhile Char.isDigit = rest := by
    rw [List.dropWhile_append_of_pos hdigits, hnone.2]
  have hzero : (Nat.toDigits 10 n).head? = some '0' → Nat.toDigits 10 n = ['0'] := by
    by_cases hn : n = 0
    · intro _
      rw [hn, Nat.toDigits_zero]
    · exact fun hhead => absurd hhead (head?_toDigits hn)
  rw [Nat.toString_eq_ofList_toDigits, String.toList_ofList, readNumber]
  simp only [htake, hdrop]
  rw [if_neg, Nat.ofDigitChars_ten_toDigits]
  rintro (hnil | ⟨hhead, hne⟩)
  · exact Nat.toDigits_ne_nil hnil
  · exact hne (hzero hhead)

/-! ## Values -/

section Parts

variable {α : Type} {part : List Char → Option (α × List Char)} {close : Char}
  {texts : List String} {as : List α} {rest : List Char}

/-- Behind any gap, a text is read as `a`. -/
def Reads (part : List Char → Option (α × List Char)) (text : String) (a : α) : Prop :=
  ∀ gap rest, gap.all isGap → Stops rest → part (gap ++ (text.toList ++ rest)) = some (a, rest)

/-- The end of a line and the blanks before the next one. -/
def lineBreak (depth : Nat) : List Char := '\n' :: (indentation depth).toList

theorem all_lineBreak (depth : Nat) : (lineBreak depth).all isGap := by
  simp [lineBreak, indentation, isGap]

theorem stops_lineBreak (depth : Nat) (cs : List Char) : Stops (lineBreak depth ++ cs) := by
  simp [lineBreak, Stops]

theorem lines_singleton (depth : Nat) (p : String) :
    (lines depth [p]).toList = lineBreak (depth + 1) ++ (p.toList ++ lineBreak depth) := by
  simp [lines, lineBreak]

theorem lines_cons_cons (depth : Nat) (p q : String) (ps : List String) :
    (lines depth (p :: q :: ps)).toList =
      lineBreak (depth + 1) ++ (p.toList ++ ',' :: (lines depth (q :: ps)).toList) := by
  simp [lines, lineBreak, String.intercalate_cons_cons]

theorem length_lines (depth : Nat) (ps : List String) (hne : ps ≠ []) :
    ps.length < (lines depth ps).length ∧ ∀ p ∈ ps, p.length ≤ (lines depth ps).length := by
  have hpos : ∀ depth, 0 < (lineBreak depth).length := fun depth => Nat.succ_pos _
  simp only [← String.length_toList]
  induction ps with
  | nil => exact absurd rfl hne
  | cons p ps ih =>
    -- The last line has no comma, and so it is apart from the others.
    cases ps with
    | nil =>
      rw [lines_singleton]
      simp only [List.length_append, List.length_singleton, List.forall_mem_singleton]
      have := hpos depth
      have := hpos (depth + 1)
      omega
    | cons q ps =>
      obtain ⟨hlength, hall⟩ := ih (List.cons_ne_nil q ps)
      have := hpos (depth + 1)
      rw [lines_cons_cons, List.forall_mem_cons]
      simp only [List.length_append, List.length_cons] at hlength hall ⊢
      refine ⟨by omega, by omega, fun p hp => ?_⟩
      have := hall p hp
      omega

theorem length_le_of_mem {depth n : Nat} {ps : List String} {p front back : String} (hp : p ∈ ps)
    (hfront : front.length = 1) (hback : back.length = 1)
    (hn : (front ++ lines depth ps ++ back).length ≤ n + 1) : p.length ≤ n := by
  have hlength := (length_lines depth ps (List.ne_nil_of_mem hp)).2 p hp
  rw [String.length_append, String.length_append] at hn
  omega

/-- Parts on lines of their own are read one after the other. -/
theorem readParts_lines (depth : Nat) (hclose : isGap close = false) (hcomma : close ≠ ',')
    (hparts : List.Forall₂ (Reads part) texts as) (hne : texts ≠ []) {n : Nat}
    (hn : texts.length ≤ n) :
    readParts part close n ((lines depth texts).toList ++ close :: rest) = some (as, rest) := by
  induction hparts generalizing n with
  | nil => exact absurd rfl hne
  | @cons p a texts as hpart hparts ih =>
    obtain ⟨n, rfl⟩ : ∃ m, n = m + 1 := ⟨n - 1, by rw [List.length_cons] at hn; omega⟩
    cases hparts with
    | nil =>
      have hread := hpart (lineBreak (depth + 1)) (lineBreak depth ++ close :: rest)
        (all_lineBreak _) (stops_lineBreak depth _)
      have hskip : skipGaps (lineBreak depth ++ close :: rest) = close :: rest := by
        rw [skipGaps_append (all_lineBreak depth)]
        simp [skipGaps, hclose]
      rw [lines_singleton, List.append_assoc, List.append_assoc, readParts, hread]
      simp [hskip]
    | @cons q b texts as hnext hparts =>
      have hread := hpart (lineBreak (depth + 1))
        (',' :: ((lines depth (q :: texts)).toList ++ close :: rest)) (all_lineBreak _)
        (by simp [Stops])
      have hrest := ih (List.cons_ne_nil q texts) (n := n) (by simpa using hn)
      rw [lines_cons_cons, List.append_assoc, List.append_assoc, List.cons_append, readParts, hread]
      simp [skipGaps, isGap, hcomma.symm, hrest]

/-- The parts of a value are read between its brackets. -/
theorem readBetween_lines (depth : Nat) (hclose : isGap close = false) (hcomma : close ≠ ',')
    (hnone : ∀ cs, (skipGaps cs).head? = some close → part cs = none)
    (hparts : List.Forall₂ (Reads part) texts as) (hne : texts ≠ []) :
    readBetween part close ((lines depth texts).toList ++ close :: rest) = some (as, rest) := by
  have hread : ∀ n, texts.length ≤ n →
      readParts part close n ((lines depth texts).toList ++ close :: rest) = some (as, rest) :=
    fun n hn => readParts_lines depth hclose hcomma hparts hne hn
  have hsome : (skipGaps ((lines depth texts).toList ++ close :: rest)).head? ≠ some close := by
    -- The first part is read, so the closing bracket does not stand in its place.
    intro hhead
    have hfirst := hread (texts.length) (Nat.le_refl _)
    obtain ⟨p, texts, rfl⟩ := List.exists_cons_of_ne_nil hne
    rw [List.length_cons, readParts, hnone _ hhead] at hfirst
    cases hfirst
  rw [readBetween, if_neg hsome]
  refine hread _ ?_
  have hlength := (length_lines depth texts hne).1
  rw [List.length_append, String.length_toList]
  omega

end Parts

variable {n : Nat} {cs gap rest : List Char}

theorem readValue_append (hgap : gap.all isGap) (n : Nat) (cs : List Char) :
    readValue n (gap ++ cs) = readValue n cs := by
  cases n with
  | zero => rfl
  | succ n => rw [readValue, readValue, skipGaps_append hgap]

theorem readValue_of_bracket (h : (skipGaps cs).head? = some ']') : readValue n cs = none := by
  obtain ⟨more, hcs⟩ := List.head?_eq_some_iff.mp h
  cases n with
  | zero => rfl
  | succ n => simp [readValue, hcs, readNumber]

theorem readField_of_brace {value : List Char → Option (Json × List Char)}
    (h : (skipGaps cs).head? = some '\x7d') : readField value cs = none := by
  obtain ⟨more, hcs⟩ := List.head?_eq_some_iff.mp h
  simp [readField, hcs]

theorem exists_toList_quote (s : String) :
    ∃ cs, (quote s).toList = '"' :: (cs ++ ['"']) ∧
      ∀ rest, readText (cs ++ '"' :: rest) = some (s.toList, rest) :=
  ⟨(String.join (s.toList.map escapeChar)).toList, by simp [quote], readText_join s.toList⟩

theorem reads_quote (s : String) : Reads (readValue (n + 1)) (quote s) (string s) := by
  intro gap rest hgap _
  obtain ⟨cs, hquote, hread⟩ := exists_toList_quote s
  rw [readValue_append hgap, hquote]
  simp [readValue, skipGaps, isGap, hread]

theorem readValue_of_isDigit {d : Char} (hd : d.isDigit) (ds : List Char) :
    readValue (n + 1) (d :: ds) = (readNumber (d :: ds)).map fun (k, cs) => (number k, cs) := by
  have hne : ∀ c, c.isDigit = false → d ≠ c := by
    rintro c hc rfl
    rw [hd] at hc
    cases hc
  have hgap : isGap d = false := by
    simp [isGap, hne ' ' rfl, hne '\n' rfl, hne '\r' rfl, hne '\t' rfl]
  rw [readValue, skipGaps_cons hgap]
  split
  case h_7 => rfl
  all_goals
    next h => exact absurd (List.cons.inj h).1 (hne _ rfl)

theorem reads_toString (k : Nat) : Reads (readValue (n + 1)) (toString k) (number k) := by
  intro gap rest hgap hrest
  have hread := readNumber_toString k hrest
  rw [readValue_append hgap]
  rw [Nat.toString_eq_ofList_toDigits, String.toList_ofList] at hread ⊢
  obtain ⟨d, ds, hds⟩ := List.exists_cons_of_ne_nil (Nat.toDigits_ne_nil (n := k) (b := 10))
  have hd : d.isDigit :=
    Nat.isDigit_of_mem_toDigits (by decide) (by decide) (hds ▸ List.mem_cons_self)
  rw [hds, List.cons_append] at hread ⊢
  rw [readValue_of_isDigit hd, hread]
  rfl

/-- A key and its value on one line. -/
theorem reads_field {depth : Nat} {j : Json} (key : String)
    (h : Reads (readValue n) (prettyAt depth j) j) :
    Reads (readField (readValue n)) (quote key ++ ": " ++ prettyAt depth j) (key, j) := by
  intro gap rest hgap hrest
  have hvalue : readValue n (' ' :: ((prettyAt depth j).toList ++ rest)) = some (j, rest) :=
    h [' '] rest rfl hrest
  obtain ⟨cs, hquote, hread⟩ := exists_toList_quote key
  have htext : (quote key ++ ": " ++ prettyAt depth j).toList ++ rest =
      '"' :: (cs ++ '"' :: ':' :: ' ' :: ((prettyAt depth j).toList ++ rest)) := by
    simp [hquote]
  rw [htext, readField, skipGaps_append hgap, skipGaps_cons (by decide)]
  simp [hread, skipGaps_cons (c := ':') (by decide), hvalue]

theorem length_prettyAt_pos (depth : Nat) (j : Json) : 0 < (prettyAt depth j).length := by
  rw [← String.length_toList]
  unfold prettyAt
  split
  case h_2 b => cases b <;> decide
  case h_3 k =>
    rw [Nat.toString_eq_ofList_toDigits, String.toList_ofList]
    exact Nat.length_toDigits_pos
  case h_4 s =>
    obtain ⟨cs, hquote, -⟩ := exists_toList_quote s
    rw [hquote]
    exact Nat.succ_pos _
  all_goals simp

mutual

/-- The indented text of a value is read as the value. -/
theorem reads_prettyAt (depth : Nat) (j : Json) {n : Nat} (hn : (prettyAt depth j).length ≤ n) :
    Reads (readValue n) (prettyAt depth j) j := by
  -- The reader goes one level down for each part, and no text is shorter than its parts.
  obtain ⟨n, rfl⟩ : ∃ m, n = m + 1 :=
    ⟨n - 1, by have := length_prettyAt_pos depth j; omega⟩
  match j with
  | null =>
    intro gap rest hgap _
    rw [readValue_append hgap]
    simp [prettyAt, readValue, skipGaps, isGap]
  | bool b =>
    intro gap rest hgap _
    have htext : (toString b).toList = if b then "true".toList else "false".toList := by
      cases b <;> rfl
    rw [readValue_append hgap, prettyAt, htext]
    cases b <;> simp [readValue, skipGaps, isGap]
  | number k =>
    rw [prettyAt]
    exact reads_toString k
  | string s =>
    rw [prettyAt]
    exact reads_quote s
  | array [] =>
    intro gap rest hgap _
    rw [readValue_append hgap]
    simp [prettyAt, readValue, skipGaps, isGap, readBetween]
  | array (j :: js) =>
    intro gap rest hgap _
    rw [prettyAt] at hn
    have hitems := reads_prettyItems (depth + 1) (j :: js) (n := n) fun p hp =>
      length_le_of_mem hp rfl rfl hn
    have hread : readBetween (readValue n) ']' _ = some (j :: js, rest) :=
      readBetween_lines depth rfl (by decide) (fun cs => readValue_of_bracket) hitems
        (List.cons_ne_nil _ _)
    rw [readValue_append hgap]
    simp [prettyAt, readValue, skipGaps, isGap, hread]
  | object [] =>
    intro gap rest hgap _
    rw [readValue_append hgap]
    simp [prettyAt, readValue, skipGaps, isGap, readBetween]
  | object (f :: fs) =>
    intro gap rest hgap _
    rw [prettyAt] at hn
    have hfields := reads_prettyFields (depth + 1) (f :: fs) (n := n) fun p hp =>
      length_le_of_mem hp rfl rfl hn
    have hread : readBetween (readField (readValue n)) '\x7d' _ = some (f :: fs, rest) :=
      readBetween_lines depth rfl (by decide) (fun cs => readField_of_brace) hfields
        (List.cons_ne_nil _ _)
    rw [readValue_append hgap]
    simp [prettyAt, readValue, skipGaps, isGap, hread]

theorem reads_prettyItems (depth : Nat) (js : List Json) {n : Nat}
    (hn : ∀ p ∈ prettyItems depth js, p.length ≤ n) :
    List.Forall₂ (Reads (readValue n)) (prettyItems depth js) js :=
  match js with
  | [] => .nil
  | j :: js => .cons (reads_prettyAt depth j (hn _ (by simp [prettyItems])))
      (reads_prettyItems depth js fun p hp => hn p (by simp [prettyItems, hp]))

theorem reads_prettyFields (depth : Nat) (fs : List (String × Json)) {n : Nat}
    (hn : ∀ p ∈ prettyFields depth fs, p.length ≤ n) :
    List.Forall₂ (Reads (readField (readValue n))) (prettyFields depth fs) fs :=
  match fs with
  | [] => .nil
  | (key, j) :: fs => by
    have hlength := hn _ (by rw [prettyFields]; exact List.mem_cons_self)
    simp only [String.length_append] at hlength
    exact .cons (reads_field key (reads_prettyAt depth j (by omega)))
      (reads_prettyFields depth fs fun p hp => hn p (by simp [prettyFields, hp]))

end

/-- **The indented text of a value stands for this value.** -/
theorem read_pretty (j : Json) : read j.pretty = some j := by
  have hread : readValue j.pretty.length ([] ++ (j.pretty.toList ++ [])) = some (j, []) :=
    reads_prettyAt 0 j (Nat.le_refl _) [] [] rfl (by simp [Stops])
  rw [List.nil_append, List.append_nil] at hread
  rw [read, hread]
  rfl

end Graft.Json

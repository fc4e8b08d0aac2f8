import Graft.Proofs.Token.Inside

/-!
# Tokens with other blanks between them

Blanks decide where tokens stand and which marks run on into the next one. A spelling shows neither.
Whether a mark runs on says something only where it makes one operator of two marks, or a lifetime.
-/

namespace Graft

namespace Token

/-! ## What the spelling shows -/

mutual

/-- A token apart from the place where it was read and from the blanks behind it. -/
def unspaced : Token → Token
  | ident name _ => ident name .nowhere
  | punct c _ _ => punct c .alone .nowhere
  | literal text _ => literal text .nowhere
  | group d inner _ => group d (unspacedAll inner) .nowhere

def unspacedAll : List Token → List Token
  | [] => []
  | t :: ts => t.unspaced :: unspacedAll ts

end

theorem unspacedAll_eq_map (ts : List Token) : unspacedAll ts = ts.map unspaced := by
  induction ts with
  | nil => rfl
  | cons t ts ih => exact congrArg (t.unspaced :: ·) ih

mutual

theorem compact_unspaced (afterWord : Bool) :
    (t : Token) → t.unspaced.compact afterWord = t.compact afterWord
  | ident .. | punct .. | literal .. => rfl
  | group d inner span => by
    rw [unspaced, compact, compact, compactAll_unspacedAll false inner]

theorem compactAll_unspacedAll (afterWord : Bool) :
    (ts : List Token) → compactAll afterWord (unspacedAll ts) = compactAll afterWord ts
  | [] => rfl
  | t :: ts => by
    have hword : t.unspaced.isWord = t.isWord := by cases t <;> rfl
    rw [unspacedAll, compactAll, compactAll, compact_unspaced afterWord t, hword,
      compactAll_unspacedAll t.isWord ts]

end

theorem spelling_congr {ts us : List Token} (h : unspacedAll ts = unspacedAll us) :
    spelling ts = spelling us := by
  rw [spelling, ← compactAll_unspacedAll false ts, h, compactAll_unspacedAll, spelling]

/-! ## What blanks decide -/

/-- The operators of several marks. -/
def compounds : List String :=
  ["::", "->", "=>", "..", "...", "..=", "&&", "||", "==", "!=", "<=", ">=", "<<", ">>", "<<=",
   ">>=", "+=", "-=", "*=", "/=", "%=", "^=", "&=", "|="]

/-- Some operator has the mark `d` behind `c`. -/
def joins (c d : Char) : Bool :=
  compounds.any fun s => (s.toList.zip s.toList.tail).contains (c, d)

/-- Whether it says something that the mark `c` runs on into the tokens behind it. -/
def runsInto (c : Char) : List Token → Bool
  | punct d _ _ :: _ => c = '\'' || joins c d
  | _ => c = '\''

theorem runsInto_quote (ts : List Token) : runsInto '\'' ts = true := by
  unfold runsInto
  split <;> rfl

/-- The second tokens are the first ones with other blanks between them, which neither part nor join
the marks of an operator. -/
class inductive Respaced : List Token → List Token → Prop where
  | nil : Respaced [] []
  | ident {ts us} (name : String) (span span' : Span) : Respaced ts us →
      Respaced (.ident name span :: ts) (.ident name span' :: us)
  | punct {ts us} (c : Char) {spacing spacing' : Spacing} (span span' : Span) :
      (runsInto c ts = true → spacing' = spacing) → Respaced ts us →
      Respaced (.punct c spacing span :: ts) (.punct c spacing' span' :: us)
  | literal {ts us} (text : String) (span span' : Span) : Respaced ts us →
      Respaced (.literal text span :: ts) (.literal text span' :: us)
  | group {inner inner' ts us} (d : Delimiter) (span span' : Span) : Respaced inner inner' →
      Respaced ts us → Respaced (.group d inner span :: ts) (.group d inner' span' :: us)

namespace Respaced

variable {ts us : List Token}

theorem unspacedAll_eq (h : Respaced ts us) : unspacedAll ts = unspacedAll us := by
  induction h with
  | nil => rfl
  | group d span span' _ _ hinner hbehind =>
    rw [unspacedAll, unspacedAll, unspaced, unspaced, hinner, hbehind]
  | _ => simpa only [unspacedAll, unspaced, List.cons.injEq, true_and]

theorem length_eq (h : Respaced ts us) : ts.length = us.length := by
  have hlength : ∀ ts, (unspacedAll ts).length = ts.length := fun ts => by
    rw [unspacedAll_eq_map, List.length_map]
  rw [← hlength, h.unspacedAll_eq, hlength]

theorem sizeAll_eq (h : Respaced ts us) : sizeAll ts = sizeAll us := by
  induction h with
  | nil => rfl
  | group d span span' _ _ hinner hbehind => simp only [sizeAll, size, hinner, hbehind]
  | _ => simpa only [sizeAll, size, Nat.add_left_cancel_iff]

theorem tail (h : Respaced ts us) : Respaced ts.tail us.tail := by
  cases h <;> first | exact .nil | assumption

theorem drop (h : Respaced ts us) (n : Nat) : Respaced (ts.drop n) (us.drop n) := by
  induction n generalizing ts us with
  | zero => exact h
  | succ n ih =>
    rw [← List.drop_tail, ← List.drop_tail]
    exact ih h.tail

/-- Tokens that only stand elsewhere have the same blanks between them. -/
theorem of_unplacedAll_eq (h : unplacedAll ts = unplacedAll us) : Respaced ts us := by
  -- The size goes down to the tokens behind one as well as into a group.
  induction hsize : sizeAll ts using Nat.strongRecOn generalizing ts us with
  | ind n ih =>
    cases ts with
    | nil =>
      cases us with
      | nil => exact .nil
      | cons u us => cases h
    | cons t ts =>
      cases us with
      | nil => cases h
      | cons u us =>
        obtain ⟨ht, hts⟩ := List.cons.inj h
        rw [sizeAll] at hsize
        have hbehind : Respaced ts us := by
          have hpos : 0 < t.size := by cases t <;> simp [size]
          exact ih (sizeAll ts) (by omega) hts rfl
        cases t with
        | ident name span =>
          cases u with
          | ident name' span' =>
            obtain ⟨rfl, -⟩ := Token.ident.inj ht
            exact .ident name span span' hbehind
          | _ => cases ht
        | punct c spacing span =>
          cases u with
          | punct c' spacing' span' =>
            obtain ⟨rfl, rfl, -⟩ := Token.punct.inj ht
            exact .punct c span span' (fun _ => rfl) hbehind
          | _ => cases ht
        | literal text span =>
          cases u with
          | literal text' span' =>
            obtain ⟨rfl, -⟩ := Token.literal.inj ht
            exact .literal text span span' hbehind
          | _ => cases ht
        | group d inner span =>
          cases u with
          | group d' inner' span' =>
            obtain ⟨rfl, hinner, -⟩ := Token.group.inj ht
            rw [size] at hsize
            exact .group d span span' (ih (sizeAll inner) (by omega) hinner rfl) hbehind
          | _ => cases ht

end Respaced

/-! ## Operators -/

/-- Every two marks in a row of the text stand so in some operator. -/
class IsOperator (s : String) : Prop where
  joined : ∀ p ∈ s.toList.zip s.toList.tail, joins p.1 p.2 = true

/-- Operators all. -/
class AreOperators (names : List String) : Prop where
  isOperator : ∀ s ∈ names, IsOperator s

instance : AreOperators [] := ⟨nofun⟩

instance (s : String) (names : List String) [h : IsOperator s] [hnames : AreOperators names] :
    AreOperators (s :: names) :=
  ⟨List.forall_mem_cons.mpr ⟨h, hnames.isOperator⟩⟩

instance : IsOperator ":" := ⟨by decide⟩
instance : IsOperator ";" := ⟨by decide⟩
instance : IsOperator "," := ⟨by decide⟩
instance : IsOperator "=" := ⟨by decide⟩
instance : IsOperator "!" := ⟨by decide⟩
instance : IsOperator ">" := ⟨by decide⟩
instance : IsOperator "<" := ⟨by decide⟩
instance : IsOperator "+" := ⟨by decide⟩
instance : IsOperator "|" := ⟨by decide⟩
instance : IsOperator "?" := ⟨by decide⟩
instance : IsOperator "&" := ⟨by decide⟩
instance : IsOperator "#" := ⟨by decide⟩
instance : IsOperator "." := ⟨by decide⟩
instance : IsOperator "*" := ⟨by decide⟩
instance : IsOperator "/" := ⟨by decide⟩
instance : IsOperator "%" := ⟨by decide⟩
instance : IsOperator "^" := ⟨by decide⟩
instance : IsOperator "-" := ⟨by decide⟩
instance : IsOperator "@" := ⟨by decide⟩
instance : IsOperator "::" := ⟨by decide⟩
instance : IsOperator ".." := ⟨by decide⟩
instance : IsOperator "..." := ⟨by decide⟩
instance : IsOperator "..=" := ⟨by decide⟩
instance : IsOperator "!=" := ⟨by decide⟩
instance : IsOperator "=>" := ⟨by decide⟩
instance : IsOperator "==" := ⟨by decide⟩
instance : IsOperator "|=" := ⟨by decide⟩
instance : IsOperator "||" := ⟨by decide⟩
instance : IsOperator "<=" := ⟨by decide⟩
instance : IsOperator "<<=" := ⟨by decide⟩
instance : IsOperator "->" := ⟨by decide⟩
instance : IsOperator "-=" := ⟨by decide⟩
instance : IsOperator "*=" := ⟨by decide⟩
instance : IsOperator "&=" := ⟨by decide⟩

end Token

end Graft

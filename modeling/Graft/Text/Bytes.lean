/-!
# Byte offsets

Spans in host files are byte offsets of the UTF-8 form of the text. A text is held as its
characters; the functions here find the splits that offsets stand for.
-/

namespace Graft

def byteLength (cs : List Char) : Nat := cs.foldr (fun c n => c.utf8Size + n) 0

@[simp] theorem byteLength_nil : byteLength [] = 0 := rfl

@[simp] theorem byteLength_cons (c : Char) (cs : List Char) :
    byteLength (c :: cs) = c.utf8Size + byteLength cs := rfl

@[simp] theorem byteLength_append (as bs : List Char) :
    byteLength (as ++ bs) = byteLength as + byteLength bs := by
  induction as with
  | nil => simp
  | cons c as ih => simp [ih, Nat.add_assoc]

theorem byteLength_pos {cs : List Char} (h : cs ≠ []) : 0 < byteLength cs := by
  obtain ⟨c, cs, rfl⟩ := List.exists_cons_of_ne_nil h
  have hsize := c.utf8Size_pos
  rw [byteLength_cons]
  omega

/-- Splits a text at a byte offset; nothing if the offset lies inside a character or past the
end. -/
def splitAtByte? : Nat → List Char → Option (List Char × List Char)
  | 0, cs => some ([], cs)
  | _ + 1, [] => none
  | n + 1, c :: cs =>
    if c.utf8Size ≤ n + 1 then (splitAtByte? (n + 1 - c.utf8Size) cs).map fun (a, b) => (c :: a, b)
    else none

theorem splitAtByte?_byteLength (as bs : List Char) :
    splitAtByte? (byteLength as) (as ++ bs) = some (as, bs) := by
  induction as with
  | nil => simp [splitAtByte?]
  | cons c as ih =>
    have size := c.utf8Size_pos
    obtain ⟨n, hn⟩ : ∃ n, c.utf8Size + byteLength as = n + 1 :=
      ⟨c.utf8Size + byteLength as - 1, by omega⟩
    have fits : c.utf8Size ≤ n + 1 := by omega
    have left : n + 1 - c.utf8Size = byteLength as := by omega
    simp [hn, splitAtByte?, fits, left, ih]

theorem eq_append_of_splitAtByte? {n : Nat} {cs as bs : List Char}
    (h : splitAtByte? n cs = some (as, bs)) : cs = as ++ bs ∧ byteLength as = n := by
  induction cs generalizing n as with
  | nil =>
    cases n with
    | zero => simp_all [splitAtByte?]
    | succ n => simp [splitAtByte?] at h
  | cons c cs ih =>
    cases n with
    | zero => simp_all [splitAtByte?]
    | succ n =>
      rw [splitAtByte?] at h
      split at h
      · obtain ⟨⟨a, b⟩, hab, he⟩ := Option.map_eq_some_iff.1 h
        obtain ⟨rfl, rfl⟩ := Prod.mk.inj he
        have ⟨hcs, hlen⟩ := ih hab
        exact ⟨by rw [hcs, List.cons_append], by rw [byteLength_cons, hlen]; omega⟩
      · exact absurd h (by simp)

def slice? (cs : List Char) (first last : Nat) : Option (List Char) := do
  let (before, _) ← splitAtByte? last cs
  let (_, inside) ← splitAtByte? first before
  return inside

theorem slice?_append (before inside after : List Char) :
    slice? (before ++ inside ++ after) (byteLength before)
      (byteLength before + byteLength inside) = some inside := by
  have hlast : splitAtByte? (byteLength before + byteLength inside) (before ++ inside ++ after) =
      some (before ++ inside, after) := by
    rw [← byteLength_append]
    exact splitAtByte?_byteLength _ _
  rw [slice?, hlast]
  show (do
    let (_, inside) ← splitAtByte? (byteLength before) (before ++ inside)
    return inside) = some inside
  rw [splitAtByte?_byteLength]
  rfl

structure ByteSpan where
  first : Nat
  last : Nat
  deriving DecidableEq, Repr

namespace ByteSpan

def shift (s : ByteSpan) (n : Nat) : ByteSpan := ⟨s.first + n, s.last + n⟩

end ByteSpan

end Graft

import Mathlib.Data.List.Forall2
import Graft.Text.Bytes

/-!
# Texts cut along spans

A text is cut where spans start and end, into the gaps between the spans and what stands inside of
them. Put together with other texts inside, it keeps all gaps.
-/

namespace Graft

/-- Gaps with a text between each two. -/
def weave : List (List Char) → List (List Char) → List Char
  | gap :: gaps, inside :: insides => gap ++ inside ++ weave gaps insides
  | gaps, _ => gaps.flatten

/-- The texts before, between and behind spans that follow one another, from the byte `first`. -/
def gapsFrom? (cs : List Char) (first : Nat) : List ByteSpan → Option (List (List Char))
  | [] => (slice? cs first (byteLength cs)).map ([·])
  | s :: ss => do
    let gap ← slice? cs first s.first
    let gaps ← gapsFrom? cs s.last ss
    return gap :: gaps

/-- A text that starts at the byte `offset` of its file is cut along spans, into gaps and what is
inside of the spans, of which none is empty. -/
inductive Cut : (offset : Nat) → (cs : List Char) → (spans : List ByteSpan) →
    (gaps insides : List (List Char)) → Prop where
  | rest (offset : Nat) (gap : List Char) : Cut offset gap [] [gap] []
  | span {offset first last : Nat} {gap inside cs : List Char} {spans : List ByteSpan}
      {gaps insides : List (List Char)} (hfirst : first = offset + byteLength gap)
      (hlast : last = first + byteLength inside) (hinside : inside ≠ []) :
      Cut last cs spans gaps insides →
      Cut offset (gap ++ inside ++ cs) (⟨first, last⟩ :: spans) (gap :: gaps) (inside :: insides)

namespace Cut

variable {offset : Nat} {cs before : List Char} {spans : List ByteSpan}
  {gaps insides : List (List Char)}

theorem weave_eq (h : Cut offset cs spans gaps insides) : weave gaps insides = cs := by
  induction h with
  | rest offset gap => exact List.append_nil gap
  | span hfirst hlast hinside _ ih => rw [weave, ih]

/-- Text before a cut one belongs to its first gap. -/
theorem prepend (taken : List Char) (h : Cut (offset + byteLength taken) cs spans gaps insides) :
    ∃ gaps', Cut offset (taken ++ cs) spans gaps' insides := by
  cases h with
  | rest _ gap => exact ⟨_, .rest offset (taken ++ cs)⟩
  | @span _ first last gap inside rest _ gaps _ hfirst hlast hinside hrest =>
    refine ⟨(taken ++ gap) :: gaps, ?_⟩
    have hcut : taken ++ (gap ++ inside ++ rest) = (taken ++ gap) ++ inside ++ rest := by simp
    rw [hcut]
    refine .span ?_ hlast hinside hrest
    rw [hfirst, byteLength_append]
    omega

/-- Later spans start further back. -/
theorem pairwise (h : Cut offset cs spans gaps insides) :
    spans.Pairwise (fun s s' => s.first < s'.first) ∧ ∀ s ∈ spans, offset ≤ s.first := by
  induction h with
  | rest offset gap => exact ⟨.nil, by simp⟩
  | @span offset first last gap inside cs spans gaps insides hfirst hlast hinside _ ih =>
    obtain ⟨hpairwise, hbound⟩ := ih
    have hlength := byteLength_pos hinside
    refine ⟨List.pairwise_cons.mpr ⟨?_, hpairwise⟩, ?_⟩
    · intro s hs
      have hlater := hbound s hs
      show first < s.first
      omega
    · intro s hs
      rcases List.mem_cons.mp hs with rfl | hs
      · show offset ≤ first
        omega
      · have hlater := hbound s hs
        omega

/-- No span reaches into a later one. -/
theorem apart (h : Cut offset cs spans gaps insides) :
    spans.Pairwise fun s s' => s.last ≤ s'.first := by
  induction h with
  | rest offset gap => exact .nil
  | span hfirst hlast hinside hrest ih =>
    exact List.pairwise_cons.mpr ⟨hrest.pairwise.2, ih⟩

/-- A span lies in the file, and what is inside of it is what the file has there. -/
theorem slices (h : Cut offset cs spans gaps insides) (hbefore : byteLength before = offset) :
    List.Forall₂ (fun s inside => s.first < s.last ∧ s.last ≤ offset + byteLength cs ∧
      slice? (before ++ cs) s.first s.last = some inside) spans insides := by
  induction h generalizing before with
  | rest offset gap => exact .nil
  | @span offset first last gap inside cs spans gaps insides hfirst hlast hinside _ ih =>
    have hlength := byteLength_pos hinside
    have htext : before ++ (gap ++ inside ++ cs) = before ++ gap ++ inside ++ cs := by simp
    have hhere : slice? (before ++ (gap ++ inside ++ cs)) first last = some inside := by
      rw [htext, hlast, hfirst, ← hbefore, ← byteLength_append]
      exact slice?_append (before ++ gap) inside cs
    have hend : byteLength (before ++ gap ++ inside) = last := by
      rw [byteLength_append, byteLength_append]
      omega
    refine .cons ⟨?_, ?_, hhere⟩ ((ih hend).imp ?_)
    · show first < last
      omega
    · show last ≤ _
      rw [byteLength_append, byteLength_append]
      omega
    · rintro s text ⟨hs, hbound, hslice⟩
      refine ⟨hs, ?_, ?_⟩
      · rw [byteLength_append, byteLength_append]
        omega
      · rw [htext]
        exact hslice

/-- The gaps are what the file has between the spans. -/
theorem gapsFrom?_eq (h : Cut offset cs spans gaps insides) (hbefore : byteLength before = offset) :
    gapsFrom? (before ++ cs) offset spans = some gaps := by
  induction h generalizing before with
  | rest offset gap =>
    have hslice := slice?_append before gap []
    rw [List.append_nil, ← byteLength_append, hbefore] at hslice
    rw [gapsFrom?, hslice]
    rfl
  | @span offset first last gap inside cs spans gaps insides hfirst hlast hinside _ ih =>
    have hgap : slice? (before ++ (gap ++ inside ++ cs)) offset first = some gap := by
      rw [hfirst, ← hbefore, List.append_assoc gap, ← List.append_assoc before]
      exact slice?_append before gap (inside ++ cs)
    have hrest : gapsFrom? (before ++ (gap ++ inside ++ cs)) last spans = some gaps := by
      have hlength : byteLength (before ++ (gap ++ inside)) = last := by
        rw [byteLength_append, byteLength_append]
        omega
      rw [← List.append_assoc]
      exact ih hlength
    rw [gapsFrom?, hgap]
    show (do
      let gaps ← gapsFrom? (before ++ (gap ++ inside ++ cs)) last spans
      return gap :: gaps) = some (gap :: gaps)
    rw [hrest]
    rfl

end Cut

end Graft

import Graft.Proofs.Types.Brackets

/-!
# Host types as arguments

An argument of a type constructor is one word: no blank stands outside of its brackets, so that an
application is read as the constructor and its arguments. The exception is a text that a square
bracket opens and a square bracket closes, but not the same pair: it is taken for one list.
-/

namespace Graft

open Brackets (closed)

variable {cs p u v : List Char} {t : HostType} {args : List HostType}

/-! ## Blanks outside of brackets -/

theorem Brackets.next?_blank {c : Char} (hc : isBlank c) (b : Brackets) : b.next? c = some b := by
  have hne : ∀ d, isBlank d = false → c ≠ d := by
    rintro d hd rfl
    rw [hc] at hd
    cases hd
  rw [next?, if_neg (hne _ (by decide)), if_neg (hne _ (by decide)), if_neg (hne _ (by decide)),
    if_neg (hne _ (by decide))]

theorem balanced_blank {c : Char} (hc : isBlank c) : Balanced [c] := by
  rw [Balanced, Brackets.behind?, Brackets.next?_blank hc]
  rfl

/-- One blank. -/
def blanks : Separator where
  length cs := if cs.head?.any isBlank then 1 else 0
  length_le cs := by
    cases cs with
    | nil => simp
    | cons c cs => simp only [List.length_cons]; split <;> omega
  balanced cs := by
    cases cs with
    | nil => rfl
    | cons c cs =>
      by_cases hc : isBlank c
      · simpa [hc] using balanced_blank hc
      · simp only [List.head?_cons, Option.any_some, hc]
        rfl

/-- The words of a text: its pieces between blanks outside of brackets. -/
def words (cs : List Char) : List (List Char) := splitOutside blanks closed cs

/-- A blank stands outside of all brackets. -/
def HasOuterBlank (cs : List Char) : Prop := ∃ c v, isBlank c ∧ Outside cs (c :: v)

theorem words_append_blank {c : Char} (hp : Balanced p) (hc : isBlank c) (rest : List Char) :
    words (p ++ c :: rest) = words p ++ words rest := by
  refine splitOutside_append [c] hp (List.cons_ne_nil _ _) ?_ ?_
  · simp [blanks, hc]
  · intro u v _ hv _
    obtain ⟨d, v, rfl⟩ := List.exists_cons_of_ne_nil hv
    rfl

theorem words_ne_nil (cs : List Char) : words cs ≠ [] := splitOutside_ne_nil _ _ cs

/-- A balanced text is one word just if no blank stands outside. -/
theorem words_eq_self_iff (hp : Balanced p) : words p = [p] ↔ ¬ HasOuterBlank p := by
  constructor
  · rintro hwords ⟨c, v, hc, u, rfl, hu⟩
    rw [words_append_blank hu hc] at hwords
    have hlength := congrArg List.length hwords
    have hpos := List.length_pos_iff.mpr (words_ne_nil u)
    have hpos' := List.length_pos_iff.mpr (words_ne_nil v)
    simp only [List.length_append, List.length_cons, List.length_nil] at hlength
    omega
  · intro hblank
    refine splitOutside_eq_self hp fun u v hcs hv hu => ?_
    obtain ⟨c, v, rfl⟩ := List.exists_cons_of_ne_nil hv
    have hc : ¬ isBlank c := fun hc => hblank ⟨c, v, hc, u, hcs, hu⟩
    simp [blanks, hc]

/-! ## Arguments -/

namespace HostType

/-- A parenthesis that is closed at the end of a text only stays open up to there. -/
theorem closesLast_round {b b' : Brackets} (hopen : 0 < b.round) (hu : b.behind? u = some b')
    (hclose : closesLast b.round (u ++ v)) (hv : v ≠ []) : 0 < b'.round := by
  induction u generalizing b with
  | nil =>
    obtain rfl := Option.some.inj hu
    exact hopen
  | cons c u ih =>
    obtain ⟨d, hd, hu⟩ := Option.bind_eq_some_iff.mp hu
    have hrest : (u ++ v).isEmpty = false := by simp [hv]
    rw [List.cons_append] at hclose
    by_cases hleft : c = '('
    · subst hleft
      obtain rfl : { b with round := b.round + 1 } = d := Option.some.inj hd
      exact ih (Nat.succ_pos _) hu hclose
    by_cases hright : c = ')'
    · subst hright
      obtain rfl : { b with round := b.round - 1 } = d := by
        have hround : b.round ≠ 0 := by omega
        simpa [Brackets.next?, hround] using hd
      rw [closesLast, hrest, Bool.or_false, Bool.and_eq_true, decide_eq_true_iff] at hclose
      exact ih (Nat.pos_of_ne_zero hclose.1) hu hclose.2
    · have hround : d.round = b.round := by
        simp only [Brackets.next?, if_neg hleft, if_neg hright] at hd
        grind
      rw [closesLast.eq_4 _ _ _ hleft hright, ← hround] at hclose
      exact ih (hround ▸ hopen) hu hclose

/-- Of a text in one pair of parentheses nothing but the whole stands outside. -/
theorem not_hasOuterBlank_of_closesLast (hends : enclosed '(' ')' cs) (hclose : closesLast 0 cs) :
    ¬ HasOuterBlank cs := by
  rintro ⟨c, v, hc, u, rfl, hu⟩
  cases u with
  | nil =>
    rw [enclosed, Bool.and_eq_true, decide_eq_true_iff] at hends
    obtain rfl : c = '(' := Option.some.inj hends.1
    exact absurd hc (by decide)
  | cons d u =>
    rw [enclosed, Bool.and_eq_true, decide_eq_true_iff] at hends
    obtain rfl : d = '(' := Option.some.inj hends.1
    have hopen := closesLast_round (b := ⟨1, 0⟩) Nat.one_pos hu hclose (List.cons_ne_nil _ _)
    exact absurd hopen (by decide)

theorem not_hasOuterBlank_parens (hcs : Balanced cs) : ¬ HasOuterBlank ('(' :: cs ++ [')']) := by
  rintro ⟨c, v, hc, hout⟩
  obtain ⟨rfl, -⟩ := List.cons.inj (hout.of_parens hcs (List.cons_ne_nil _ _))
  exact absurd hc (by decide)

/-- A text that starts and ends in square brackets and has a blank outside of them: it is taken for
one list. -/
def IsTorn (t : HostType) : Prop := enclosed '[' ']' t.text.toList ∧ HasOuterBlank t.text.toList

/-- An argument is the text itself or the text in parentheses. -/
theorem toList_asArgument (t : HostType) :
    t.asArgument.toList = t.text.toList ∧ t.isAtomic ∨
      t.asArgument.toList = '(' :: t.text.toList ++ [')'] ∧ ¬ t.isAtomic := by
  unfold asArgument
  by_cases h : t.isAtomic
  · exact .inl ⟨by rw [if_pos h], h⟩
  · refine .inr ⟨?_, h⟩
    rw [if_neg h, String.toList_append, String.toList_append]
    rfl

theorem balanced_asArgument (ht : Balanced t.text.toList) : Balanced t.asArgument.toList := by
  rcases t.toList_asArgument with ⟨htext, -⟩ | ⟨htext, -⟩
  · exact htext ▸ ht
  · exact htext ▸ ht.parens

/-- An argument is one word, unless the text is torn. -/
theorem hasOuterBlank_asArgument_iff (ht : Balanced t.text.toList) :
    HasOuterBlank t.asArgument.toList ↔ t.IsTorn := by
  rcases t.toList_asArgument with ⟨htext, hatomic⟩ | ⟨htext, hatomic⟩
  · rw [htext]
    constructor
    · intro hblank
      refine ⟨?_, hblank⟩
      unfold isAtomic at hatomic
      simp only [Bool.or_eq_true, Bool.and_eq_true] at hatomic
      rcases hatomic with (hnone | ⟨hends, hclose⟩) | hsquare
      · obtain ⟨c, v, hc, u, hcs, -⟩ := hblank
        rw [Bool.not_eq_true', List.any_eq_false] at hnone
        exact absurd hc (hnone c (by rw [hcs]; simp))
      · exact absurd hblank (not_hasOuterBlank_of_closesLast hends hclose)
      · exact hsquare
    · exact And.right
  · rw [htext]
    refine iff_of_false (not_hasOuterBlank_parens ht) fun htorn => hatomic ?_
    unfold isAtomic
    simp only [htorn.1, Bool.or_true]

/-! ## Applications -/

theorem toList_apply (constructor : String) (args : List HostType) :
    (apply constructor args).text.toList =
      constructor.toList ++ args.flatMap fun a => ' ' :: a.asArgument.toList := by
  show (args.foldl (fun text arg => text ++ " " ++ arg.asArgument) constructor).toList = _
  induction args generalizing constructor with
  | nil => simp
  | cons a args ih =>
    rw [List.foldl_cons, ih, String.toList_append, String.toList_append, List.flatMap_cons]
    simp

theorem balanced_arguments (hargs : ∀ a ∈ args, Balanced a.text.toList) (hp : Balanced p) :
    Balanced (p ++ args.flatMap fun a => ' ' :: a.asArgument.toList) := by
  induction args generalizing p with
  | nil => simpa using hp
  | cons a args ih =>
    have ha := balanced_asArgument (hargs a List.mem_cons_self)
    have hblank : Balanced (' ' :: a.asArgument.toList) :=
      (balanced_blank (by decide) : Balanced [' ']).append ha
    rw [List.flatMap_cons, ← List.append_assoc]
    exact ih (fun b hb => hargs b (List.mem_cons_of_mem _ hb)) (hp.append hblank)

theorem words_arguments (hargs : ∀ a ∈ args, Balanced a.text.toList) (hp : Balanced p) :
    words (p ++ args.flatMap fun a => ' ' :: a.asArgument.toList) =
      words p ++ args.flatMap fun a => words a.asArgument.toList := by
  induction args generalizing p with
  | nil => simp
  | cons a args ih =>
    have ha := balanced_asArgument (hargs a List.mem_cons_self)
    rw [List.flatMap_cons, List.flatMap_cons, List.cons_append, words_append_blank hp (by decide),
      ih (fun b hb => hargs b (List.mem_cons_of_mem _ hb)) ha]

/-- Every text has a word at least, so that there are as many words as texts only where each text is
one. -/
theorem flatMap_words_eq_iff {texts : List (List Char)} :
    texts.flatMap words = texts ↔ ∀ text ∈ texts, words text = [text] := by
  constructor
  · intro h
    have hlength : ∀ texts : List (List Char), texts.length ≤ (texts.flatMap words).length := by
      intro texts
      induction texts with
      | nil => exact Nat.zero_le _
      | cons text texts ih =>
        have hpos := List.length_pos_iff.mpr (words_ne_nil text)
        rw [List.flatMap_cons, List.length_append, List.length_cons]
        omega
    induction texts with
    | nil => exact fun _ hmem => absurd hmem List.not_mem_nil
    | cons text texts ih =>
      have hsum := congrArg List.length h
      have hpos := List.length_pos_iff.mpr (words_ne_nil text)
      have hmore := hlength texts
      rw [List.flatMap_cons] at h
      rw [List.flatMap_cons, List.length_append, List.length_cons] at hsum
      obtain ⟨word, hword⟩ := List.length_eq_one_iff.mp (show (words text).length = 1 by omega)
      rw [hword, List.singleton_append] at h
      obtain ⟨rfl, hrest⟩ := List.cons.inj h
      exact List.forall_mem_cons.mpr ⟨hword, ih hrest⟩
  · intro h
    induction texts with
    | nil => rfl
    | cons text texts ih =>
      obtain ⟨htext, hrest⟩ := List.forall_mem_cons.mp h
      rw [List.flatMap_cons, htext, ih hrest, List.singleton_append]

/-- The words of an application are the constructor and the arguments just if none of them is
torn. -/
theorem words_apply_iff {constructor : String} (hone : Balanced constructor.toList)
    (hword : ¬ HasOuterBlank constructor.toList) (hargs : ∀ a ∈ args, Balanced a.text.toList) :
    words (apply constructor args).text.toList =
        constructor.toList :: args.map (·.asArgument.toList) ↔ ∀ a ∈ args, ¬ a.IsTorn := by
  have hmap : (args.flatMap fun a => words a.asArgument.toList) =
      (args.map (·.asArgument.toList)).flatMap words := by
    rw [List.flatMap_map]
  rw [toList_apply, words_arguments hargs hone, (words_eq_self_iff hone).mpr hword, hmap,
    List.singleton_append, List.cons.injEq, and_iff_right rfl, flatMap_words_eq_iff,
    List.forall_mem_map]
  refine forall₂_congr fun a ha => ?_
  rw [words_eq_self_iff (balanced_asArgument (hargs a ha)),
    hasOuterBlank_asArgument_iff (hargs a ha)]

end HostType

/-- A host type as it is put together: a text of its own, or a constructor applied to types. -/
inductive HostTerm where
  | text (t : HostType)
  | apply (constructor : String) (args : List HostTerm)

namespace HostTerm

/-- The host type that is put together. -/
def type : HostTerm → HostType
  | text t => t
  | apply constructor args => .apply constructor (args.map type)

/-- `u` is a part of a type, at any depth. -/
inductive Part (u : HostTerm) : HostTerm → Prop where
  | self : Part u u
  | arg {constructor : String} {args : List HostTerm} {a : HostTerm} (ha : a ∈ args) :
      Part u a → Part u (.apply constructor args)

/-- The brackets of all texts are balanced, and every constructor is one word. -/
inductive Formed : HostTerm → Prop where
  | text {t : HostType} (ht : Balanced t.text.toList) : Formed (.text t)
  | apply {constructor : String} {args : List HostTerm} (hone : Balanced constructor.toList)
      (hword : ¬ HasOuterBlank constructor.toList) (hargs : ∀ a ∈ args, Formed a) :
      Formed (.apply constructor args)

variable {t u : HostTerm}

theorem Formed.balanced (h : t.Formed) : Balanced t.type.text.toList := by
  induction h with
  | text ht =>
    rw [type]
    exact ht
  | @apply constructor args hone hword hargs ih =>
    rw [type, HostType.toList_apply]
    exact HostType.balanced_arguments (List.forall_mem_map.mpr ih) hone

theorem Formed.part (h : t.Formed) (hu : Part u t) : u.Formed := by
  induction hu with
  | self => exact h
  | arg ha _ ih =>
    cases h with
    | apply hone hword hargs => exact ih (hargs _ ha)

/-- **Arguments are safe unless they are torn.** As an argument, a type is one word, unless a square
bracket opens it, a square bracket closes it and a blank stands outside. At every depth the words of
an application are its constructor and its arguments, just if none of these is torn. -/
theorem words_apply (h : t.Formed) :
    (HasOuterBlank t.type.asArgument.toList ↔ t.type.IsTorn) ∧
    ∀ constructor args, Part (.apply constructor args) t →
      (words (type (.apply constructor args)).text.toList =
          constructor.toList :: args.map (·.type.asArgument.toList) ↔
        ∀ a ∈ args, ¬ a.type.IsTorn) := by
  refine ⟨HostType.hasOuterBlank_asArgument_iff h.balanced, fun constructor args hpart => ?_⟩
  cases h.part hpart with
  | apply hone hword hargs =>
    have hbalanced : ∀ a ∈ args.map type, Balanced a.text.toList :=
      List.forall_mem_map.mpr fun a ha => (hargs a ha).balanced
    have hwords := HostType.words_apply_iff hone hword hbalanced
    rw [List.map_map, List.forall_mem_map] at hwords
    rw [type]
    exact hwords

/-- A pointer to a type. -/
def pointer (t : HostTerm) : HostTerm := .apply "Ptr" [t]

theorem Formed.pointer (h : t.Formed) : (pointer t).Formed := by
  have hptr : Balanced "Ptr".toList := by decide
  refine .apply hptr ((words_eq_self_iff hptr).mp (by decide +kernel)) ?_
  exact List.forall_mem_singleton.mpr h

/-- A pointer to a pointer is two words, of which the second is in parentheses. -/
theorem words_apply_pointers :
    let t := pointer (pointer (.text ⟨"Int8"⟩))
    t.Formed ∧ Part (pointer (.text ⟨"Int8"⟩)) t ∧
      ¬ HasOuterBlank (pointer (.text ⟨"Int8"⟩)).type.asArgument.toList ∧
      words t.type.text.toList = ["Ptr".toList, "(Ptr Int8)".toList] := by
  intro t
  have hinner : (pointer (.text ⟨"Int8"⟩)).Formed := .pointer (.text (by decide))
  have htype : (pointer (.text ⟨"Int8"⟩)).type = .apply "Ptr" [⟨"Int8"⟩] := by
    simp [pointer, type]
  have htorn : ¬ (pointer (.text ⟨"Int8"⟩)).type.IsTorn := by
    rw [htype]
    exact fun h => absurd h.1 (by decide +kernel)
  refine ⟨hinner.pointer, .arg List.mem_cons_self .self,
    fun h => htorn ((words_apply hinner).1.mp h), ?_⟩
  refine (((words_apply hinner.pointer).2 "Ptr" _ .self).mpr ?_).trans ?_
  · exact List.forall_mem_singleton.mpr htorn
  · rw [List.map_singleton, htype]
    decide +kernel

/-- A function from lists to lists is an argument as it stands, and so three arguments. -/
theorem words_apply_lists :
    let t : HostType := ⟨"[a] -> [b]"⟩
    (HostTerm.text t).Formed ∧ HasOuterBlank t.asArgument.toList ∧
      words (HostType.apply "Ptr" [t]).text.toList =
        ["Ptr".toList, "[a]".toList, "->".toList, "[b]".toList] := by
  intro t
  refine ⟨.text (by decide), ?_, by decide +kernel⟩
  exact ⟨' ', "-> [b]".toList, by decide, "[a]".toList, by decide, by decide⟩

end HostTerm

end Graft

import Graft.Files.Tree
import Graft.Proofs.Files.Path
import Graft.Proofs.Result
import Graft.Unit.Flush

/-!
# Writing leaves other files alone

Writing a file and making directories neither remove anything nor change a directory into a file.
So a file that has been written below a directory is still found there, with its text, until its own
path is written again.
-/

namespace Graft.FileTree

variable {t t' : FileTree} {a here : Address} {p : FilePath} {s : String}

/-! ## Following segments -/

/-- Where a segment leads to. -/
def follow (here : Address) (s : List Char) : Address :=
  match PathPart.ofSegment? s with
  | some (.name n) => here ++ [n]
  | some .parent => here.dropLast
  | _ => here

/-- Where segments lead to, whatever lies on the way. -/
def reached (here : Address) (ss : List (List Char)) : Address := ss.foldl follow here

theorem walk_append (t : FileTree) (here : Address) (ss ss' : List (List Char)) :
    t.walk here (ss ++ ss') = t.walk here ss >>= fun a => t.walk a ss' := by
  induction ss generalizing here with
  | nil => rfl
  | cons s ss ih =>
    rw [List.cons_append, walk, walk]
    split
    · rfl
    · rfl
    · split
      · split
        · exact ih _
        · rfl
      · exact ih _
      · exact ih _

theorem walk_eq_reached {ss : List (List Char)} (h : t.walk here ss = .ok a) :
    a = reached here ss := by
  induction ss generalizing here with
  | nil => exact (Except.ok.inj h).symm
  | cons s ss ih =>
    rw [reached, List.foldl_cons]
    rw [walk] at h
    split at h
    · cases h
    · cases h
    · split at h
      next n hn =>
        split at h
        · rw [ih h, follow, hn]
          rfl
        · cases h
      next hs =>
        rw [ih h, follow, hs]
        rfl
      next hname hparent =>
        have hstay : follow here s = here := by
          unfold follow
          split
          next n hn => exact absurd hn (hname n)
          next hs => exact absurd hs hparent
          · rfl
        rw [ih h, hstay]
        rfl

/-- Behind a `.` there is what was there before, and it is a directory. -/
theorem walk_here {ss : List (List Char)} (h : t.walk here (ss ++ [['.']]) = .ok a) :
    t.walk here ss = .ok a ∧ t.get? a = some .directory := by
  rw [walk_append] at h
  obtain ⟨b, hb, h⟩ := except_bind_eq_ok h
  rw [walk] at h
  split at h
  · cases h
  · cases h
  next hdirectory =>
    obtain rfl : b = a := Except.ok.inj h
    exact ⟨hb, hdirectory⟩

theorem walk_name {ss : List (List Char)} {n : String} (hss : t.walk here ss = .ok a)
    (ha : t.get? a = some .directory) (hn : FilePath.IsName n)
    (hsome : (t.get? (a ++ [n])).isSome) :
    t.walk here (ss ++ [n.toList]) = .ok (a ++ [n]) := by
  rw [walk_append, hss]
  show t.walk a [n.toList] = _
  rw [walk, ha, hn.segment]
  simp only
  rw [if_pos hsome]
  rfl

theorem reached_names {names : List String} (h : ∀ n ∈ names, FilePath.IsName n) :
    reached here (names.map String.toList) = here ++ names := by
  induction names generalizing here with
  | nil => exact (List.append_nil here).symm
  | cons n ns ih =>
    have hn : follow here n.toList = here ++ [n] := by
      rw [follow, (h n List.mem_cons_self).segment]
    have hrest : reached (here ++ [n]) (ns.map String.toList) = here ++ [n] ++ ns :=
      ih fun m hm => h m (List.mem_cons_of_mem n hm)
    rw [List.map_cons, reached, List.foldl_cons, hn, ← reached, hrest, List.append_assoc]
    rfl

/-! ## Trees that only grow -/

/-- Nothing is lost from `t` to `t'`, and only at the addresses `written` files may have changed. -/
structure Grows (written : Address → Prop) (t t' : FileTree) : Prop where
  current : t'.current = t.current
  present : ∀ a, (t.get? a).isSome → (t'.get? a).isSome
  directories : ∀ a, t.get? a = some .directory → t'.get? a = some .directory
  files : ∀ a content, t.get? a = some (.file content) → ¬ written a →
    t'.get? a = some (.file content)

namespace Grows

variable {written : Address → Prop} {t'' : FileTree}

theorem refl (t : FileTree) : Grows written t t :=
  ⟨rfl, fun _ h => h, fun _ h => h, fun _ _ h _ => h⟩

theorem trans (h : Grows written t t') (h' : Grows written t' t'') : Grows written t t'' where
  current := h'.current.trans h.current
  present a ha := h'.present a (h.present a ha)
  directories a ha := h'.directories a (h.directories a ha)
  files a content ha hw := h'.files a content (h.files a content ha hw) hw

theorem walk (h : Grows written t t') {ss : List (List Char)} (hwalk : t.walk here ss = .ok a) :
    t'.walk here ss = .ok a := by
  induction ss generalizing here with
  | nil => exact hwalk
  | cons s ss ih =>
    rw [FileTree.walk] at hwalk ⊢
    split at hwalk
    · cases hwalk
    · cases hwalk
    next hhere =>
      rw [h.directories here hhere]
      simp only
      split at hwalk
      · split at hwalk
        next hsome =>
          rw [if_pos (h.present _ hsome)]
          exact ih hwalk
        · cases hwalk
      · exact ih hwalk
      · exact ih hwalk

theorem put_file (ha : t.get? a ≠ some .directory) (content : FileContent) :
    Grows (· = a) t (t.put a (.file content)) := by
  have hne : a ≠ [] := by
    rintro rfl
    exact ha rfl
  refine ⟨rfl, fun b hb => ?_, fun b hb => ?_, fun b c hb hnot => ?_⟩
  · rw [get?_put t hne]
    split
    · rfl
    · exact hb
  · rw [get?_put t hne, if_neg, hb]
    rintro rfl
    exact ha hb
  · rw [get?_put t hne, if_neg hnot, hb]

theorem put_directory (ha : t.get? a = none) : Grows written t (t.put a .directory) := by
  have hne : a ≠ [] := by
    rintro rfl
    cases ha
  refine ⟨rfl, fun b hb => ?_, fun b hb => ?_, fun b c hb _ => ?_⟩
  · rw [get?_put t hne]
    split
    · rfl
    · exact hb
  · rw [get?_put t hne]
    split
    · rfl
    · exact hb
  · rw [get?_put t hne, if_neg, hb]
    rintro rfl
    rw [ha] at hb
    cases hb

end Grows

/-! ## Making directories -/

theorem makeDirectory_grows {written : Address → Prop} (h : t.makeDirectory p = .ok t') :
    Grows written t t' := by
  unfold makeDirectory at h
  obtain ⟨e, -, h⟩ := except_bind_eq_ok h
  split at h
  · cases h
  next directory n =>
    simp only at h
    split at h
    · cases h
    next hfree =>
      obtain rfl := Except.ok.inj h
      exact .put_directory (by simpa using hfree)

theorem makeAll_grows {written : Address → Prop} {ps : List FilePath} (h : t.makeAll ps = .ok t') :
    Grows written t t' := by
  induction ps generalizing t t' with
  | nil =>
    rw [← Except.ok.inj h]
    exact .refl t
  | cons p above ih =>
    unfold makeAll at h
    extract_lets orThere at h
    -- Each directory is made, or is there already.
    have hthere {t t' : FileTree} (h : orThere t = .ok t') : Grows written t t' := by
      simp only [orThere] at h
      split at h
      next made hmade =>
        rw [← Except.ok.inj h]
        exact makeDirectory_grows hmade
      · split at h
        · rw [← Except.ok.inj h]
          exact .refl t
        · cases h
    split at h
    · rw [← Except.ok.inj h]
      exact .refl t
    split at h
    · obtain ⟨made, hmade, h⟩ := except_bind_eq_ok h
      exact (ih hmade).trans (hthere h)
    · exact hthere h

theorem makeDirectories_grows {written : Address → Prop} (h : t.makeDirectories p = .ok t') :
    Grows written t t' := makeAll_grows h

theorem withParent_grows {written : Address → Prop} (h : t.withParent p = .ok t') :
    Grows written t t' := by
  unfold withParent at h
  split at h
  · rw [← Except.ok.inj h]
    exact .refl t
  next parent hparent =>
    cases hmade : t.makeDirectories parent with
    | error fault =>
      rw [hmade] at h
      cases h
    | ok made =>
      rw [hmade] at h
      rw [← Except.ok.inj h]
      exact makeDirectories_grows hmade

/-! ## Files below a directory -/

/-- Where the first segments of a path lead to. -/
def base (t : FileTree) (front : List (List Char)) : Address :=
  reached (if front.head? = some [] then [] else t.current) front

theorem readText_eq_ok_iff :
    t.readText p = .ok s ↔ ∃ a, t.resolve p = .ok a ∧ t.get? a = some (.file (.text s)) := by
  unfold readText
  constructor
  · intro h
    obtain ⟨a, ha, h⟩ := except_bind_eq_ok h
    split at h
    next found hfound =>
      obtain rfl := Except.ok.inj h
      exact ⟨a, ha, hfound⟩
    all_goals cases h
  · rintro ⟨a, ha, hfile⟩
    simp only [ha, bind, Except.bind, hfile]
    rfl

section Below

variable {front : List (List Char)} {names names' : List String}

theorem text_ne_empty (hp : p.Below front names) : p.text.isEmpty = false := by
  rw [Bool.eq_false_iff]
  intro hempty
  have hsegments : p.segments = [[]] := by
    rw [FilePath.segments, String.isEmpty_iff.mp hempty]
    rfl
  obtain ⟨n, ns, rfl⟩ := List.exists_cons_of_ne_nil hp.ne_nil
  have hlast : n.toList ∈ p.segments := by
    rw [hp.segments]
    simp
  rw [hsegments] at hlast
  exact (hp.names n List.mem_cons_self).ne_nil (List.mem_singleton.mp hlast)

theorem origin_eq (hp : p.Below front names) :
    t.origin p = if front.head? = some [] then [] else t.current := by
  rw [origin, hp.isAbsolute_eq]
  simp only [decide_eq_true_eq]

theorem resolve_eq (hp : p.Below front names) (h : t.resolve p = .ok a) :
    a = t.base front ++ names := by
  rw [resolve, text_ne_empty hp, if_neg Bool.false_ne_true, origin_eq hp, hp.segments] at h
  rw [walk_eq_reached h, reached, List.foldl_append, ← reached, ← reached, reached_names hp.names]
  rfl

theorem pathEnd_eq {above : List String} {n : String} (hp : p.Below front (above ++ [n])) :
    t.pathEnd p = (t.walk (t.origin p) (front ++ above.map String.toList ++ [['.']])).map
      fun directory => .name directory n := by
  have hn := hp.names n (List.mem_append_right _ List.mem_cons_self)
  have hlast : p.segments.reverse.dropWhile (·.isEmpty) =
      n.toList :: (front ++ above.map String.toList).reverse := by
    rw [hp.segments, List.map_append, ← List.append_assoc, List.reverse_append]
    exact List.dropWhile_cons_of_neg (by simp [hn.ne_nil])
  rw [pathEnd, text_ne_empty hp, if_neg Bool.false_ne_true, hlast]
  simp only [List.reverse_reverse, hn.segment]
  cases t.walk (t.origin p) (front ++ above.map String.toList ++ [['.']]) <;> rfl

/-- A file that is written lies where its path leads, in a directory, and its text can be read. -/
theorem writeText_eq_ok (hp : p.Below front names) (h : t.writeText p s = .ok t') :
    Grows (· = t.base front ++ names) t t' ∧ t'.readText p = .ok s := by
  obtain ⟨above, n, rfl⟩ : ∃ above n, names = above ++ [n] :=
    ⟨_, _, (List.dropLast_append_getLast hp.ne_nil).symm⟩
  have hn := hp.names n (List.mem_append_right _ List.mem_cons_self)
  have habove : ∀ m ∈ above, FilePath.IsName m := fun m hm => hp.names m (List.mem_append_left _ hm)
  unfold writeText at h
  rw [pathEnd_eq hp] at h
  obtain ⟨e, he, h⟩ := except_bind_eq_ok h
  cases hwalk : t.walk (t.origin p) (front ++ above.map String.toList ++ [['.']]) with
  | error fault =>
    rw [hwalk] at he
    cases he
  | ok directory =>
    rw [hwalk] at he
    obtain rfl := Except.ok.inj he
    simp only at h
    split at h
    · cases h
    next hfree =>
      simp only [Bool.or_eq_true, not_or, decide_eq_true_eq] at hfree
      obtain rfl := Except.ok.inj h
      obtain ⟨hwalk, hdirectory⟩ := walk_here hwalk
      have hgrows := Grows.put_file hfree.2 (.text s)
      -- The way has only directories and names, so that it can be told in advance where it ends.
      have haddress : directory ++ [n] = t.base front ++ (above ++ [n]) := by
        rw [walk_eq_reached hwalk, origin_eq hp, reached, List.foldl_append, ← reached, ← reached,
          reached_names habove, List.append_assoc]
        rfl
      have hwritten := get?_put t (by simp : directory ++ [n] ≠ []) (.file (.text s))
      rw [← haddress]
      refine ⟨hgrows, readText_eq_ok_iff.mpr ⟨directory ++ [n], ?_, ?_⟩⟩
      · have hsome :
            ((t.put (directory ++ [n]) (.file (.text s))).get? (directory ++ [n])).isSome := by
          rw [hwritten, if_pos rfl]
          rfl
        rw [resolve, text_ne_empty hp, if_neg Bool.false_ne_true, hp.segments, List.map_append,
          ← List.append_assoc]
        exact walk_name (hgrows.walk hwalk) (hgrows.directories _ hdirectory) hn hsome
      · rw [hwritten, if_pos rfl]

/-- The text of a file below a directory stays while other files below it are written. -/
theorem Grows.readText {written : Address → Prop} (h : Grows written t t')
    (hp : p.Below front names) (hother : ¬ written (t.base front ++ names))
    (htext : t.readText p = .ok s) : t'.readText p = .ok s := by
  obtain ⟨a, ha, hfile⟩ := readText_eq_ok_iff.mp htext
  obtain rfl := resolve_eq hp ha
  have horigin : t'.origin p = t.origin p := by rw [origin_eq hp, origin_eq hp, h.current]
  refine readText_eq_ok_iff.mpr ⟨_, ?_, h.files _ _ hfile hother⟩
  rw [resolve, text_ne_empty hp, if_neg Bool.false_ne_true] at ha ⊢
  rw [horigin]
  exact h.walk ha

theorem Grows.base_eq {written : Address → Prop} (h : Grows written t t')
    (front : List (List Char)) : t'.base front = t.base front := by
  rw [base, base, h.current]

end Below

end Graft.FileTree

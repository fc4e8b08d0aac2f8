import Graft.Proofs.Text.Position
import Graft.Proofs.Token.Depth
import Graft.Token.Lexer

/-!
# The spans of tokens

Reading a text gives every token the span of its own text: from the place behind what stands before
it to the place behind itself. No form of a token is empty, so that reading goes on right behind the
token.
-/

namespace Graft

/-! ## Every form takes a character -/

theorem Comment.blockLength?_pos {depth n : Nat} {cs : List Char}
    (h : blockLength? depth cs = some n) : 1 ≤ n := by
  unfold blockLength? at h
  split at h
  · obtain ⟨m, -, rfl⟩ := Option.map_eq_some_iff.mp h
    omega
  · split at h
    · cases h
      omega
    · obtain ⟨m, -, rfl⟩ := Option.map_eq_some_iff.mp h
      omega
  · obtain ⟨m, -, rfl⟩ := Option.map_eq_some_iff.mp h
    omega
  · cases h

theorem Comment.doc?_pos {cs : List Char} {d : Doc} (h : doc? cs = some d) : 1 ≤ d.length := by
  have hline : ∀ inner, 1 ≤ (lineDoc cs inner).length := by
    intro inner
    show 1 ≤ 3 + lineLength (cs.drop 3)
    omega
  have hblock : ∀ {inner}, doc?.block cs inner = some d → 1 ≤ d.length := by
    intro inner h
    obtain ⟨n, hn, rfl⟩ := Option.map_eq_some_iff.mp h
    exact blockLength?_pos hn
  unfold doc? at h
  split at h
  · rw [← Option.some.inj h]
    exact hline _
  split at h
  · exact hblock h
  split at h
  · split at h
    · cases h
    · rw [← Option.some.inj h]
      exact hline _
  split at h
  · exact hblock h
  · cases h

namespace Literal

theorem le_withSuffix (cs : List Char) (n : Nat) : n ≤ withSuffix cs n := Nat.le_add_right n _

theorem le_of_numberLength? {cs : List Char} {m n : Nat} (h : numberLength? cs n = some m) :
    n ≤ m := by
  unfold numberLength? at h
  simp only at h
  split at h
  · cases h
  · rw [← Option.some.inj h]
    exact le_withSuffix cs n

theorem identLength?_pos {cs : List Char} {n : Nat} (h : identLength? cs = some n) : 1 ≤ n := by
  unfold identLength? at h
  split at h
  · split at h
    · rw [← Option.some.inj h]
      exact Nat.le_add_right 1 _
    · cases h
  · cases h

theorem digitsLength?_pos {base n : Nat} {any : Bool} {cs : List Char}
    (h : digitsLength? base any cs = some n) : any = true ∨ 1 ≤ n := by
  unfold digitsLength? at h
  split at h
  · split at h
    next hany => exact .inl hany
    next => cases h
  · have hmap : ∀ {o : Option Nat}, o.map (· + 1) = some n → 1 ≤ n := by
      intro o ho
      obtain ⟨m, -, rfl⟩ := Option.map_eq_some_iff.mp ho
      omega
    split at h
    · split at h
      · exact .inr (hmap h)
      · cases h
    split at h
    · exact .inr (hmap h)
    split at h
    · exact .inr (hmap h)
    split at h
    next hany => exact .inl (Bool.and_eq_true_iff.mp hany).1
    next => cases h

/-- A mantissa holds what was seen, and one character more if it ends in the mark of an exponent. -/
theorem le_of_mantissa? {seen m : Mantissa} {cs : List Char} (h : mantissa? seen cs = some m) :
    seen.length ≤ m.length ∧
      (m.exponent = true → seen.exponent = true ∨ seen.length < m.length) := by
  induction cs generalizing seen with
  | nil =>
    rw [← Option.some.inj h]
    exact ⟨Nat.le_refl _, .inl⟩
  | cons c cs ih =>
    have hmore : ∀ {seen' : Mantissa}, seen'.length = seen.length + 1 →
        mantissa? seen' cs = some m → seen.length ≤ m.length ∧
          (m.exponent = true → seen.exponent = true ∨ seen.length < m.length) := by
      intro seen' hlength h
      have hle := (ih h).1
      exact ⟨by omega, fun _ => .inr (by omega)⟩
    rw [mantissa?] at h
    split at h
    · exact hmore rfl h
    split at h
    · split at h
      · cases h
      · exact hmore rfl h
    split at h
    · rw [← Option.some.inj h]
      exact ⟨Nat.le_succ _, fun _ => .inr (Nat.lt_succ_self _)⟩
    · rw [← Option.some.inj h]
      exact ⟨Nat.le_refl _, .inl⟩

theorem floatLength?_pos {cs : List Char} {n : Nat} (h : floatLength? cs = some n) : 1 ≤ n := by
  unfold floatLength? at h
  obtain ⟨c, -, h⟩ := Option.bind_eq_some_iff.mp h
  simp only at h
  split at h
  · cases h
  obtain ⟨m, hm, h⟩ := Option.bind_eq_some_iff.mp h
  obtain ⟨hlength, hexponent⟩ := le_of_mantissa? hm
  simp only at h hlength hexponent
  split at h
  · cases h
  split at h
  · have hle := le_of_numberLength? h
    omega
  next hmark =>
    -- The mark of the exponent is no part of a number that ends before it.
    have hlonger : 1 < m.length :=
      (hexponent (by simpa using hmark)).resolve_left Bool.false_ne_true
    split at h
    · have hle := le_of_numberLength? h
      omega
    · split at h
      · have hle := le_of_numberLength? h
        omega
      · cases h

theorem intLength?_pos {cs : List Char} {n : Nat} (h : intLength? cs = some n) : 1 ≤ n := by
  unfold intLength? at h
  simp only at h
  obtain ⟨m, hm, h⟩ := Option.bind_eq_some_iff.mp h
  have hle := le_of_numberLength? h
  have hpos := (digitsLength?_pos hm).resolve_left Bool.false_ne_true
  omega

theorem quoted_pos {cs : List Char} {n : Nat} (h : length?.quoted cs = some n) : 1 ≤ n := by
  have hafter : ∀ {o : Option Nat} {k : Nat}, 1 ≤ k →
      o.map (fun m => withSuffix cs (k + m)) = some n → 1 ≤ n := by
    intro o k hk ho
    obtain ⟨m, -, rfl⟩ := Option.map_eq_some_iff.mp ho
    have hle := le_withSuffix cs (k + m)
    omega
  unfold length?.quoted at h
  split at h
  case h_9 => cases h
  all_goals exact hafter (by omega) h

theorem length?_pos {cs : List Char} {n : Nat} (h : length? cs = some n) : 1 ≤ n := by
  simp only [length?, Option.orElse_eq_orElse, Option.orElse_eq_or, Option.or_eq_some_iff] at h
  rcases h with h | ⟨-, h | ⟨-, h⟩⟩
  · exact quoted_pos h
  · exact floatLength?_pos h
  · exact intLength?_pos h

end Literal

theorem Delimiter.opened?_eq_some {c : Char} {d : Delimiter} (h : opened? c = some d) :
    c = d.opening := by
  unfold opened? at h
  split at h
  next hc => rw [hc, ← Option.some.inj h]; rfl
  split at h
  next hc => rw [hc, ← Option.some.inj h]; rfl
  split at h
  next hc => rw [hc, ← Option.some.inj h]; rfl
  next => cases h

theorem Delimiter.closed?_eq_some {c : Char} {d : Delimiter} (h : closed? c = some d) :
    c = d.closing := by
  unfold closed? at h
  split at h
  next hc => rw [hc, ← Option.some.inj h]; rfl
  split at h
  next hc => rw [hc, ← Option.some.inj h]; rfl
  split at h
  next hc => rw [hc, ← Option.some.inj h]; rfl
  next => cases h

namespace Token

theorem nameLength?_pos {cs : List Char} {n : Nat} (h : nameLength? cs = some n) : 1 ≤ n := by
  unfold nameLength? at h
  split at h
  · obtain ⟨m, -, h⟩ := Option.bind_eq_some_iff.mp h
    split at h
    · cases h
    · rw [← Option.some.inj h]
      omega
  · exact Literal.identLength?_pos h

/-! ## What a token covers -/

/-- The text that is read as a token, if it is none of those that stand for a documentation comment.
-/
def Shows (cs : List Char) : Token → Prop
  | ident name _ => cs = name.toList
  | punct mark _ _ => cs = [mark]
  | literal text _ => cs = text.toList
  | group d _ _ => ∃ inner, cs = d.opening :: inner ++ [d.closing]

/-- At the head of `cs`, which starts at `p`, the token `t` takes `n` characters. -/
structure LeafAt (p : Position) (cs : List Char) (t : Token) (n : Nat) : Prop where
  pos : 1 ≤ n
  span : t.span = ⟨p, p.advance (cs.take n)⟩
  shows : t.Shows (cs.take n)
  leaf : t.IsLeaf

section Leaf

variable {p : Position} {cs : List Char} {t : Token} {n : Nat}

theorem take_of_startsWith {text : String} (h : startsWith text cs = true) :
    cs.take text.length = text.toList := by
  rw [← String.length_toList]
  exact (List.prefix_iff_eq_take.mp (List.isPrefixOf_iff_prefix.mp h)).symm

theorem errorLiteral?_eq_some (h : leaf?.errorLiteral? p cs = some (t, n)) : LeafAt p cs t n := by
  unfold leaf?.errorLiteral? at h
  split at h
  next hmark =>
    obtain ⟨rfl, rfl⟩ := Prod.mk.inj (Option.some.inj h)
    exact ⟨by decide, rfl, take_of_startsWith hmark, isLeaf_literal _ _⟩
  next => cases h

theorem leaf?_eq_some (h : leaf? p cs = some (t, n)) : LeafAt p cs t n := by
  unfold leaf? at h
  split at h
  next m hm =>
    obtain ⟨rfl, rfl⟩ := Prod.mk.inj (Option.some.inj h)
    exact ⟨Literal.length?_pos hm, rfl, String.toList_ofList.symm, isLeaf_literal _ _⟩
  split at h
  · split at h
    next hquote =>
      split at h
      · obtain ⟨rfl, rfl⟩ := Prod.mk.inj (Option.some.inj h)
        exact ⟨Nat.le_refl 1, rfl, take_of_startsWith hquote, isLeaf_punct _ _ _⟩
      · cases h
    next =>
      obtain ⟨c, hc, h⟩ := Option.map_eq_some_iff.mp h
      obtain ⟨rfl, rfl⟩ := Prod.mk.inj h
      obtain ⟨rest, rfl⟩ := List.head?_eq_some_iff.mp hc
      exact ⟨Nat.le_refl 1, rfl, rfl, isLeaf_punct _ _ _⟩
  split at h
  · split at h
    next m hm =>
      obtain ⟨rfl, rfl⟩ := Prod.mk.inj (Option.some.inj h)
      exact ⟨nameLength?_pos hm, rfl, String.toList_ofList.symm, isLeaf_ident _ _⟩
    next => exact errorLiteral?_eq_some h
  · exact errorLiteral?_eq_some h

end Leaf

/-- In front of `after`, `inside` is read as `t`, or it is a documentation comment and `t` is one of
the tokens that stand for it. -/
def Covers (t : Token) (inside after : List Char) : Prop :=
  t.Shows inside ∨ ∃ d level, Comment.doc? (inside ++ after) = some d ∧
    inside = (inside ++ after).take d.length ∧ Within level (Comment.docTokens d t.span) ∧ t ∈ level

/-- A token has the span of the stretch of `text` that it covers. -/
def Placed (text : List Char) (t : Token) : Prop :=
  ∃ before inside after, text = before ++ inside ++ after ∧
    t.span = ⟨.behind before, .behind (before ++ inside)⟩ ∧ t.Covers inside after

/-- The tokens of a documentation comment all have its span, and none is a dollar sign. -/
theorem docTokens_everywhere (d : Comment.Doc) (span : Span) :
    Everywhere (fun t => t.span = span ∧ ∀ spacing s, t ≠ .punct '$' spacing s)
      (Comment.docTokens d span) := by
  have hmark : ∀ mark, mark ≠ '$' →
      ∀ spacing s, (punct mark .alone span) ≠ .punct '$' spacing s := by
    rintro mark hmark spacing s ⟨⟩
    exact hmark rfl
  have hgroup : Everywhere (fun t => t.span = span ∧ ∀ spacing s, t ≠ .punct '$' spacing s)
      [.group .bracket [.ident "doc" span, .punct '=' .alone span,
        .literal (Quoted.literal d.text) span] span] := by
    refine .cons_group .nil ⟨rfl, by rintro _ _ ⟨⟩⟩ ?_
    refine .cons_leaf (.cons_leaf (.cons_leaf .nil ?_ (isLeaf_literal _ _)) ?_
      (isLeaf_punct _ _ _)) ?_ (isLeaf_ident _ _)
    · exact ⟨rfl, by rintro _ _ ⟨⟩⟩
    · exact ⟨rfl, hmark '=' (by decide)⟩
    · exact ⟨rfl, by rintro _ _ ⟨⟩⟩
  rcases d with ⟨length, text, _ | _⟩
  · exact hgroup.cons_leaf ⟨rfl, hmark '#' (by decide)⟩ (isLeaf_punct _ _ _)
  · exact (hgroup.cons_leaf ⟨rfl, hmark '!' (by decide)⟩ (isLeaf_punct _ _ _)).cons_leaf
      ⟨rfl, hmark '#' (by decide)⟩ (isLeaf_punct _ _ _)

/-- A dollar sign covers just itself. -/
theorem Placed.dollar {text : List Char} {spacing : Spacing} {span : Span}
    (h : Placed text (.punct '$' spacing span)) :
    ∃ before after, text = before ++ ['$'] ++ after ∧
      span = ⟨.behind before, .behind (before ++ ['$'])⟩ := by
  obtain ⟨before, inside, after, htext, hspan, hshows | ⟨d, level, -, -, hlevel, ht⟩⟩ := h
  · rw [show inside = ['$'] from hshows] at htext hspan
    exact ⟨before, after, htext, hspan⟩
  · exact absurd rfl ((docTokens_everywhere d _ level hlevel _ ht).2 spacing span)

/-- What holds in the middle of a text, behind `seen`: all that was read is placed, and every open
group starts at its delimiter. -/
structure Reading (text seen rest : List Char) (groups : List OpenGroup) (done : List Token)
    (p : Position) : Prop where
  text_eq : text = seen ++ rest
  place : p = .behind seen
  done : Everywhere (Placed text) done
  before : ∀ g ∈ groups, Everywhere (Placed text) g.before
  start : ∀ g ∈ groups, ∃ outside inside, seen = outside ++ g.delimiter.opening :: inside ∧
    g.start = .behind outside

namespace Reading

variable {text seen cs rest : List Char} {groups : List OpenGroup} {done : List Token}
  {p : Position} {c : Char}

theorem skip (h : Reading text seen cs groups done p) (n : Nat) :
    Reading text (seen ++ cs.take n) (cs.drop n) groups done (p.advance (cs.take n)) := by
  refine ⟨?_, ?_, h.done, h.before, ?_⟩
  · rw [List.append_assoc, List.take_append_drop]
    exact h.text_eq
  · rw [h.place, Position.advance_behind]
  · intro g hg
    obtain ⟨outside, inside, hseen, hstart⟩ := h.start g hg
    exact ⟨outside, inside ++ cs.take n, by simp [hseen], hstart⟩

/-- Tokens that are placed join those that were read. -/
theorem with_done (h : Reading text seen cs groups done p) {done' : List Token}
    (hdone : Everywhere (Placed text) done') : Reading text seen cs groups done' p :=
  ⟨h.text_eq, h.place, hdone, h.before, h.start⟩

theorem leaf (h : Reading text seen cs groups done p) {t : Token} {n : Nat}
    (ht : leaf? p cs = some (t, n)) :
    Reading text (seen ++ cs.take n) (cs.drop n) groups (t :: done) (p.advance (cs.take n)) := by
  have hat := leaf?_eq_some ht
  refine (h.skip n).with_done (h.done.cons_leaf ?_ hat.leaf)
  refine ⟨seen, cs.take n, cs.drop n, (h.skip n).text_eq, ?_, .inl hat.shows⟩
  rw [hat.span, h.place, Position.advance_behind]

/-- All tokens of a documentation comment cover the comment. -/
theorem doc (h : Reading text seen cs groups done p) {d : Comment.Doc}
    (hd : Comment.doc? cs = some d) :
    Reading text (seen ++ cs.take d.length) (cs.drop d.length) groups
      ((Comment.docTokens d ⟨p, p.advance (cs.take d.length)⟩).reverse ++ done)
      (p.advance (cs.take d.length)) := by
  have hplaced : Everywhere (Placed text)
      (Comment.docTokens d ⟨p, p.advance (cs.take d.length)⟩) := by
    intro level hlevel t ht
    have hspan := (docTokens_everywhere d _ level hlevel t ht).1
    refine ⟨seen, cs.take d.length, cs.drop d.length, (h.skip _).text_eq, ?_,
      .inr ⟨d, level, ?_, ?_, ?_, ht⟩⟩
    · rw [hspan, h.place, Position.advance_behind]
    · rw [List.take_append_drop]
      exact hd
    · rw [List.take_append_drop]
    · rw [hspan]
      exact hlevel
  exact (h.skip _).with_done ((hplaced.subset (by simp)).append h.done)

theorem opens (h : Reading text seen (c :: rest) groups done p) {d : Delimiter}
    (hd : Delimiter.opened? c = some d) :
    Reading text (seen ++ [c]) rest (⟨d, done, p⟩ :: groups) [] (p.next c) := by
  have hc := Delimiter.opened?_eq_some hd
  have hskip := h.skip 1
  refine ⟨hskip.text_eq, hskip.place, .nil, ?_, ?_⟩
  · intro g hg
    rcases List.mem_cons.mp hg with rfl | hg
    · exact h.done
    · exact h.before g hg
  · intro g hg
    rcases List.mem_cons.mp hg with rfl | hg
    · exact ⟨seen, [], by rw [hc], h.place⟩
    · exact hskip.start g hg

theorem closes {g : OpenGroup} (h : Reading text seen (c :: rest) (g :: groups) done p)
    (hd : Delimiter.closed? c = some g.delimiter) :
    Reading text (seen ++ [c]) rest groups
      (.group g.delimiter done.reverse ⟨g.start, p.next c⟩ :: g.before) (p.next c) := by
  have hc := Delimiter.closed?_eq_some hd
  have hskip := h.skip 1
  obtain ⟨outside, inside, hseen, hstart⟩ := h.start g List.mem_cons_self
  have hgroup : Placed text (.group g.delimiter done.reverse ⟨g.start, p.next c⟩) := by
    refine ⟨outside, g.delimiter.opening :: inside ++ [c], rest, ?_, ?_, .inl ⟨inside, by rw [hc]⟩⟩
    · rw [h.text_eq, hseen]
      simp
    · have hend : p.next c = .behind (seen ++ [c]) := hskip.place
      rw [span, hstart, hend, hseen]
      simp
  refine ⟨hskip.text_eq, hskip.place, ?_, ?_, ?_⟩
  · exact (h.before g List.mem_cons_self).cons_group hgroup (h.done.subset (by simp))
  · exact fun g hg => h.before g (List.mem_cons_of_mem _ hg)
  · exact fun g hg => hskip.start g (List.mem_cons_of_mem _ hg)

end Reading

theorem readFrom_placed {text seen : List Char} {groups : List OpenGroup} {done : List Token}
    {p : Position} {cs : List Char} {ts : List Token}
    (hreading : Reading text seen cs groups done p) (h : readFrom groups done p cs = .ok ts) :
    Everywhere (Placed text) ts := by
  -- Each turn reads blanks and one form, and leaves fewer characters.
  induction hlength : cs.length using Nat.strongRecOn generalizing seen groups done p cs with
  | ind n ih =>
    subst hlength
    rw [readFrom.eq_def] at h
    simp only at h
    have hhere := hreading.skip (Comment.blankLength cs)
    split at h
    next hdrop =>
      split at h
      · rw [← Except.ok.inj h]
        exact hreading.done.subset (by simp)
      · cases h
    next c rest hdrop =>
      rw [hdrop] at hhere
      have hshorter : rest.length < cs.length := by
        have := congrArg List.length hdrop
        rw [List.length_drop, List.length_cons] at this
        omega
      have htail : ∀ {n : Nat}, 1 ≤ n → rest.drop (n - 1) = (c :: rest).drop n := by
        intro n hn
        obtain ⟨m, rfl⟩ := Nat.exists_eq_add_of_le' hn
        rfl
      have hfewer : ∀ n, (rest.drop n).length < cs.length := by
        intro n
        rw [List.length_drop]
        omega
      -- In the order of the reader: doc comments, opening marks, closing marks, leaves.
      split at h
      next d hd =>
        split at h
        · cases h
        · have hnext := hhere.doc hd
          rw [← htail (Comment.doc?_pos hd)] at hnext
          exact ih _ (hfewer _) hnext h rfl
      next =>
        split at h
        next d hd =>
          have hopened : Delimiter.opened? c = some d := by
            split at hd
            · cases hd
            · exact hd
          exact ih _ hshorter (hhere.opens hopened) h rfl
        next =>
          split at h
          next d hd =>
            split at h
            · cases h
            next g outer =>
              split at h
              next hsame =>
                rw [← hsame] at hd h
                exact ih _ hshorter (hhere.closes hd) h rfl
              · cases h
          next =>
            split at h
            next t n ht =>
              have hnext := hhere.leaf ht
              rw [← htail (leaf?_eq_some ht).pos] at hnext
              exact ih _ (hfewer _) hnext h rfl
            · cases h

/-- **Every token has the span of its own text**, at every depth: the spans of a text that is read
count lines at line ends and columns in characters. -/
theorem read_placed {text : List Char} {ts : List Token} (h : read text = .ok ts) :
    Everywhere (Placed text) ts := by
  have hstart : ∀ {cs : List Char}, Reading cs [] cs [] [] .start := fun {cs} =>
    ⟨rfl, rfl, .nil, nofun, nofun⟩
  unfold read at h
  split at h
  · split at h
    · exact readFrom_placed (hstart.skip 1) h
    · exact readFrom_placed hstart h
  · rw [← Except.ok.inj h]
    exact .nil

end Token

end Graft

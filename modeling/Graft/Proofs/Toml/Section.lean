import Graft.Proofs.Toml.Ahead
import Mathlib.Data.List.DropRight

/-!
# An empty section that is added

A line of a TOML text looks at one key of the table at most, and gives a value to that key only. So
a header with nothing under it may stand at the start of any line, if the next pair has a header of
its own and nothing else has its name: the table is the same but for an empty table of that name.
-/

namespace Graft.Toml

namespace Entries

/-! ## What a line does to a table -/

variable {es es' es₁ : Entries} {key name : String}

/-- The table has an empty table more, under a header of its own. -/
def Added (name : String) (es es' : Entries) : Prop :=
  ∃ front back, es = front ++ back ∧ es' = front ++ (name, .table .header []) :: back

/-- The ways to give a key a value, by what it has: at the end if it is new, and in its place or at
the end if it is there already. -/
inductive Write (key : String) : Option Toml → (Entries → Entries) → Prop where
  | append (v : Toml) : Write key none (· ++ [(key, v)])
  | replace (old v : Toml) : Write key (some old) (replace key v)
  | move (old v : Toml) :
    Write key (some old) fun es => es.filter (fun (k, _) => k ≠ key) ++ [(key, v)]

/-- An operation that decides by the value of one key, and gives a value to that key. -/
def Writes (key : String) (op : Entries → Option Entries) : Prop :=
  ∀ {es es₁}, op es = some es₁ → ∃ write, Write key (es.lookup key) write ∧
    ∀ es', es'.lookup key = es.lookup key → op es' = some (write es')

theorem replace_cons (key : String) (v : Toml) (e : String × Toml) (es : Entries) :
    replace key v (e :: es) = (e.1, if e.1 = key then v else e.2) :: replace key v es := by
  rw [replace, List.map_cons]
  obtain ⟨k, v'⟩ := e
  by_cases hk : k = key <;> simp [hk, replace]

theorem lookup_replace_self {v : Toml} (h : (es.lookup key).isSome) :
    (replace key v es).lookup key = some v := by
  induction es with
  | nil => cases h
  | cons e es ih =>
    obtain ⟨k, v'⟩ := e
    rw [replace_cons]
    by_cases hk : k = key
    · simp [hk]
    · have hbeq : (key == k) = false := beq_false_of_ne (Ne.symm hk)
      simp only [List.lookup_cons, hbeq] at h ⊢
      exact ih h

theorem lookup_replace_of_ne (hne : name ≠ key) (v : Toml) (es : Entries) :
    (replace key v es).lookup name = es.lookup name := by
  induction es with
  | nil => rfl
  | cons e es ih =>
    obtain ⟨k, v'⟩ := e
    simp only [replace_cons, List.lookup_cons, ih]
    by_cases hk : k = key
    · subst hk
      rw [beq_false_of_ne hne]
    · rw [if_neg hk]

theorem lookup_filter_of_ne (hne : name ≠ key) (es : Entries) :
    (es.filter fun (k, _) => k ≠ key).lookup name = es.lookup name := by
  induction es with
  | nil => rfl
  | cons e es ih =>
    obtain ⟨k, v⟩ := e
    by_cases hk : k = key
    · have hbeq : (name == k) = false := beq_false_of_ne (hk ▸ hne)
      rw [List.filter_cons_of_neg (by simp [hk]), ih, List.lookup_cons, hbeq]
    · rw [List.filter_cons_of_pos (by simp [hk]), List.lookup_cons, List.lookup_cons, ih]

theorem lookup_append_self (key : String) (v : Toml) (es : Entries) :
    ((es ++ [(key, v)]).lookup key).isSome := by
  simp [List.lookup_append]

theorem lookup_append_of_ne (hne : name ≠ key) (v : Toml) (es : Entries) :
    (es ++ [(key, v)]).lookup name = es.lookup name := by
  have hbeq : (name == key) = false := beq_false_of_ne hne
  simp [List.lookup_append, List.lookup_cons, hbeq]

theorem Write.lookup_self {write : Entries → Entries} (h : Write key (es.lookup key) write) :
    ((write es).lookup key).isSome := by
  generalize hfound : es.lookup key = found at h
  cases h with
  | append v => exact lookup_append_self key v es
  | replace old v => rw [lookup_replace_self (by rw [hfound]; rfl)]; rfl
  | move old v => exact lookup_append_self key v _

theorem Write.lookup_of_ne {found : Option Toml} {write : Entries → Entries}
    (h : Write key found write) (hne : name ≠ key) (es : Entries) :
    (write es).lookup name = es.lookup name := by
  cases h with
  | append v => exact lookup_append_of_ne hne v es
  | replace old v => exact lookup_replace_of_ne hne v es
  | move old v => exact (lookup_append_of_ne hne v _).trans (lookup_filter_of_ne hne es)

theorem Added.lookup_of_ne (h : Added name es es') (hne : key ≠ name) :
    es'.lookup key = es.lookup key := by
  obtain ⟨front, back, rfl, rfl⟩ := h
  have hbeq : (key == name) = false := beq_false_of_ne hne
  simp [List.lookup_append, List.lookup_cons, hbeq]

theorem Write.added {found : Option Toml} {write : Entries → Entries} (h : Write key found write)
    (hne : name ≠ key) (hadded : Added name es es') : Added name (write es) (write es') := by
  obtain ⟨front, back, rfl, rfl⟩ := hadded
  cases h with
  | append v => exact ⟨front, back ++ [(key, v)], by simp, by simp⟩
  | replace old v =>
    exact ⟨front.replace key v, back.replace key v, by simp [Entries.replace],
      by simp [Entries.replace, hne]⟩
  | move old v =>
    exact ⟨front.filter fun (k, _) => k ≠ key,
      (back.filter fun (k, _) => k ≠ key) ++ [(key, v)], by simp, by simp [hne]⟩

/-- What is not there afterwards was not there before. -/
theorem Writes.lookup_eq_none {op : Entries → Option Entries} (hop : Writes key op)
    (h : op es = some es₁) (hnone : es₁.lookup name = none) : es.lookup name = none := by
  obtain ⟨write, hwrite, hsame⟩ := hop h
  obtain rfl := Option.some.inj (h.symm.trans (hsame es rfl))
  by_cases hne : name = key
  · rw [hne] at hnone
    exact absurd hwrite.lookup_self (by rw [hnone]; decide)
  · exact (hwrite.lookup_of_ne hne es).symm.trans hnone

/-- An added table stays where it is, if none of its name comes. -/
theorem Writes.added {op : Entries → Option Entries} (hop : Writes key op)
    (h : op es = some es₁) (hnone : es₁.lookup name = none) (hadded : Added name es es') :
    ∃ es₁', op es' = some es₁' ∧ Added name es₁ es₁' := by
  obtain ⟨write, hwrite, hsame⟩ := hop h
  obtain rfl := Option.some.inj (h.symm.trans (hsame es rfl))
  have hne : name ≠ key := by
    rintro rfl
    exact absurd hwrite.lookup_self (by rw [hnone]; decide)
  exact ⟨write es', hsame es' (hadded.lookup_of_ne (Ne.symm hne)), hwrite.added hne hadded⟩

/-! ## The operations of lines -/

theorem writes_within (made : TableOrigin) (enters : TableOrigin → Bool)
    (change : TableOrigin → Entries → Option Entries) (key : String) (keys : List String)
    (origin : TableOrigin) : Writes key (within made enters change (key :: keys) origin) := by
  intro es es₁ h
  unfold within at h
  split at h
  next hlookup =>
    obtain ⟨sub, hsub, rfl⟩ := Option.map_eq_some_iff.mp h
    rw [hlookup]
    refine ⟨_, .append (.table made sub), fun es' hnone => ?_⟩
    rw [within, hnone]
    exact congrArg (Option.map _) hsub
  next origin' sub hlookup =>
    split at h
    next henters =>
      obtain ⟨sub', hsub, rfl⟩ := Option.map_eq_some_iff.mp h
      rw [hlookup]
      refine ⟨_, .replace _ (.table origin' sub'), fun es' hthere => ?_⟩
      simp only [within, hthere, if_pos henters, hsub]
      rfl
    next => cases h
  next ts hlookup =>
    obtain ⟨ts', hts, rfl⟩ := Option.map_eq_some_iff.mp h
    rw [hlookup]
    refine ⟨_, .replace _ (.tables ts'), fun es' hthere => ?_⟩
    rw [within, hthere]
    exact congrArg (Option.map _) hts
  next => cases h

/-- An operation that leads to a table by all keys but the last writes one key, if its operation on
that table does. -/
theorem writes_under (made : TableOrigin) (enters : TableOrigin → Bool)
    (change : TableOrigin → Entries → Option Entries) (last : String) (keys : List String)
    (origin : TableOrigin) (hchange : Writes last (change origin)) :
    ∃ key, Writes key (within made enters change keys origin) := by
  cases keys with
  | nil => exact ⟨last, hchange⟩
  | cons key keys => exact ⟨key, writes_within made enters change key keys origin⟩

theorem writes_add (keys : List String) (v : Toml) : ∃ key, Writes key (add keys v) := by
  unfold add
  split
  next => exact ⟨"", fun h => by cases h⟩
  next last hlast =>
    refine writes_under _ _ _ last _ _ fun {es es₁} h => ?_
    split at h
    · cases h
    next hopen =>
      have hnone : es.lookup last = none := by
        cases hlookup : es.lookup last with
        | none => rfl
        | some old => exact absurd (by simp [hlookup]) hopen
      rw [hnone]
      refine ⟨_, .append v, fun es' hnone' => ?_⟩
      rw [hnone] at hopen
      rw [hnone', if_neg hopen]

theorem writes_define (keys : List String) : ∃ key, Writes key (define keys) := by
  unfold define
  cases keys.getLast? with
  | none => exact ⟨"", fun h => by cases h⟩
  | some last =>
    refine writes_under _ _ _ last _ _ fun {es es₁} h => ?_
    split at h
    next hlookup =>
      rw [hlookup]
      refine ⟨_, .append (.table .header []), fun es' hnone => ?_⟩
      rw [hnone]
    next sub hlookup =>
      rw [hlookup]
      refine ⟨_, .move _ (.table .header sub), fun es' hthere => ?_⟩
      rw [hthere]
    next => cases h

theorem writes_defineNext (keys : List String) : ∃ key, Writes key (defineNext keys) := by
  unfold defineNext
  cases keys.getLast? with
  | none => exact ⟨"", fun h => by cases h⟩
  | some last =>
    refine writes_under _ _ _ last _ _ fun {es es₁} h => ?_
    split at h
    next hlookup =>
      rw [hlookup]
      refine ⟨_, .append (.tables [.table .header []]), fun es' hnone => ?_⟩
      rw [hnone]
    next ts hlookup =>
      rw [hlookup]
      refine ⟨_, .replace _ (.tables (ts ++ [.table .header []])), fun es' hthere => ?_⟩
      rw [hthere]
    next => cases h

end Entries

namespace Draft

open Entries

/-! ## Lines -/

variable {d d' : Draft} {es : Entries} {current : List String} {cs rest : List Char} {name : String}

theorem writes_add (current keys : List String) (v : Toml) :
    ∃ key, Writes key
      (within .header (fun _ => true) (fun _ es => es.add keys v) current .header) :=
  have ⟨_, hadd⟩ := Entries.writes_add keys v
  writes_under _ _ _ _ _ _ hadd

/-- What a line does to the table: nothing, or it writes one key. What it does besides depends on
the current header only. -/
theorem line_cases (h : line ⟨es, current⟩ cs = some (d', rest)) :
    ∃ op : Entries → Option Entries, (op = some ∨ ∃ key, Writes key op) ∧
      op es = some d'.entries ∧
      ∀ es', line ⟨es', current⟩ cs = (op es').map fun es => (⟨es, d'.current⟩, rest) := by
  unfold line at h ⊢
  split at h
  next tail hhere =>
    obtain ⟨⟨ks, rest₁⟩, hkeys, h⟩ := Option.bind_eq_some_iff.mp h
    obtain ⟨rest₂, hclose, h⟩ := Option.bind_eq_some_iff.mp h
    obtain ⟨rest₃, hclose', h⟩ := Option.bind_eq_some_iff.mp h
    obtain ⟨rest₄, hend, h⟩ := Option.bind_eq_some_iff.mp h
    obtain ⟨es₁, hdefine, h⟩ := Option.bind_eq_some_iff.mp h
    obtain ⟨rfl, rfl⟩ := Prod.mk.inj (Option.some.inj h)
    refine ⟨_, .inr (writes_defineNext ks), hdefine, fun es' => ?_⟩
    simp only [hkeys, hclose, hclose', hend, Option.bind_eq_bind, Option.bind_some]
    cases es'.defineNext ks <;> rfl
  next tail hsingle hhere =>
    obtain ⟨⟨ks, rest₁⟩, hkeys, h⟩ := Option.bind_eq_some_iff.mp h
    obtain ⟨rest₂, hclose, h⟩ := Option.bind_eq_some_iff.mp h
    obtain ⟨rest₃, hend, h⟩ := Option.bind_eq_some_iff.mp h
    obtain ⟨es₁, hdefine, h⟩ := Option.bind_eq_some_iff.mp h
    obtain ⟨rfl, rfl⟩ := Prod.mk.inj (Option.some.inj h)
    refine ⟨_, .inr (writes_define ks), hdefine, fun es' => ?_⟩
    simp only [hkeys, hclose, hend, Option.bind_eq_bind, Option.bind_some]
    cases es'.define ks <;> rfl
  next hdouble hsingle =>
    split at h
    next hend =>
      obtain ⟨rfl, rfl⟩ := Prod.mk.inj (Option.some.inj h)
      exact ⟨some, .inl rfl, rfl, fun es' => rfl⟩
    next hend =>
      obtain ⟨⟨⟨ks, v⟩, rest₁⟩, hpair, h⟩ := Option.bind_eq_some_iff.mp h
      obtain ⟨d₁, hadd, h⟩ := Option.bind_eq_some_iff.mp h
      obtain ⟨rest₂, hend', h⟩ := Option.bind_eq_some_iff.mp h
      obtain ⟨rfl, rfl⟩ := Prod.mk.inj (Option.some.inj h)
      obtain ⟨es₁, hadd', rfl⟩ := Option.map_eq_some_iff.mp hadd
      refine ⟨_, .inr (writes_add current ks v), hadd', fun es' => ?_⟩
      simp only [hpair, hend', add, Option.bind_eq_bind, Option.bind_some]
      cases within .header (fun _ => true) (fun _ es => es.add ks v) current .header es' <;> rfl

/-- What is not there behind a line was not there before. -/
theorem line_lookup_eq_none (h : d.line cs = some (d', rest))
    (hnone : d'.entries.lookup name = none) : d.entries.lookup name = none := by
  obtain ⟨op, rfl | ⟨key, hop⟩, hentries, -⟩ := line_cases h
  · rwa [Option.some.inj hentries]
  · exact hop.lookup_eq_none hentries hnone

/-- An added table stays where it is, if the line brings none of its name. -/
theorem line_added (h : line ⟨es, current⟩ cs = some (d', rest))
    (hnone : d'.entries.lookup name = none) {es' : Entries} (hadded : Added name es es') :
    ∃ es₁', line ⟨es', current⟩ cs = some (⟨es₁', d'.current⟩, rest) ∧
      Added name d'.entries es₁' := by
  obtain ⟨op, hop, hentries, hline⟩ := line_cases h
  have hsame : ∃ es₁', op es' = some es₁' ∧ Added name d'.entries es₁' := by
    obtain rfl | ⟨key, hop⟩ := hop
    · exact ⟨es', rfl, by rwa [← Option.some.inj hentries]⟩
    · exact hop.added hentries hnone hadded
  obtain ⟨es₁', hes₁', hadded'⟩ := hsame
  exact ⟨es₁', by rw [hline, hes₁']; rfl, hadded'⟩

theorem lines_lookup_eq_none (h : d.lines cs = some d') (hnone : d'.entries.lookup name = none) :
    d.entries.lookup name = none := by
  fun_induction lines d cs with
  | case1 d cs hempty => rwa [Option.some.inj h]
  | case2 => cases h
  | case3 d cs hempty d₁ rest hline hshorter ih => exact line_lookup_eq_none hline (ih h)
  | case4 => cases h

theorem lines_added (h : d.lines cs = some d') (hnone : d'.entries.lookup name = none)
    {es' : Entries} (hadded : Added name d.entries es') :
    ∃ es₁', lines ⟨es', d.current⟩ cs = some ⟨es₁', d'.current⟩ ∧
      Added name d'.entries es₁' := by
  fun_induction lines d cs generalizing es' with
  | case1 d cs hempty =>
    obtain rfl := Option.some.inj h
    rw [lines, if_pos hempty]
    exact ⟨es', rfl, hadded⟩
  | case2 => cases h
  | case3 d cs hempty d₁ rest hline hshorter ih =>
    obtain ⟨es₁', hline', hadded'⟩ := line_added hline (lines_lookup_eq_none h hnone) hadded
    rw [lines_of_line hline' hshorter]
    exact ih h hadded'
  | case4 => cases h

end Draft

/-! ## An empty section -/

open Entries (Added)

/-- A text whose first pair, if there is one, has a header before it. -/
inductive EndsSection : List Char → Prop where
  | nil : EndsSection []
  | header {cs tail : List Char} (h : skipSpaces cs = '[' :: tail) : EndsSection cs
  | blank {cs rest : List Char} (h : lineEnd cs = some rest) (hrest : EndsSection rest) :
    EndsSection cs

variable {cs rest : List Char} {d d' : Draft} {es : Entries} {current : List String} {name : String}

theorem lineEnd_header {tail : List Char} (h : skipSpaces cs = '[' :: tail) :
    lineEnd cs = none := by
  rw [lineEnd_of_bare (by simp [h]), h]
  rfl

namespace Draft

theorem line_of_lineEnd (h : lineEnd cs = some rest) (d : Draft) :
    d.line cs = some (d, rest) := by
  have hskip : lineEnd (skipSpaces cs) = some rest := by
    rw [← h, lineEnd, lineEnd, skipSpaces, skipSpaces, List.dropWhile_idempotent]
  unfold line
  split
  next hhere => rw [lineEnd_header hhere] at h; cases h
  next hhere => rw [lineEnd_header hhere] at h; cases h
  next => rw [hskip]

/-- A header does not depend on the one before it. -/
theorem line_header {tail : List Char} (h : skipSpaces cs = '[' :: tail) (es : Entries)
    (current current' : List String) : line ⟨es, current⟩ cs = line ⟨es, current'⟩ cs := by
  unfold line
  rw [h]
  split
  next => rfl
  next => rfl
  next hheader => exact absurd rfl (hheader tail)

theorem lines_header {tail : List Char} (h : skipSpaces cs = '[' :: tail) (es : Entries)
    (current current' : List String) : lines ⟨es, current⟩ cs = lines ⟨es, current'⟩ cs := by
  have hnonempty : ¬cs.isEmpty := by
    intro hempty
    rw [List.isEmpty_iff.mp hempty] at h
    cases h
  rw [lines, lines, if_neg hnonempty, if_neg hnonempty, line_header h es current current']

theorem lines_inv (h : d.lines cs = some d') : cs = [] ∧ d' = d ∨
    ∃ d₁ rest, d.line cs = some (d₁, rest) ∧ rest.length < cs.length ∧ d₁.lines rest = some d' := by
  rw [lines] at h
  split at h
  next hempty => exact .inl ⟨List.isEmpty_iff.mp hempty, (Option.some.inj h).symm⟩
  next hempty =>
  split at h
  next => cases h
  next d₁ rest hline =>
  split at h
  next hshorter => exact .inr ⟨d₁, rest, hline, hshorter, h⟩
  next => cases h

theorem lines_added_of_endsSection (hends : EndsSection cs) (h : lines ⟨es, current⟩ cs = some d')
    (hnone : d'.entries.lookup name = none) {es' : Entries} (hadded : Added name es es')
    (current' : List String) :
    ∃ d₁, lines ⟨es', current'⟩ cs = some d₁ ∧ Added name d'.entries d₁.entries := by
  induction hends generalizing d' with
  | nil =>
    rw [lines] at h ⊢
    obtain rfl := Option.some.inj h
    exact ⟨_, rfl, hadded⟩
  | header hheader =>
    obtain ⟨es₁', h', hadded'⟩ := lines_added h hnone hadded
    rw [lines_header hheader es' current' current]
    exact ⟨_, h', hadded'⟩
  | blank hend hrest ih =>
    obtain ⟨rfl, rfl⟩ | ⟨d₁, rest', hline, hshorter, hlines⟩ := lines_inv h
    · rw [lines]
      exact ⟨_, rfl, hadded⟩
    · rw [line_of_lineEnd hend] at hline
      obtain ⟨rfl, rfl⟩ := Prod.mk.inj (Option.some.inj hline)
      rw [lines_of_line (line_of_lineEnd hend _) hshorter]
      exact ih hlines hnone

end Draft

/-! ## Headers -/

/-- The first text is a line with the header of a table, and the second one is behind that line. -/
inductive HeaderLine (name : String) : List Char → List Char → Prop where
  | intro {blanks written behind after : List Char} (hblanks : ∀ c ∈ blanks, isSpace c)
    (hkeys : keys (written ++ ']' :: behind) = some ([name], ']' :: behind))
    (hend : lineEnd behind = some after) :
    HeaderLine name (blanks ++ '[' :: (written ++ ']' :: behind)) after

/-- A key of characters that need no quotes. -/
def IsBare (name : String) : Prop := name ≠ "" ∧ ∀ c ∈ name.toList, isKeyChar c

theorem IsBare.head (h : IsBare name) : ∃ c cs, name.toList = c :: cs ∧ isKeyChar c := by
  obtain ⟨c, cs, hname⟩ := List.exists_cons_of_ne_nil (l := name.toList) (by simpa using h.1)
  exact ⟨c, cs, hname, h.2 c (by rw [hname]; exact List.mem_cons_self)⟩

theorem key_bare (h : IsBare name) (behind : List Char) :
    key (name.toList ++ ']' :: behind) = some (name, ']' :: behind) := by
  have htake : (name.toList ++ ']' :: behind).takeWhile isKeyChar = name.toList := by
    rw [List.takeWhile_append_of_pos h.2, List.takeWhile_cons_of_neg (by decide),
      List.append_nil]
  obtain ⟨c, cs, hname, hc⟩ := h.head
  unfold key
  split
  next heq =>
    rw [hname] at heq
    exact absurd hc (by rw [(List.cons.inj heq).1]; decide)
  next heq =>
    rw [hname] at heq
    exact absurd hc (by rw [(List.cons.inj heq).1]; decide)
  next =>
    simp only [htake]
    rw [if_neg (by simp [hname]), List.drop_left, String.ofList_toList]

theorem keys_bare (h : IsBare name) (behind : List Char) :
    keys (name.toList ++ ']' :: behind) = some ([name], ']' :: behind) := by
  have hskip : skipSpaces (name.toList ++ ']' :: behind) = name.toList ++ ']' :: behind := by
    obtain ⟨c, cs, hname, hc⟩ := h.head
    rw [hname]
    refine List.dropWhile_cons_of_neg fun hspace => ?_
    simp only [isSpace, Bool.or_eq_true, decide_eq_true_eq] at hspace
    obtain rfl | rfl := hspace <;> exact absurd hc (by decide)
  rw [keys, keysFrom, hskip, key_bare h]
  rfl

/-- The simplest header. -/
theorem HeaderLine.bare (h : IsBare name) (after : String) :
    HeaderLine name ("[" ++ name ++ "]\n" ++ after).toList after.toList := by
  have htext : ("[" ++ name ++ "]\n" ++ after).toList =
      [] ++ '[' :: (name.toList ++ ']' :: '\n' :: after.toList) := by simp
  rw [htext]
  exact .intro (by simp) (keys_bare h _) rfl

theorem length_lineEnd (h : lineEnd cs = some rest) : rest.length ≤ cs.length := by
  have hbare : ∀ {cs rest : List Char}, bareEnd cs = some rest → rest.length ≤ cs.length := by
    intro cs rest h
    unfold bareEnd at h
    split at h
    · rw [← Option.some.inj h]
    · rw [← Option.some.inj h, List.length_cons]
      omega
    · rw [← Option.some.inj h, List.length_cons, List.length_cons]
      omega
    · cases h
  have hskip : (skipSpaces cs).length ≤ cs.length := (List.dropWhile_suffix isSpace).length_le
  by_cases hcomment : ∃ tail, skipSpaces cs = '#' :: tail
  · obtain ⟨tail, hcomment⟩ := hcomment
    rw [lineEnd_of_comment hcomment] at h
    have htext : (tail.dropWhile isTextChar).length ≤ tail.length :=
      (List.dropWhile_suffix isTextChar).length_le
    rw [hcomment, List.length_cons] at hskip
    exact (hbare h).trans (by omega)
  · rw [lineEnd_of_bare (not_exists.mp hcomment)] at h
    exact (hbare h).trans hskip

variable {text after : List Char}

theorem HeaderLine.length_lt (h : HeaderLine name text after) : after.length < text.length := by
  obtain ⟨-, -, hend⟩ := h
  have hlength := length_lineEnd hend
  simp only [List.length_append, List.length_cons]
  omega

theorem HeaderLine.skipSpaces_eq (h : HeaderLine name text after) :
    ∃ tail, skipSpaces text = '[' :: tail := by
  obtain ⟨hblanks, -, -⟩ := h
  exact ⟨_, by rw [skipSpaces, List.dropWhile_append_of_pos hblanks]; rfl⟩

/-- A header of a new name brings an empty table. -/
theorem HeaderLine.line (h : HeaderLine name text after) (hnew : d.entries.lookup name = none) :
    d.line text = some (⟨d.entries ++ [(name, .table .header [])], [name]⟩, after) := by
  have hdefine : d.entries.define [name] =
      some (d.entries ++ [(name, .table .header [])]) := by
    simp only [Entries.define, Entries.underHeader, List.getLast?_singleton, Option.bind_eq_bind,
      Option.bind_some, List.dropLast_singleton, Entries.within, hnew]
  obtain ⟨hblanks, hkeys, hend⟩ := h
  rw [Draft.line, skipSpaces, List.dropWhile_append_of_pos hblanks,
    List.dropWhile_cons_of_neg (by decide)]
  split
  next heq =>
    -- No key begins with a bracket.
    rw [(List.cons.inj heq).2] at hkeys
    obtain ⟨first, hfirst⟩ := key_of_keys hkeys
    cases hfirst
  next tail _ heq =>
    obtain rfl := (List.cons.inj heq).2
    simp only [hkeys, expectChar, Option.bind_eq_bind, Option.bind_some, if_true, hend, hdefine]
    rfl
  next hheader => exact absurd rfl (hheader _)

/-! ## Where a line starts -/

/-- The text without a byte order mark before it. -/
def withoutMark (cs : List Char) : List Char :=
  if cs.head?.any (·.toNat = 0xFEFF) then cs.drop 1 else cs

theorem read_eq (s : String) :
    read s = (Draft.lines ⟨[], []⟩ (withoutMark s.toList)).map (·.entries) := rfl

theorem withoutMark_cons (c : Char) (cs : List Char) :
    withoutMark (c :: cs) = if c = '\uFEFF' then cs else c :: cs := by
  have hmark : (c.toNat = 0xFEFF) = (c = '\uFEFF') :=
    propext ⟨fun h => by rw [← Char.ofNat_toNat c, h], fun h => h ▸ rfl⟩
  simp only [withoutMark, List.head?_cons, Option.any_some, hmark, decide_eq_true_eq]
  rfl

theorem withoutMark_append {more next : List Char} (hmore : LineBreak more next)
    (cs : List Char) : withoutMark (cs ++ more) = withoutMark cs ++ more := by
  cases cs with
  | nil => cases hmore <;> rfl
  | cons c cs =>
    rw [List.cons_append, withoutMark_cons, withoutMark_cons]
    split <;> rfl

theorem withoutMark_of_header {tail : List Char} (h : skipSpaces cs = '[' :: tail) :
    withoutMark cs = cs := by
  cases cs with
  | nil => rfl
  | cons c cs =>
    rw [withoutMark_cons, if_neg]
    rintro rfl
    exact absurd (List.cons.inj h).1 (by decide)

theorem withoutMark_of_lineEnd (h : lineEnd cs = some rest) : withoutMark cs = cs := by
  cases cs with
  | nil => rfl
  | cons c cs =>
    rw [withoutMark_cons, if_neg]
    rintro rfl
    cases h

theorem withoutMark_of_endsSection (h : EndsSection cs) : withoutMark cs = cs := by
  cases h with
  | nil => rfl
  | header hheader => exact withoutMark_of_header hheader
  | blank hend => exact withoutMark_of_lineEnd hend

/-- The ends of a line. -/
def lineEnds : List String := ["\n", "\r\n"]

theorem lineBreak_of_mem {lineEnd : String} (h : lineEnd ∈ lineEnds) (more : List Char) :
    LineBreak (lineEnd.toList ++ more) more := by
  simp only [lineEnds, List.mem_cons, List.not_mem_nil, or_false] at h
  obtain rfl | rfl := h
  · exact .newline more
  · exact .carriage more

/-- The texts behind which a line of its own starts. -/
inductive LineStart : String → Prop where
  | first : LineStart ""
  | mark : LineStart "\uFEFF"
  | behind {before lineEnd : String} (h : (read before).isSome) (hend : lineEnd ∈ lineEnds) :
    LineStart (before ++ lineEnd)

/-- A text that is read is read behind a line end of its own as before it. -/
theorem read_append {s lineEnd : String} (hend : lineEnd ∈ lineEnds) (h : read s = some es) :
    ∃ d : Draft, d.entries = es ∧ ∀ more,
      Draft.lines ⟨[], []⟩ (withoutMark ((s ++ lineEnd).toList ++ more)) = d.lines more := by
  obtain ⟨d, hlines, rfl⟩ := Option.map_eq_some_iff.mp h
  refine ⟨d, rfl, fun more => ?_⟩
  have hbreak := lineBreak_of_mem hend more
  rw [String.toList_append, List.append_assoc, withoutMark_append hbreak]
  exact Draft.lines_append hbreak hlines

/-- A line end behind the text does not matter. -/
theorem read_lineEnd {s lineEnd : String} (hend : lineEnd ∈ lineEnds) (h : read s = some es) :
    read (s ++ lineEnd) = some es := by
  obtain ⟨d, hentries, hlines⟩ := read_append hend h
  have hlast : d.lines [] = some d := by rw [Draft.lines]; rfl
  rw [read_eq, ← List.append_nil (s ++ lineEnd).toList, hlines, hlast]
  exact congrArg some hentries

/-- A text that is read in lines is read from the start of any line on. -/
theorem LineStart.lines {before : String} (h : LineStart before) :
    ∃ d, ∀ more, withoutMark more = more →
      Draft.lines ⟨[], []⟩ (withoutMark (before.toList ++ more)) = Draft.lines d more := by
  cases h with
  | first => exact ⟨⟨[], []⟩, fun more hmore => congrArg _ hmore⟩
  | mark => exact ⟨⟨[], []⟩, fun more hmore => rfl⟩
  | behind hread hend =>
    obtain ⟨es, hread⟩ := Option.isSome_iff_exists.mp hread
    obtain ⟨d, -, hlines⟩ := read_append hend hread
    exact ⟨d, fun more _ => hlines more⟩

/-- A header with nothing under it adds an empty table, and nothing else. -/
theorem read_added {before after headed : String} (hbefore : LineStart before)
    (hafter : EndsSection after.toList) (hheader : HeaderLine name headed.toList after.toList)
    (h : read (before ++ after) = some es) (hnone : es.lookup name = none) :
    ∃ es', read (before ++ headed) = some es' ∧ Added name es es' := by
  obtain ⟨d, hstart⟩ := hbefore.lines
  obtain ⟨d', hlines, rfl⟩ := Option.map_eq_some_iff.mp h
  have hlines' : Draft.lines d after.toList = some d' := by
    rw [← hstart _ (withoutMark_of_endsSection hafter), ← String.toList_append]
    exact hlines
  have hnew : d.entries.lookup name = none := Draft.lines_lookup_eq_none hlines' hnone
  have hempty : Added name d.entries (d.entries ++ [(name, .table .header [])]) :=
    ⟨d.entries, [], (List.append_nil _).symm, rfl⟩
  obtain ⟨d₁, hlines₁, hadded⟩ :=
    Draft.lines_added_of_endsSection hafter hlines' hnone hempty [name]
  refine ⟨d₁.entries, ?_, hadded⟩
  obtain ⟨tail, hskip⟩ := hheader.skipSpaces_eq
  rw [read_eq, String.toList_append, hstart _ (withoutMark_of_header hskip),
    Draft.lines_of_line (hheader.line hnew) hheader.length_lt, hlines₁]
  rfl

end Graft.Toml

import Graft.Proofs.Files.Write

/-!
# Handles stay, and the file tells what was emitted

A sink only grows at its end. So a handle stands for its entry however much is emitted later, and
the text of the foreign file is only ever continued. What is known of a written file are the counts
of what was emitted, although one of them is found as a difference.
-/

namespace Graft.Sink

variable {s : Sink} {t t' : FileTree} {p : FilePath} {answer : Option FlushedUnit}

/-! ## Emitting -/

theorem emitAll_eq (s : Sink) (es : List SinkEntry) :
    s.emitAll es = (List.range' s.size es.length, { s with entries := s.entries ++ es }) := by
  induction es generalizing s with
  | nil => rw [List.append_nil]; rfl
  | cons e es ih =>
    have hmore : (s.push e).entries ++ es = s.entries ++ e :: es := by
      rw [push, List.append_assoc]
      rfl
    show (s.nextHandle :: ((s.push e).emitAll es).1, ((s.push e).emitAll es).2) = _
    rw [ih, size_push, hmore]
    rfl

theorem emitAll_ofUnit (unit : String) (crates : List String) (es : List SinkEntry) :
    (ofUnit unit crates).emitAll es = (List.range es.length, ⟨unit, crates, es⟩) := by
  rw [emitAll_eq, List.range_eq_range']
  rfl

/-- All that is emitted later goes behind all that is there. -/
theorem render_append (unit : String) (crates : List String) (es later : List SinkEntry) :
    render ⟨unit, crates, es ++ later⟩ =
      render ⟨unit, crates, es⟩ ++ String.join (later.map (·.render unit)) := by
  rw [render, render, List.map_append, String.join_append, String.append_assoc]
  rfl

/-! ## Writing -/

theorem flush_of_isEmpty (h : s.isEmpty) (t : FileTree) (p : FilePath) :
    s.flush t p = .ok (none, t) := by
  rw [flush, flushed?, if_pos h]

/-- What is not empty is written with all directories above it, and counted. -/
theorem flush_eq_ok_iff (h : s.isEmpty = false) :
    s.flush t p = .ok (answer, t') ↔
      (∃ made, t.withParent p = .ok made ∧ made.writeText p s.render = .ok t') ∧
        answer = some ⟨p.text, s.functionCount, s.size - s.functionCount,
          s.render.utf8ByteSize⟩ := by
  rw [flush, flushed?, if_neg (by rw [h]; exact Bool.false_ne_true)]
  constructor
  · intro hflush
    obtain ⟨made, hmade, hflush⟩ := except_bind_eq_ok hflush
    obtain ⟨written, hwritten, hflush⟩ := except_bind_eq_ok hflush
    obtain ⟨rfl, rfl⟩ := Prod.mk.inj (Except.ok.inj hflush)
    exact ⟨⟨made, except_mapError_eq_ok hmade, except_mapError_eq_ok hwritten⟩, rfl⟩
  · rintro ⟨⟨made, hmade, hwritten⟩, rfl⟩
    simp only [hmade, hwritten, Except.mapError, bind, Except.bind]
    rfl

/-- What is written, and what is known of it, where the entries `es` have been emitted. -/
structure FlushesTo (s : Sink) (es : List SinkEntry) (t : FileTree) (p : FilePath) : Prop where
  /-- There is nothing to be known exactly where nothing was emitted. -/
  none_iff : (∃ t', s.flush t p = .ok (none, t')) ↔ es = []
  untouched : es = [] → s.flush t p = .ok (none, t)
  /-- Else it only takes that the file can be written. -/
  isOk_iff : es ≠ [] → ((s.flush t p).isOk ↔ t.canWrite p)
  written : ∀ f t', s.flush t p = .ok (some f, t') → t'.readText p = .ok s.render ∧
    f.functions = es.countP (·.isFunction) ∧ f.items = es.countP (!·.isFunction) ∧
    f.functions + f.items = es.length ∧ f.bytes = s.render.utf8ByteSize ∧ f.path = p.text

/-- What is no function is an item. -/
theorem size_eq_add (s : Sink) :
    s.size = s.functionCount + s.entries.countP (!·.isFunction) := by
  have hsplit := s.entries.length_eq_countP_add_countP (·.isFunction)
  simpa only [size, functionCount, Bool.not_eq_true, Bool.decide_eq_false] using hsplit

theorem flushesTo (unit : String) (crates : List String) (es : List SinkEntry) (t : FileTree)
    (p : FilePath) : FlushesTo ⟨unit, crates, es⟩ es t p := by
  -- Without entries nothing is written, and with any the whole text is.
  by_cases hes : es = []
  · subst hes
    have hnone : flush ⟨unit, crates, []⟩ t p = .ok (none, t) := flush_of_isEmpty rfl t p
    refine ⟨iff_of_true ⟨t, hnone⟩ rfl, fun _ => hnone, fun hne => absurd rfl hne, ?_⟩
    intro f t' hflush
    rw [hnone] at hflush
    cases hflush
  · have hempty : isEmpty ⟨unit, crates, es⟩ = false := by simpa [isEmpty] using hes
    refine ⟨iff_of_false ?_ hes, fun heq => absurd heq hes, fun _ => ?_, ?_⟩
    · rintro ⟨t', hflush⟩
      cases ((flush_eq_ok_iff hempty).mp hflush).2
    · rw [FileTree.canWrite_iff (render ⟨unit, crates, es⟩)]
      constructor
      · intro hok
        obtain ⟨⟨answer, t'⟩, hflush⟩ := except_eq_ok_of_isOk hok
        obtain ⟨⟨made, hmade, hwritten⟩, -⟩ := (flush_eq_ok_iff hempty).mp hflush
        exact ⟨made, t', hmade, hwritten⟩
      · rintro ⟨made, t', hmade, hwritten⟩
        rw [(flush_eq_ok_iff hempty).mpr ⟨⟨made, hmade, hwritten⟩, rfl⟩]
        rfl
    · intro f t' hflush
      obtain ⟨⟨made, -, hwritten⟩, hf⟩ := (flush_eq_ok_iff hempty).mp hflush
      obtain rfl := Option.some.inj hf
      have hsize : es.length = es.countP (·.isFunction) + es.countP (!·.isFunction) :=
        size_eq_add ⟨unit, crates, es⟩
      have hfunctions : functionCount ⟨unit, crates, es⟩ = es.countP (·.isFunction) := rfl
      have hitems : size ⟨unit, crates, es⟩ - functionCount ⟨unit, crates, es⟩ =
          es.countP (!·.isFunction) := by
        show es.length - es.countP (·.isFunction) = _
        omega
      refine ⟨FileTree.readText_of_writeText hwritten, hfunctions, hitems, ?_, rfl, rfl⟩
      show functionCount ⟨unit, crates, es⟩ + (size ⟨unit, crates, es⟩ - _) = _
      rw [hitems, hfunctions, hsize]

/-- **A sink only grows.** The handles of entries emitted one after the other count from zero, and
each stands for its entry whatever is emitted later. The text at any time is the beginning of all
later texts. Flushed, a sink without entries leaves no trace; any other is written if the file can
be, as exactly this text, and its counts are those of the functions and the items emitted and of the
bytes written. -/
theorem emitAll_stable (unit : String) (crates : List String) (es : List SinkEntry) :
    let start := ofUnit unit crates
    let s := (start.emitAll es).2
    (start.emitAll es).1 = List.range es.length ∧
    (∀ later k e, es[k]? = some e → (start.emitAll (es ++ later)).2.entryAt? k = some e) ∧
    (∀ later, ∃ text, (start.emitAll (es ++ later)).2.render = s.render ++ text) ∧
    ∀ t p, s.FlushesTo es t p := by
  intro start s
  have hs : s = ⟨unit, crates, es⟩ := congrArg Prod.snd (emitAll_ofUnit unit crates es)
  have hlater : ∀ later, (start.emitAll (es ++ later)).2 = ⟨unit, crates, es ++ later⟩ := by
    intro later
    exact congrArg Prod.snd (emitAll_ofUnit unit crates (es ++ later))
  refine ⟨congrArg Prod.fst (emitAll_ofUnit unit crates es), ?_, ?_, ?_⟩
  · intro later k e he
    obtain ⟨hlt, -⟩ := List.getElem?_eq_some_iff.mp he
    rw [hlater]
    show (es ++ later)[k]? = some e
    rw [List.getElem?_append_left hlt, he]
  · intro later
    rw [hlater, hs]
    exact ⟨_, render_append unit crates es later⟩
  · intro t p
    rw [hs]
    exact flushesTo unit crates es t p

/-- Items and a function, of which the items are there before the function is emitted. -/
theorem emitAll_stable_items :
    let items : SinkEntry := .items " struct A; " ⟨1, 11, 1, 11⟩
    let f : SinkEntry := .function
      ⟨"s_0", "pub extern \"C\" fn s_0 () { }", ⟨"()"⟩, [], [], ⟨2, 6, 2, 6⟩, ⟨.safe, .pure⟩⟩
    let start := ofUnit "Main.hs" ["libc"]
    let last := (start.emitAll [items, f]).2
    let text := "// @generated by splicer from Main.hs. Do not edit.\n" ++
      "#![allow(unused, non_snake_case, clippy::all)]\nextern crate libc;\n" ++
      "\n// Main.hs:1:11 (items)\nstruct A;\n"
    (start.emitAll [items, f]).1 = [0, 1] ∧ last.entryAt? 0 = some items ∧
      (start.emitAll [items]).2.render = text ∧ (∃ more, last.render = text ++ more) ∧
      start.flush .empty ⟨"gen/unit.rs"⟩ = .ok (none, .empty) ∧
      ∃ flushed t, last.flush .empty ⟨"gen/unit.rs"⟩ = .ok (some flushed, t) ∧
        t.readText ⟨"gen/unit.rs"⟩ = .ok last.render ∧ flushed.functions = 1 ∧
        flushed.items = 1 ∧ flushed.bytes = 205 := by
  intro items f start last text
  let p : FilePath := ⟨"gen/unit.rs"⟩
  obtain ⟨hhandles, -, -, hflushes⟩ := emitAll_stable "Main.hs" ["libc"] [items, f]
  obtain ⟨-, hentry, hmore, -⟩ := emitAll_stable "Main.hs" ["libc"] [items]
  obtain ⟨-, -, -, hnothing⟩ := emitAll_stable "Main.hs" ["libc"] []
  have htext : (start.emitAll [items]).2.render = text := by decide +kernel
  have hok : (last.flush .empty p).isOk :=
    ((hflushes .empty p).isOk_iff (List.cons_ne_nil _ _)).mpr (by decide +kernel)
  obtain ⟨⟨answer, t⟩, hflush⟩ := except_eq_ok_of_isOk hok
  have hsome : answer ≠ none := by
    rintro rfl
    exact List.cons_ne_nil _ _ ((hflushes .empty p).none_iff.mp ⟨t, hflush⟩)
  obtain ⟨flushed, rfl⟩ := Option.ne_none_iff_exists'.mp hsome
  obtain ⟨hread, hfunctions, hitems, -, hbytes, -⟩ := (hflushes .empty p).written flushed t hflush
  refine ⟨hhandles, hentry [f] 0 items rfl, htext, htext ▸ hmore [f],
    (hnothing .empty p).untouched rfl, flushed, t, hflush, hread, hfunctions, hitems, ?_⟩
  rw [hbytes]
  decide +kernel

end Graft.Sink

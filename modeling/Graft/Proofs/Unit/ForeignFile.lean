import Graft.Proofs.Grammar.PlainFunction
import Graft.Proofs.Types.Plain
import Graft.Proofs.Unit.ItemText
import Graft.Unit.Items
import Graft.Unit.Sink

/-!
# What a foreign file holds

Every entry of a sink was read alone before it was let in, as the text of a whole file. Rendered it
stands between others, on lines of its own. It is read there as the same items, unless it starts
with what only the start of a file may hold.
-/

namespace Graft

open Token (ReadsAnywhere Sealed unplacedAll)
open Grammar (IsSequence startsInner)

/-! ## Items on lines of their own -/

/-- Wherever the text stands outside of groups, it is read as the items. -/
def HoldsItems (cs : List Char) (its : List (List Token)) : Prop :=
  ∃ ts, ReadsAnywhere cs ts ∧ IsSequence ts its ∧ Sealed ts ∧ startsInner ts = false

namespace HoldsItems

variable {cs cs' : List Char} {its its' : List (List Token)}

theorem of_blank (h : ReadsAnywhere cs []) : HoldsItems cs [] :=
  ⟨[], h, Grammar.isSequence_nil, .nil, rfl⟩

theorem append (h : HoldsItems cs its) (h' : HoldsItems cs' its') :
    HoldsItems (cs ++ cs') (its ++ its') := by
  obtain ⟨ts, hread, hitems, hsealed, hinner⟩ := h
  obtain ⟨ts', hread', hitems', hsealed', hinner'⟩ := h'
  refine ⟨ts ++ ts', hread.append hread', hitems.append hsealed hitems', ?_, ?_⟩
  · by_cases hne : ts' = []
    · rw [hne, List.append_nil]
      exact hsealed
    · intro t ht
      rw [List.getLast?_append_of_ne_nil ts hne] at ht
      exact hsealed' t ht
  · by_cases hne : ts = []
    · rw [hne, List.nil_append]
      exact hinner'
    · rw [Grammar.startsInner_append hsealed ts' hne]
      exact hinner

theorem join {α : Type} {text : α → String} {items : α → List (List Token)} {as : List α}
    (h : ∀ a ∈ as, HoldsItems (text a).toList (items a)) :
    HoldsItems (String.join (as.map text)).toList (as.flatMap items) := by
  induction as with
  | nil => exact of_blank .nil
  | cons a as ih =>
    obtain ⟨ha, has⟩ := List.forall_mem_cons.mp h
    rw [List.map_cons, String.join_cons, String.toList_append, List.flatMap_cons]
    exact ha.append (ih has)

end HoldsItems

/-! ## Crates -/

/-- Whether `name` is a word that may name something. -/
def isIdentifier (name : String) : Bool := Token.readsAsWord name && !reservedWords.contains name

/-- The item that names a crate. -/
def crateTokens (name : String) : List Token :=
  [.word "extern", .word "crate", .word name, .mark ';']

namespace Grammar

open Graft.Parser
open Token (Word)

variable {g : Grammar}

theorem takes_crateItem (w : Word) (hfree : reservedWords.contains w.text = false)
    (tail : List Token) :
    Takes crateItem [.word "crate", .word w.text, .mark ';'] tail
      ([.word ⟨"crate", by decide +kernel⟩] ++ ([.word w] ++ [.sign .semicolon])) fun _ => True := by
  have hself : ∀ ts, Look.word "self" (.ident w.text .nowhere :: ts) = false := fun _ =>
    decide_eq_false fun heq => by
      rw [← heq] at hfree
      cases hfree
  refine (takes_word ⟨"crate", by decide +kernel⟩ .nowhere).bind fun _ _ => ?_
  refine (takes_word?_of_not (hself _)).look ?_
  refine (takes_name w .nowhere hfree).bind fun _ _ => ?_
  refine (takes_word?_of_not rfl).look ?_
  exact takes_sign .semicolon .alone .nowhere

theorem itemRest_crate (name : String) (s : Scope) (w : List Token) :
    g.itemRest s ⟨crateTokens name, w, none⟩ =
      crateItem s ⟨[.word "crate", .word name, .mark ';'], .word "extern" :: w, none⟩ := rfl

theorem isSequence_crate {name : String} (h : isIdentifier name = true) :
    IsSequence (crateTokens name) [crateTokens name] := by
  obtain ⟨hreads, hfree⟩ := Bool.and_eq_true_iff.mp h
  rw [Bool.not_eq_true'] at hfree
  let w : Word := ⟨name, hreads⟩
  obtain ⟨⟨⟩, out, hcrate, -⟩ := takes_crateItem w hfree [] ⟨.start⟩ [.word "extern"] none
  refine isSequence_singleton (List.cons_ne_nil _ _) (w := out.reverse ++ [.word "extern"]) ?_
  have hplain : Look.op "#" (crateTokens name) = false := rfl
  obtain ⟨_, _, hattributes, hnone, -⟩ :=
    takes_outerAttributes hplain (g := level 29) ⟨.start⟩ [] none
  cases hnone
  exact (bind_of_ok hattributes).trans ((itemRest_crate name _ _).trans hcrate)

end Grammar

theorem readsAnywhere_crate {name : String} (h : Token.readsAsWord name = true) :
    ReadsAnywhere ("extern crate " ++ name ++ ";\n").toList (crateTokens name) := by
  intro done p rest
  let w : Token.Word := ⟨name, h⟩
  let crate : Token.Word := ⟨"crate", by decide +kernel⟩
  have hblank : ∀ cs : List Char, Ends (' ' :: cs) := Ends.cons (by decide)
  have hwords : Token.ReadsAs ("extern".toList ++ (' ' :: ("crate".toList ++ ' ' :: name.toList)))
      ([.word .foreign] ++ ([.word crate] ++ [.word w])) (';' :: '\n' :: rest) :=
    (Token.Word.foreign.readsAs (hblank _)).append
      ((crate.readsAs (hblank _)).append (w.readsAs (.cons (by decide) _)).blank).blank
  have htext : ("extern crate " ++ name ++ ";\n").toList ++ rest =
      "extern".toList ++ (' ' :: ("crate".toList ++ ' ' :: name.toList)) ++ ';' :: '\n' :: rest := by
    simp only [String.toList_append, List.append_assoc]
    rfl
  obtain ⟨ts, q, hts, hread⟩ := hwords [] done p
  cases hts with
  | word _ span hts =>
    cases hts with
    | word _ span' hts =>
      cases hts with
      | word _ span'' hts =>
        cases hts
        rw [htext, hread, Token.readFrom_mark (by decide), Token.readFrom_blankMark (by decide)]
        exact ⟨[.ident "extern" span, .ident "crate" span', .ident name span'',
          .punct ';' .alone ⟨q, q.next ';'⟩], _, rfl, rfl⟩

/-! ## Entries -/

/-- Whether a text starts with what only the start of a file may hold: a byte order mark, the line
of an interpreter, or an attribute of the file. -/
def Items.opensFile (text : String) : Bool :=
  readable text ≠ text.toList ||
    match Token.read (readable text) with
    | .ok ts => startsInner ts
    | .error _ => false

namespace Items

variable {text : String} {items : List (List Token)}

theorem length_withoutInterpreter_le (cs : List Char) :
    (withoutInterpreter cs).length ≤ cs.length := by
  unfold withoutInterpreter
  split
  next =>
    dsimp only
    split
    next => exact Nat.le_refl _
    next => exact (List.dropWhile_suffix _).length_le
  next => exact Nat.le_refl _

theorem no_orderMark (h : readable text = text.toList) :
    Token.startsWithOrderMark text.toList = false := by
  by_contra hmark
  rw [Bool.not_eq_false] at hmark
  have hlength := congrArg List.length h
  unfold readable at hlength
  simp only at hlength
  rw [show text.toList.head?.any (·.toNat = 0xFEFF) = true from hmark, if_pos rfl] at hlength
  have hle := length_withoutInterpreter_le (text.toList.drop 1)
  cases htext : text.toList with
  | nil =>
    rw [htext] at hmark
    cases hmark
  | cons c cs =>
    rw [htext] at hlength hle
    simp at hlength hle
    omega

/-- What is accepted and does not start as only a file may, is read as a sequence of items. -/
theorem isSequence_of_ofText (h : ofText text = .ok items) (hstart : opensFile text = false) :
    ∃ ts, Token.readFrom [] [] .start text.toList = .ok ts ∧ IsSequence ts items ∧
      startsInner ts = false := by
  obtain ⟨hreadable, hinner⟩ := Bool.or_eq_false_iff.mp hstart
  have hsame : readable text = text.toList := not_not.mp (of_decide_eq_false hreadable)
  rw [hsame, Token.read_eq (no_orderMark hsame)] at hinner
  rw [ofText, hsame, Token.read_eq (no_orderMark hsame)] at h
  cases hread : Token.readFrom [] [] .start text.toList with
  | error place =>
    rw [hread] at h
    cases h
  | ok ts =>
    rw [hread] at h hinner
    exact ⟨ts, rfl, (Grammar.run_items hinner).mp h, hinner⟩

/-- A text that is read as an attribute of what follows it opens no file. -/
theorem opensFile_attribute (h : ∃ cs, text.toList = '#' :: ' ' :: '[' :: cs) :
    opensFile text = false := by
  obtain ⟨cs, h⟩ := h
  have hsame : readable text = text.toList := by
    unfold readable
    rw [h]
    rfl
  refine Bool.or_eq_false_iff.mpr ⟨by simp [hsame], ?_⟩
  rw [hsame, Token.read_eq (no_orderMark hsame), h]
  split
  next ts hread =>
    let hash : Token := .punct '#' .alone ⟨.start, Position.start.next '#'⟩
    have hleaf : Token.leaf? .start (['#'] ++ ' ' :: '[' :: cs) = some (hash, 1) :=
      Token.leaf?_of_mark (by decide) (by decide) (by decide) .start (' ' :: '[' :: cs)
    have hmark : Token.readFrom [] [] .start (['#'] ++ ' ' :: '[' :: cs) =
        Token.readFrom [] [hash] (Position.start.advance ['#']) (' ' :: '[' :: cs) :=
      Token.readFrom_leaf ⟨by decide, by decide⟩ rfl rfl hleaf
    have hopens : startsWith Token.errorMark (Delimiter.bracket.opening :: cs) = false := rfl
    rw [show '#' :: ' ' :: '[' :: cs = ['#'] ++ ' ' :: '[' :: cs from rfl, hmark,
      Token.readFrom_blank] at hread
    obtain ⟨more, rfl, hgroup⟩ := Token.readFrom_extends ((Token.readFrom_opens hopens).symm.trans hread)
    obtain ⟨d, inner, span, hhead⟩ := hgroup (List.cons_ne_nil _ _)
    obtain ⟨more, rfl⟩ := List.head?_eq_some_iff.mp hhead
    rfl
  next => rfl

end Items

namespace SinkEntry

/-- The text of an entry as it was emitted. -/
def text : SinkEntry → String
  | function f => f.source
  | items text _ => text

/-- The items that an entry is read as alone. -/
def ownItems (e : SinkEntry) : List (List Token) :=
  match Items.ofText e.text with
  | .ok its => its
  | .error _ => []

theorem lineEnd_not_mem_location (l : Location) : '\n' ∉ l.render.toList := by
  have hnumber : ∀ n : Nat, '\n' ∉ Nat.toDigits 10 n := fun n hmem => by
    cases Nat.isDigit_of_mem_toDigits (by decide) (by decide) hmem
  simp [Location.render, hnumber]

/-- A text on a line of its own under a comment is read as the text. -/
theorem readsAnywhere_below {note body : List Char} {ts : List Token} (hnote : '\n' ∉ note)
    (hbody : ReadsAnywhere (body ++ ['\n']) ts) :
    ReadsAnywhere ('\n' :: ("// ".toList ++ note ++ ['\n'] ++ (body ++ ['\n']))) ts :=
  (Token.ReadsAnywhere.blankMark (by decide)).append ((Token.ReadsAnywhere.comment hnote).append hbody)

variable {unit : String} {e : SinkEntry} {its : List (List Token)}

/-- **An entry is read in the file as it is read alone.** -/
theorem holdsItems_render (hunit : '\n' ∉ unit.toList) (hof : Items.ofText e.text = .ok its)
    (hstart : Items.opensFile e.text = false) : HoldsItems (e.render unit).toList its := by
  obtain ⟨ts, hread, hsequence, hinner⟩ := Items.isSequence_of_ofText hof hstart
  have hlast := hsequence.closed
  refine ⟨ts, ?_, hsequence, Token.sealed_of_read hread hlast, hinner⟩
  cases e with
  | function f =>
    have hquoter : '\n' ∉ f.entry.quoter.toList := by
      obtain ⟨safety, purity⟩ := f.entry
      cases safety <;> cases purity <;> decide
    have hnote : '\n' ∉ (unit ++ ":" ++ f.location.render ++ " (" ++ f.entry.quoter ++ ")").toList := by
      simp [hunit, hquoter, lineEnd_not_mem_location]
    have hwhole : Token.readFrom [] [] .start ([] ++ f.source.toList ++ []) = .ok ts := by
      rw [List.append_nil]
      exact hread
    have hread' := readsAnywhere_below hnote (.items hwhole hlast nofun nofun)
    have hrender : (render unit (.function f)).toList = '\n' :: ("// ".toList ++
        (unit ++ ":" ++ f.location.render ++ " (" ++ f.entry.quoter ++ ")").toList ++ ['\n'] ++
        (f.source.toList ++ ['\n'])) := by
      simp only [render, String.toList_append, List.append_assoc]
      rfl
    exact hrender ▸ hread'
  | items text location =>
    have hnote : '\n' ∉ (unit ++ ":" ++ location.render ++ " (items)").toList := by
      simp [hunit, lineEnd_not_mem_location]
    obtain ⟨lead, tail, htext, hlead, htail⟩ := Token.exists_trimBlanks text.toList
    have hwhole : Token.readFrom [] [] .start (lead ++ trimBlanks text.toList ++ tail) = .ok ts :=
      htext ▸ hread
    have hread' := readsAnywhere_below hnote (.items hwhole hlast hlead htail)
    have hrender : (render unit (.items text location)).toList = '\n' :: ("// ".toList ++
        (unit ++ ":" ++ location.render ++ " (items)").toList ++ ['\n'] ++
        (trimBlanks text.toList ++ ['\n'])) := by
      simp only [render, String.toList_append, List.append_assoc, String.toList_ofList]
      rfl
    exact hrender ▸ hread'

end SinkEntry

/-- A boundary function starts with the attribute that exports it. -/
theorem ForeignFunction.opensFile_ofSnippet (symbol : String) (s : Snippet) (entry : EntryPoint)
    (edition : Edition) : Items.opensFile (ofSnippet symbol s entry edition).source = false := by
  have hexport : ∃ inner, edition.exportAttribute =
      [.mark '#', .group .bracket inner .nowhere] := by
    cases edition <;> exact ⟨_, rfl⟩
  obtain ⟨inner, hinner⟩ := hexport
  have hdisplay : ∀ t ts, ∃ cs, (Token.displayAll (.mark '#' :: .group .bracket inner .nowhere ::
      t :: ts)).toList = '#' :: ' ' :: '[' :: cs := by
    intro t ts
    simp [Token.displayAll, Token.display, Token.isJoint, Token.mark]
  refine Items.opensFile_attribute ?_
  rw [ofSnippet, tokens, hinner]
  exact hdisplay _ _

/-! ## The head of the file -/

namespace Grammar

open Graft.Parser

/-- Whether the tokens are one attribute of the file, without expressions in it. -/
def isFileAttribute : List Token → Bool
  | [.punct '#' _ _, .punct '!' _ _, .group .bracket inner place] =>
    match bottom.attributeBody ⟨place.closing⟩ ⟨inner, [], none⟩ with
    | .ok (_, ⟨[], _, none⟩) => true
    | _ => false
  | _ => false

theorem innerAttributes_of_isFileAttribute {ts us : List Token} (h : isFileAttribute ts = true)
    (hus : startsInner us = false) (n : Nat) (s : Scope) :
    ∃ w, (level n).innerAttributes s ⟨ts ++ us, [], none⟩ = .ok (⟨⟩, ⟨us, w, none⟩) := by
  unfold isFileAttribute at h
  split at h
  next inner place =>
    split at h
    next written hbody =>
      have hdeeper : Refines bottom (level n) := refines_level (Nat.zero_le n)
      exact innerAttributes_of_read (Below.ok hbody) hus
    next => cases h
  next => cases h

end Grammar

/-- The attribute of a foreign file. -/
def allowLine : List Char := "#![allow(unused, non_snake_case, clippy::all)]".toList

theorem readsAnywhere_allow :
    ∃ ts, ReadsAnywhere (allowLine ++ ['\n']) ts ∧ Grammar.isFileAttribute ts = true := by
  have hattribute : (match Token.readFrom [] [] .start allowLine with
      | .ok ts => Grammar.isFileAttribute ts
      | .error _ => false) = true := by decide +kernel
  have hend : Token.endsInLine allowLine = false := by decide +kernel
  split at hattribute
  next ts hread => exact ⟨ts, .of_read hread hend, hattribute⟩
  next => cases hattribute

/-! ## Whole files -/

theorem Grammar.run_items_congr {ts us : List Token} {its : List (List Token)}
    (h : unplacedAll ts = unplacedAll us) (hrun : Parser.run (reading us).items us = .ok its) :
    ∃ its', Parser.run (reading ts).items ts = .ok its' ∧
      its'.map unplacedAll = its.map unplacedAll := by
  have hrespaced : Token.Respaced us ts := .of_unplacedAll_eq h.symm
  have hreading : Blind (reading us) (reading ts) := blind_reading hrespaced
  obtain ⟨its₁, its', heq, hrun', halike⟩ | ⟨e, _, he, -⟩ :=
    Parser.run_respaced (reading us).items (reading ts).items hrespaced
  · obtain rfl : its = its₁ := Except.ok.inj (hrun.symm.trans heq)
    refine ⟨its', hrun', ?_⟩
    -- The items are consecutive parts of what stands behind the attributes, of known lengths.
    have hlength : its'.map List.length = its.map List.length := by
      have hunspaced : ∀ its : List (List Token),
          (Spaced.unspaced its).map List.length = its.map List.length := fun its => by
        simp [Spaced.unspaced]
      rw [← hunspaced, ← halike.eq, hunspaced]
    have hwhole : ∀ {vs ws}, vs <:+ ws → unplacedAll vs =
        (unplacedAll ws).drop (ws.length - vs.length) := fun {vs ws} hsuffix => by
      rw [Token.unplacedAll_eq_map, Token.unplacedAll_eq_map, ← List.map_drop,
        ← List.suffix_iff_eq_drop.mp hsuffix]
    have hflatten : ∀ its : List (List Token),
        (its.map unplacedAll).flatten = unplacedAll its.flatten := fun its => by
      simp only [funext Token.unplacedAll_eq_map, List.map_flatten]
    refine List.eq_iff_flatten_eq.mpr ⟨?_, ?_⟩
    · rw [hflatten, hflatten, hwhole (flatten_suffix_of_run hrun'),
        hwhole (flatten_suffix_of_run hrun), h, hrespaced.length_eq, List.length_flatten,
        List.length_flatten, hlength]
    · simpa [funext Token.unplacedAll_eq_map, Function.comp_def] using hlength
  · cases he.symm.trans hrun

variable {s : Sink}

/-- The entry was let in: the function of a snippet, which is one item, or a text of items. -/
inductive SinkEntry.Accepted : SinkEntry → Prop where
  | function (symbol : String) (snippet : Snippet) (entry : EntryPoint) (edition : Edition)
      (item : List Token) :
      Items.ofText (ForeignFunction.ofSnippet symbol snippet entry edition).source = .ok [item] →
      Accepted (.function (.ofSnippet symbol snippet entry edition))
  | items (text : String) (location : Location) :
      Items.check text = .ok () → Accepted (.items text location)

theorem SinkEntry.Accepted.ofText {e : SinkEntry} (h : e.Accepted) :
    Items.ofText e.text = .ok e.ownItems := by
  have hown : ∀ {its}, Items.ofText e.text = .ok its → Items.ofText e.text = .ok e.ownItems := by
    intro its hits
    rw [SinkEntry.ownItems, hits]
  cases h with
  | function symbol snippet entry edition item hitem => exact hown hitem
  | items text location hcheck =>
    obtain ⟨its, hits, -⟩ := except_map_eq_ok hcheck
    exact hown hits

theorem holdsItems_crate {name : String} (h : isIdentifier name = true) :
    HoldsItems ("extern crate " ++ name ++ ";\n").toList [crateTokens name] := by
  have hsealed : Sealed ([.word "extern", .word "crate", .word name] ++ [.mark ';']) :=
    Token.sealed_concat rfl
  exact ⟨crateTokens name, readsAnywhere_crate (Bool.and_eq_true_iff.mp h).1,
    Grammar.isSequence_crate h, hsealed, rfl⟩

theorem Sink.render_eq : s.render.toList = "// ".toList ++
    ("@generated by splicer from " ++ s.unit ++ ". Do not edit.").toList ++ ['\n'] ++
    (allowLine ++ ['\n'] ++
      ((String.join (s.crates.map fun name => "extern crate " ++ name ++ ";\n")).toList ++
        (String.join (s.entries.map (·.render s.unit))).toList)) := by
  have hheader : s.header = "// @generated by splicer from " ++ s.unit ++ ". Do not edit.\n" ++
      "#![allow(unused, non_snake_case, clippy::all)]\n" ++
      String.join (s.crates.map fun name => "extern crate " ++ name ++ ";\n") := rfl
  have hcomment : "// @generated by splicer from ".toList =
      "// ".toList ++ "@generated by splicer from ".toList := by decide
  have hend : ". Do not edit.\n".toList = ". Do not edit.".toList ++ ['\n'] := by decide
  have hallow : "#![allow(unused, non_snake_case, clippy::all)]\n".toList = allowLine ++ ['\n'] := by
    decide
  simp only [render, hheader, String.toList_append, List.append_assoc, hcomment, hend, hallow]

/-- **Accepted parts make an accepted file.** -/
theorem Sink.ofText_render (hunit : '\n' ∉ s.unit.toList)
    (hcrates : ∀ name ∈ s.crates, isIdentifier name = true)
    (haccepted : ∀ e ∈ s.entries, e.Accepted)
    (hstart : ∀ text location, .items text location ∈ s.entries → Items.opensFile text = false) :
    ∃ its, Items.ofText s.render = .ok its ∧ its.map unplacedAll =
      (s.crates.map crateTokens ++ s.entries.flatMap SinkEntry.ownItems).map unplacedAll := by
  have hopens : ∀ e ∈ s.entries, Items.opensFile e.text = false := by
    intro e he
    cases haccepted e he with
    | function symbol snippet entry edition =>
      exact ForeignFunction.opensFile_ofSnippet symbol snippet entry edition
    | items text location => exact hstart text location he
  have hentries : ∀ e ∈ s.entries, HoldsItems (e.render s.unit).toList e.ownItems := fun e he =>
    SinkEntry.holdsItems_render hunit (haccepted e he).ofText (hopens e he)
  -- Crates and entries hold whole items, and so do they one after the other.
  obtain ⟨ts, hread, hsequence, hsealed, hinner⟩ :=
    (HoldsItems.join fun name hname => holdsItems_crate (hcrates name hname)).append
      (HoldsItems.join hentries)
  obtain ⟨allow, hallow, hattribute⟩ := readsAnywhere_allow
  have hnote : '\n' ∉ ("@generated by splicer from " ++ s.unit ++ ". Do not edit.").toList := by
    simp [hunit]
  have hfile := (Token.ReadsAnywhere.comment hnote).append (hallow.append hread)
  rw [← render_eq] at hfile
  have hreadable : Items.readable s.render = s.render.toList := by
    rw [Items.readable, render_eq]
    rfl
  obtain ⟨us, hus, hsame⟩ := hfile.read (Items.no_orderMark hreadable)
  -- The attribute of the header is read first; the levels suffice for what is behind it.
  have hsize : Token.sizeAll ts ≤ Token.sizeAll (allow ++ ts) := by
    rw [Token.sizeAll_append]
    exact Nat.le_add_left _ _
  obtain ⟨w, hhead⟩ := Grammar.innerAttributes_of_isFileAttribute hattribute hinner
    (6 * (Token.sizeAll (allow ++ ts) + 1)) ⟨.start⟩
  obtain ⟨its, hrun, hits⟩ := Grammar.run_items_congr hsame
    (Grammar.run_items_behind hsequence hsealed hsize hhead)
  refine ⟨its, ?_, ?_⟩
  · rw [Items.ofText, hreadable, hus]
    exact hrun
  · have hone : s.crates.flatMap (fun name => [crateTokens name]) = s.crates.map crateTokens :=
      List.map_eq_flatMap.symm
    rw [hits, hone]

/-- A crate, items with blanks around them and a boundary function. -/
theorem Sink.ofText_render_libc : ∃ snippet, Snippet.read "i32 { 1 }" ⟨2, 6, 2, 6⟩ = .ok snippet ∧
    let items : SinkEntry := .items " struct A; " ⟨1, 11, 1, 11⟩
    let f : SinkEntry := .function (.ofSnippet "s_0" snippet ⟨.safe, .pure⟩ .e2021)
    let s : Sink := ⟨"Main.hs", ["libc"], [items, f]⟩
    '\n' ∉ s.unit.toList ∧ (∀ name ∈ s.crates, isIdentifier name = true) ∧
      (∀ e ∈ s.entries, e.Accepted) ∧
      (∀ text location, .items text location ∈ s.entries → Items.opensFile text = false) ∧
      ∃ its, Items.ofText s.render = .ok its ∧ its.length = 3 := by
  have hread : (Snippet.read "i32 { 1 }" ⟨2, 6, 2, 6⟩).toOption.any (fun snippet =>
      (Items.ofText (ForeignFunction.ofSnippet "s_0" snippet ⟨.safe, .pure⟩ .e2021).source).toOption.any
        (·.length = 1)) = true := by decide +kernel
  obtain ⟨snippet, hsnippet, hsource⟩ := (Option.any_eq_true _ _).mp hread
  obtain ⟨its, hits, hlength⟩ := (Option.any_eq_true _ _).mp hsource
  obtain ⟨item, rfl⟩ := List.length_eq_one_iff.mp (of_decide_eq_true hlength)
  refine ⟨snippet, eq_ok_of_toOption hsnippet, ?_⟩
  intro items f s
  have hunit : '\n' ∉ "Main.hs".toList := by decide
  have hcrates : ∀ name ∈ ["libc"], isIdentifier name = true := by decide +kernel
  have hitems : Items.check " struct A; " = .ok () := eq_ok_of_toOption (by decide +kernel)
  have hf : f.Accepted := .function _ _ _ _ item (eq_ok_of_toOption hits)
  have haccepted : ∀ e ∈ s.entries, e.Accepted := by
    simp only [s, List.forall_mem_cons]
    exact ⟨.items _ _ hitems, hf, nofun⟩
  have hstart : ∀ text location, .items text location ∈ s.entries →
      Items.opensFile text = false := by
    intro text location hmem
    rcases List.mem_cons.mp hmem with heq | hmem
    · rw [(SinkEntry.items.inj heq).1]
      decide +kernel
    · cases (List.mem_singleton.mp hmem : _ = SinkEntry.function _)
  obtain ⟨all, hall, hsame⟩ := ofText_render hunit hcrates haccepted hstart
  have hstruct : items.ownItems.length = 1 := by decide +kernel
  have hfunction : f.ownItems = [item] :=
    Except.ok.inj (hf.ofText.symm.trans (eq_ok_of_toOption hits))
  refine ⟨hunit, hcrates, haccepted, hstart, all, hall, ?_⟩
  have hthree := congrArg List.length hsame
  simpa [s, hstruct, hfunction] using hthree

/-- A text that is accepted alone, since it is read as a whole file, and refused in the file. -/
theorem Sink.ofText_render_refused :
    let s : Sink := ⟨"Main.hs", [], [.items " struct A; " ⟨1, 11, 1, 11⟩,
      .items "\n#![allow(dead_code)]\nstruct B; " ⟨2, 11, 2, 11⟩]⟩
    '\n' ∉ s.unit.toList ∧ (∀ name ∈ s.crates, isIdentifier name = true) ∧
      (∀ e ∈ s.entries, e.Accepted) ∧ ¬ ∃ its, Items.ofText s.render = .ok its := by
  intro s
  have hfirst : Items.check " struct A; " = .ok () := eq_ok_of_toOption (by decide +kernel)
  have hsecond : Items.check "\n#![allow(dead_code)]\nstruct B; " = .ok () :=
    eq_ok_of_toOption (by decide +kernel)
  have hnone : (Items.ofText s.render).toOption.isNone = true := by decide +kernel
  refine ⟨by decide, nofun, ?_, ?_⟩
  · simp only [s, List.forall_mem_cons]
    exact ⟨.items _ _ hfirst, .items _ _ hsecond, nofun⟩
  · rintro ⟨its, hits⟩
    rw [hits] at hnone
    cases hnone

end Graft

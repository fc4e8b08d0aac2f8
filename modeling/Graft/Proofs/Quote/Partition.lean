import Graft.Proofs.Quote.Piece

/-!
# A scan reads a file piece by piece

A scan stands at the start of one piece of a file after the other, from the first to the last or to
a quote that nothing ends. The quotes that it finds are the pieces that are quotes.
-/

namespace Graft

namespace Scan

/-! ## Places that a scan reaches -/

/-- A place in a file: what stands before it and behind it, and how many block comments are open. -/
structure Place where
  depth : Nat
  seen : List Char
  rest : List Char

namespace Place

/-- The start of a file. -/
def start (source : List Char) : Place := ⟨0, [], source⟩

/-- The place behind a piece. -/
def behind (p : Place) (piece : Piece) (depth : Nat) (rest : List Char) : Place :=
  ⟨depth, p.seen ++ piece.text, rest⟩

/-- A scan from a place on. -/
def run (marks : CommentSyntax) (isQuoter : String → Bool) (p : Place) :
    Except Unterminated (List Found) :=
  Scan.run marks isQuoter p.depth p.seen.getLast? (byteLength p.seen) p.rest

end Place

/-- One piece leads from a place to another. -/
inductive Step (marks : CommentSyntax) (isQuoter : String → Bool) :
    Place → Piece → Place → Prop where
  | read {depth depth' : Nat} {seen rest : List Char} {piece : Piece}
      (hreads : Reads marks isQuoter depth seen.getLast? (piece.text ++ rest) piece depth') :
      Step marks isQuoter ⟨depth, seen, piece.text ++ rest⟩ piece ⟨depth', seen ++ piece.text, rest⟩

/-- Pieces lead from a place to another. -/
inductive Steps (marks : CommentSyntax) (isQuoter : String → Bool) :
    Place → List Piece → Place → Prop where
  | refl (p : Place) : Steps marks isQuoter p [] p
  | step {p q r : Place} {piece : Piece} {pieces : List Piece} :
      Step marks isQuoter p piece q → Steps marks isQuoter q pieces r →
      Steps marks isQuoter p (piece :: pieces) r

variable {marks : CommentSyntax} {isQuoter : String → Bool} {p q : Place} {piece : Piece}
  {pieces : List Piece} {quoter : List Char}

theorem Step.reads (h : Step marks isQuoter p piece q) :
    Reads marks isQuoter p.depth p.seen.getLast? p.rest piece q.depth ∧
      p.rest = piece.text ++ q.rest ∧ q.seen = p.seen ++ piece.text := by
  obtain ⟨hreads⟩ := h
  exact ⟨hreads, rfl, rfl⟩

theorem Piece.length_text_quote (quoter body : List Char) :
    (Piece.quote quoter body).text.length = quoter.length + body.length + 4 := by
  simp only [Piece.text, List.cons_append, List.length_cons, List.length_append, List.length_nil]
  omega

theorem Piece.getLast?_append_quote (seen quoter body : List Char) :
    (seen ++ (Piece.quote quoter body).text).getLast? = some ']' := by
  have htext : (Piece.quote quoter body).text =
      ('[' :: quoter ++ '|' :: body ++ ['|']) ++ [']'] := by simp [Piece.text]
  rw [htext, ← List.append_assoc, List.getLast?_concat]

/-- Behind a quote a scan is where the span of the quote ends. -/
theorem Piece.byteLength_append_quote (seen quoter body : List Char) :
    byteLength (seen ++ (Piece.quote quoter body).text) =
      (Found.mk quoter body (byteLength seen)).span.last := by
  rw [Found.span_last, byteLength_append]
  rfl

/-- One turn of a scan reads one piece, and the scan goes on behind it. -/
theorem Step.run_eq (hmarks : marks.WellFormed) (h : Step marks isQuoter p piece q) :
    p.run marks isQuoter =
      (q.run marks isQuoter).map (piece.found (byteLength p.seen) ++ ·) := by
  obtain ⟨hreads⟩ := h
  rename_i depth depth' seen rest
  have hcs : piece.text ++ rest ≠ [] := by simp [hreads.text_ne_nil hmarks]
  show Scan.run _ _ _ _ _ _ = (Scan.run _ _ _ _ _ _).map _
  rw [Scan.run.eq_def marks isQuoter depth, dif_neg hcs, hreads.lexeme_eq]
  -- A scan has one branch for quotes and one for everything else.
  rcases piece.quote_or_plain with ⟨quoter, body, rfl⟩ | ⟨hplain, hfound⟩
  · obtain rfl := hreads.depth_of_quote
    rw [Piece.getLast?_append_quote, Piece.byteLength_append_quote]
    simp only [Piece.lexeme]
    rw [← Piece.length_text_quote, List.drop_left]
    cases Scan.run marks isQuoter 0 (some ']')
      (Found.mk quoter body (byteLength seen)).span.last rest <;> rfl
  · have htaken : max piece.text.length 1 = piece.text.length := by
      have hpos := List.length_pos_iff.mpr (hreads.text_ne_nil hmarks)
      omega
    rw [hplain, hfound]
    simp only
    rw [htaken, List.take_left, List.drop_left, List.getLast?_append, byteLength_append,
      Option.orElse_eq_orElse, Option.orElse_eq_or]
    cases Scan.run marks isQuoter depth' (piece.text.getLast?.or seen.getLast?)
      (byteLength seen + byteLength piece.text) rest <;> rfl

theorem Steps.run_eq (hmarks : marks.WellFormed) (h : Steps marks isQuoter p pieces q) :
    p.run marks isQuoter =
      (q.run marks isQuoter).map (quotesFrom (byteLength p.seen) pieces ++ ·) := by
  induction h with
  | refl p => cases p.run marks isQuoter <;> rfl
  | @step p q r piece pieces hstep _ ih =>
    have hseen : byteLength q.seen = byteLength p.seen + byteLength piece.text := by
      cases hstep
      rw [byteLength_append]
    rw [hstep.run_eq hmarks, ih, hseen]
    cases r.run marks isQuoter with
    | error e => rfl
    | ok more => simp [quotesFrom, Except.map]

/-- Pieces take their texts from the front of what is left. -/
theorem Steps.text_eq (h : Steps marks isQuoter p pieces q) :
    q.seen = p.seen ++ (pieces.map Piece.text).flatten ∧
      p.rest = (pieces.map Piece.text).flatten ++ q.rest := by
  induction h with
  | refl p => simp
  | step hstep _ ih =>
    cases hstep
    obtain ⟨hseen, hrest⟩ := ih
    simp_all

namespace Place

/-- A quote opens at a place of code and nothing ends it. -/
def Unending (marks : CommentSyntax) (isQuoter : String → Bool) (p : Place) (quoter : List Char) :
    Prop :=
  Scan.Unending marks isQuoter p.depth p.rest quoter

/-- A scan has nothing to read, or cannot go on. -/
def Final (marks : CommentSyntax) (isQuoter : String → Bool) (p : Place) : Prop :=
  p.rest = [] ∨ ∃ quoter, p.Unending marks isQuoter quoter

theorem run_of_rest_eq_nil (h : p.rest = []) : p.run marks isQuoter = .ok [] := by
  rw [run, h, Scan.run, dif_pos rfl]

theorem run_of_unending (h : p.Unending marks isQuoter quoter) :
    p.run marks isQuoter = .error ⟨quoter, byteLength p.seen⟩ := by
  have hne : p.rest ≠ [] := by
    obtain ⟨-, -, after, hopens, -⟩ := h
    rw [hopens.1]
    exact List.cons_ne_nil _ _
  rw [run, Scan.run.eq_def, dif_neg hne, Scan.Unending.lexeme_eq h]

theorem exists_step (p : Place) :
    p.Final marks isQuoter ∨ ∃ piece q, Step marks isQuoter p piece q := by
  by_cases hne : p.rest = []
  · exact .inl (.inl hne)
  rcases exists_reads marks isQuoter p.depth p.seen.getLast? hne with h | ⟨piece, depth, h⟩
  · exact .inl (.inr h)
  · obtain ⟨depth, seen, rest⟩ := p
    obtain ⟨rest, rfl⟩ := h.text_isHead
    exact .inr ⟨_, _, .read h⟩

theorem exists_steps (hmarks : marks.WellFormed) (isQuoter : String → Bool) (p : Place) :
    ∃ pieces q, Steps marks isQuoter p pieces q ∧ q.Final marks isQuoter := by
  -- Each piece makes what is left of the file shorter.
  induction hlength : p.rest.length using Nat.strong_induction_on generalizing p with
  | _ n ih =>
    rcases p.exists_step with hfinal | ⟨piece, q, hstep⟩
    · exact ⟨[], p, .refl p, hfinal⟩
    · have hless : q.rest.length < n := by
        obtain ⟨hreads⟩ := hstep
        have hpos := List.length_pos_iff.mpr (hreads.text_ne_nil hmarks)
        simp only [List.length_append] at hlength ⊢
        omega
      obtain ⟨pieces, r, hsteps, hfinal⟩ := ih _ hless q rfl
      exact ⟨piece :: pieces, r, .step hstep hsteps, hfinal⟩

end Place

/-! ## One cut only -/

theorem Step.unique {piece' : Piece} {q' : Place} (h : Step marks isQuoter p piece q)
    (h' : Step marks isQuoter p piece' q') : piece = piece' ∧ q = q' := by
  obtain ⟨hreads, hrest, hseen⟩ := h.reads
  obtain ⟨hreads', hrest', hseen'⟩ := h'.reads
  obtain ⟨rfl, hdepth⟩ := hreads.unique rfl hreads'
  have hsame : q.rest = q'.rest := List.append_cancel_left (hrest.symm.trans hrest')
  refine ⟨rfl, ?_⟩
  cases q
  cases q'
  simp_all

theorem Place.Final.not_step (hmarks : marks.WellFormed) (hfinal : p.Final marks isQuoter) :
    ¬ Step marks isQuoter p piece q := by
  rintro ⟨hreads⟩
  rcases hfinal with hrest | ⟨quoter, hunending⟩
  · exact hreads.text_ne_nil hmarks (List.append_eq_nil_iff.mp hrest).1
  · exact Scan.Unending.not_reads hunending hreads

theorem Steps.unique {pieces' : List Piece} {q' : Place} (hmarks : marks.WellFormed)
    (h : Steps marks isQuoter p pieces q) (hq : q.Final marks isQuoter)
    (h' : Steps marks isQuoter p pieces' q') (hq' : q'.Final marks isQuoter) :
    pieces' = pieces ∧ q' = q := by
  induction h generalizing pieces' with
  | refl p =>
    cases h' with
    | refl => exact ⟨rfl, rfl⟩
    | step hstep _ => exact absurd hstep (hq.not_step hmarks)
  | step hstep _ ih =>
    cases h' with
    | refl => exact absurd hstep (hq'.not_step hmarks)
    | step hstep' hsteps' =>
      obtain ⟨rfl, rfl⟩ := hstep.unique hstep'
      obtain ⟨rfl, rfl⟩ := ih hq hsteps'
      exact ⟨rfl, rfl⟩

/-! ## Quotes among the pieces -/

theorem Steps.mem_quotesFrom (h : Steps marks isQuoter p pieces q) (offset : Nat) :
    ∀ f ∈ quotesFrom offset pieces,
      IsQuoterName f.quoter ∧ isQuoter (.ofList f.quoter) ∧ NoEnd f.body := by
  induction h generalizing offset with
  | refl p => simp [quotesFrom]
  | @step p q r piece pieces hstep _ ih =>
    intro f hf
    rcases List.mem_append.mp hf with hf | hf
    · cases piece with
      | quote quoter body =>
        obtain ⟨rest, hopens, hbody⟩ := hstep.reads.1.of_quote
        obtain rfl := List.mem_singleton.mp hf
        exact ⟨hopens.2.1, hopens.2.2, hbody⟩
      | _ => cases hf
    · exact ih _ f hf

/-- A known quoter behind a bracket of code is that of a quote, once the scan gets to its end. -/
theorem Place.mem_run {seen cs after : List Char} {found : List Found} (hmarks : marks.WellFormed)
    (hcomment : ¬ CommentStarts marks cs) (hopens : QuoteOpens isQuoter quoter after cs)
    (h : (Place.mk 0 seen cs).run marks isQuoter = .ok found) :
    ∃ body, ⟨quoter, body, byteLength seen⟩ ∈ found := by
  cases hend : beforeEnd? after with
  | none =>
    -- Without an end the scan would fail here.
    have hunending : (Place.mk 0 seen cs).Unending marks isQuoter quoter :=
      ⟨rfl, hcomment, after, hopens, beforeEnd?_eq_none_iff.mp hend⟩
    rw [run_of_unending hunending] at h
    cases h
  | some body =>
    obtain ⟨hbody, rest, rfl⟩ := beforeEnd?_eq_some_iff.mp hend
    obtain rfl : cs = (Piece.quote quoter body).text ++ rest := by
      rw [hopens.1]
      simp [Piece.text]
    have hstep : Step marks isQuoter ⟨0, seen, _⟩ (.quote quoter body) ⟨0, _, rest⟩ :=
      .read (.quote hcomment hopens hbody)
    rw [hstep.run_eq hmarks] at h
    cases hmore : (Place.mk 0 (seen ++ (Piece.quote quoter body).text) rest).run marks isQuoter with
    | error e =>
      rw [hmore] at h
      cases h
    | ok more =>
      rw [hmore] at h
      rw [← Except.ok.inj h]
      exact ⟨body, List.mem_cons_self⟩

end Scan

namespace Quote

open Scan

/-- The quotes of a file, with what may be said of each of them and of all. -/
structure QuotesOf (marks : CommentSyntax) (isQuoter : String → Bool) (source : List Char)
    (quotes : List Quote) : Prop where
  /-- No quote reaches into a later one. -/
  apart : quotes.Pairwise fun q q' => q.span.last ≤ q'.span.first
  /-- The file has each quote where its span says. -/
  stands : ∀ q ∈ quotes, q.span.first < q.span.last ∧ q.span.last ≤ byteLength source ∧
    slice? source q.span.first q.span.last = some q.text
  named : ∀ q ∈ quotes, IsQuoterName q.quoter.toList ∧ isQuoter q.quoter
  noEnd : ∀ q ∈ quotes, NoEnd q.body.toList
  /-- Wherever code that is read has a known quoter behind a bracket, there is a quote. -/
  complete : ∀ pieces p quoter after, Steps marks isQuoter (.start source) pieces p →
    p.depth = 0 → ¬ CommentStarts marks p.rest → QuoteOpens isQuoter quoter after p.rest →
    ∃ q ∈ quotes, q.span.first = byteLength p.seen ∧ q.quoter = .ofList quoter

variable {marks : CommentSyntax} {isQuoter : String → Bool} {source : String} {pieces : List Piece}
  {last : Place} {quotes : List Quote}

theorem scan_of_rest_eq_nil (hmarks : marks.WellFormed)
    (hsteps : Steps marks isQuoter (.start source.toList) pieces last) (hrest : last.rest = []) :
    scan source marks isQuoter = .ok ((quotesFrom 0 pieces).map (ofFound source.toList)) := by
  have hrun : Scan.run marks isQuoter 0 none 0 source.toList = _ := hsteps.run_eq hmarks
  rw [last.run_of_rest_eq_nil hrest] at hrun
  unfold scan
  simp only
  rw [hrun]
  simp [Except.map, Place.start]

theorem scan_of_unending {quoter : List Char} (hmarks : marks.WellFormed)
    (hsteps : Steps marks isQuoter (.start source.toList) pieces last)
    (hunending : last.Unending marks isQuoter quoter) :
    scan source marks isQuoter = .error (.ofFault (.unterminatedQuote (.ofList quoter))
      (locationAt source.toList
        ⟨byteLength last.seen, byteLength last.seen + byteLength quoter + 2⟩)) := by
  have hrun : Scan.run marks isQuoter 0 none 0 source.toList = _ := hsteps.run_eq hmarks
  rw [last.run_of_unending hunending] at hrun
  unfold scan
  simp only
  rw [hrun]
  rfl

theorem run_of_scan (h : scan source marks isQuoter = .ok quotes) :
    ∃ found, (Place.start source.toList).run marks isQuoter = .ok found ∧
      quotes = found.map (ofFound source.toList) := by
  unfold scan at h
  simp only at h
  split at h
  next found hfound => exact ⟨found, hfound, (Except.ok.inj h).symm⟩
  · cases h

/-- The quotes of a scan lie apart from one another, each where the file has it, and none is left
out. -/
theorem quotesOf_of_scan (hmarks : marks.WellFormed) (h : scan source marks isQuoter = .ok quotes) :
    QuotesOf marks isQuoter source.toList quotes := by
  obtain ⟨⟨gaps, hcut⟩, -⟩ := scan_cut h
  obtain ⟨pieces, last, hsteps, hfinal⟩ := (Place.start source.toList).exists_steps hmarks isQuoter
  have hrest : last.rest = [] := by
    rcases hfinal with hrest | ⟨quoter, hunending⟩
    · exact hrest
    · rw [scan_of_unending hmarks hsteps hunending] at h
      cases h
  have hquotes : quotes = (quotesFrom 0 pieces).map (ofFound source.toList) := by
    rw [scan_of_rest_eq_nil hmarks hsteps hrest] at h
    exact (Except.ok.inj h).symm
  have hpieces : ∀ q ∈ quotes, IsQuoterName q.quoter.toList ∧ isQuoter q.quoter ∧
      NoEnd q.body.toList := by
    intro q hq
    rw [hquotes] at hq
    obtain ⟨f, hf, rfl⟩ := List.mem_map.mp hq
    simpa [ofFound] using hsteps.mem_quotesFrom 0 f hf
  refine ⟨?_, fun q => stands_of_scan h, fun q hq => ⟨(hpieces q hq).1, (hpieces q hq).2.1⟩,
    fun q hq => (hpieces q hq).2.2, ?_⟩
  · exact List.pairwise_map.mp hcut.apart
  · intro before p quoter after hbefore hdepth hcomment hopens
    obtain ⟨depth, seen, cs⟩ := p
    obtain rfl : depth = 0 := hdepth
    -- What the scan finds from this place on is part of what it finds from the start.
    obtain ⟨found, hrun, rfl⟩ := run_of_scan h
    rw [hbefore.run_eq hmarks] at hrun
    cases hmore : (Place.mk 0 seen cs).run marks isQuoter with
    | error e =>
      rw [hmore] at hrun
      cases hrun
    | ok more =>
      rw [hmore] at hrun
      obtain ⟨body, hbody⟩ := Place.mem_run hmarks hcomment hopens hmore
      rw [← Except.ok.inj hrun]
      exact ⟨_, List.mem_map_of_mem (List.mem_append_right _ hbody), rfl, rfl⟩

/-- **A scan cuts its file into pieces.** It reads them one after the other, none of them empty,
until nothing is left or a quote has no end. Then the pieces that are quotes are the quotes of the
scan, or the quote without an end is what it fails with. There is no other way to cut the file. -/
theorem scan_reads_pieces (hmarks : marks.WellFormed) (isQuoter : String → Bool) (source : String) :
    -- Every turn of the loop reads one piece: whole characters, and at least one.
    (∀ pieces p, Steps marks isQuoter (.start source.toList) pieces p →
      p.Final marks isQuoter ∨ ∃ piece q, Step marks isQuoter p piece q ∧
        lexeme marks isQuoter p.depth p.seen.getLast? p.rest = piece.lexeme q.depth ∧
        p.run marks isQuoter = (q.run marks isQuoter).map (piece.found (byteLength p.seen) ++ ·) ∧
        q.seen ++ q.rest = source.toList ∧ byteLength p.seen < byteLength q.seen) ∧
    ∃ pieces last, Steps marks isQuoter (.start source.toList) pieces last ∧
      last.Final marks isQuoter ∧ (pieces.map Piece.text).flatten ++ last.rest = source.toList ∧
      (∀ pieces' last', Steps marks isQuoter (.start source.toList) pieces' last' →
        last'.Final marks isQuoter → pieces' = pieces ∧ last' = last) ∧
      (∀ quotes, scan source marks isQuoter = .ok quotes ↔
        last.rest = [] ∧ quotes = (quotesFrom 0 pieces).map (ofFound source.toList)) ∧
      (∀ quotes, scan source marks isQuoter = .ok quotes →
        QuotesOf marks isQuoter source.toList quotes) ∧
      ∀ d, scan source marks isQuoter = .error d ↔ ∃ quoter, last.Unending marks isQuoter quoter ∧
        d = .ofFault (.unterminatedQuote (.ofList quoter)) (locationAt source.toList
          ⟨byteLength last.seen, byteLength last.seen + byteLength quoter + 2⟩) := by
  constructor
  · intro pieces p hsteps
    rcases p.exists_step with hfinal | ⟨piece, q, hstep⟩
    · exact .inl hfinal
    obtain ⟨hreads, hrest, hseen⟩ := hstep.reads
    obtain ⟨hread, hleft⟩ := hsteps.text_eq
    refine .inr ⟨piece, q, hstep, hreads.lexeme_eq, hstep.run_eq hmarks, ?_, ?_⟩
    · rw [hseen, List.append_assoc, ← hrest, hread]
      exact hleft.symm
    · have hpos := byteLength_pos (hreads.text_ne_nil hmarks)
      rw [hseen, byteLength_append]
      omega
  obtain ⟨pieces, last, hsteps, hfinal⟩ := (Place.start source.toList).exists_steps hmarks isQuoter
  refine ⟨pieces, last, hsteps, hfinal, hsteps.text_eq.2.symm, ?_, ?_,
    fun quotes => quotesOf_of_scan hmarks, ?_⟩
  · intro pieces' last' hsteps' hfinal'
    exact hsteps.unique hmarks hfinal hsteps' hfinal'
  · intro quotes
    constructor
    · intro h
      rcases hfinal with hrest | ⟨quoter, hunending⟩
      · rw [scan_of_rest_eq_nil hmarks hsteps hrest] at h
        exact ⟨hrest, (Except.ok.inj h).symm⟩
      · rw [scan_of_unending hmarks hsteps hunending] at h
        cases h
    · rintro ⟨hrest, rfl⟩
      exact scan_of_rest_eq_nil hmarks hsteps hrest
  · intro d
    constructor
    · intro h
      rcases hfinal with hrest | ⟨quoter, hunending⟩
      · rw [scan_of_rest_eq_nil hmarks hsteps hrest] at h
        cases h
      · rw [scan_of_unending hmarks hsteps hunending] at h
        exact ⟨quoter, hunending, (Except.error.inj h).symm⟩
    · rintro ⟨quoter, hunending, rfl⟩
      exact scan_of_unending hmarks hsteps hunending

theorem scan_reads_pieces_comment :
    let marks : CommentSyntax := ⟨"--", some ("\x7b-", "-\x7d"), true⟩
    let source := "-- [rust| a |]\n'\"' [rust| b |] \"[rust| c |]\" \x7b-[rust| d |]-\x7d"
    marks.WellFormed ∧ ∃ pieces last, Steps marks (· == "rust") (.start source.toList) pieces last ∧
      last.rest = [] ∧
      ((quotesFrom 0 pieces).map (ofFound source.toList)).map (·.body) = [" b "] := by
  intro marks source
  have hmarks : marks.WellFormed := by
    refine ⟨?_, ?_, by decide⟩
    · rintro opening closing ⟨⟩
      decide
    · rintro opening closing ⟨⟩
      decide
  obtain ⟨-, pieces, last, hsteps, -, -, -, hquotes, -, -⟩ :=
    scan_reads_pieces hmarks (· == "rust") source
  have hbodies : (scan source marks (· == "rust")).map (·.map (·.body)) = .ok [" b "] := by
    decide +kernel
  cases hscan : scan source marks (· == "rust") with
  | error d =>
    rw [hscan] at hbodies
    cases hbodies
  | ok quotes =>
    obtain ⟨hrest, rfl⟩ := (hquotes quotes).mp hscan
    rw [hscan] at hbodies
    exact ⟨hmarks, pieces, last, hsteps, hrest, Except.ok.inj hbodies⟩

end Quote

end Graft

import Graft.Proofs.Token.Step
import Graft.Token.Display

/-!
# Spelling tokens and reading them again

A spelling keeps of its tokens neither where they stand nor whether a mark runs on into the next.
Tokens without both are bare. The spelling of bare tokens is read as them again, unless two of them
grow together.
-/

namespace Graft.Token

/-- Whether a text is read as one identifier. -/
def readsAsWord (text : String) : Bool :=
  match read text.toList with
  | .ok [.ident name _] => name = text
  | _ => false

/-- A text that is read as one identifier, reserved or not. -/
@[ext]
structure Word where
  text : String
  reads : readsAsWord text = true
  deriving DecidableEq

/-- A whole number, with its base and suffix. -/
@[ext]
structure Whole where
  text : String
  number : NumberText text.toList
  isInt : Literal.isInt text = true
  deriving DecidableEq

/-- The marks of types that stand alone. -/
inductive Sign where
  | colon
  | comma
  | semicolon
  | less
  | greater
  | ampersand
  | star
  deriving DecidableEq

def Sign.char : Sign → Char
  | colon => ':'
  | comma => ','
  | semicolon => ';'
  | less => '<'
  | greater => '>'
  | ampersand => '&'
  | star => '*'

/-- A token without the place where it stands. -/
inductive Bare where
  | word (w : Word)
  | whole (n : Whole)
  /-- The text that names the calling convention of C. -/
  | convention
  | sign (s : Sign)
  /-- The operator `::`. -/
  | colons
  /-- The operator `->`. -/
  | arrow
  | lifetime (name : Word)
  | group (d : Delimiter) (inner : List Bare)

/-- The tokens `ts` are the bare tokens `bs` at some places. Of marks only those of one operator
have to run on. -/
inductive Written : List Bare → List Token → Prop where
  | nil : Written [] []
  | word {bs ts} (w : Word) (span : Span) : Written bs ts →
      Written (.word w :: bs) (.ident w.text span :: ts)
  | whole {bs ts} (n : Whole) (span : Span) : Written bs ts →
      Written (.whole n :: bs) (.literal n.text span :: ts)
  | convention {bs ts} (span : Span) : Written bs ts →
      Written (.convention :: bs) (.literal "\"C\"" span :: ts)
  | sign {bs ts} (s : Sign) (spacing : Spacing) (span : Span) : Written bs ts →
      Written (.sign s :: bs) (.punct s.char spacing span :: ts)
  | colons {bs ts} (spacing : Spacing) (span span' : Span) : Written bs ts →
      Written (.colons :: bs) (.punct ':' .joint span :: .punct ':' spacing span' :: ts)
  | arrow {bs ts} (spacing : Spacing) (span span' : Span) : Written bs ts →
      Written (.arrow :: bs) (.punct '-' .joint span :: .punct '>' spacing span' :: ts)
  | lifetime {bs ts} (w : Word) (span span' : Span) : Written bs ts →
      Written (.lifetime w :: bs) (.punct '\'' .joint span :: .ident w.text span' :: ts)
  | group {bs ts inner us} (d : Delimiter) (span : Span) : Written inner us → Written bs ts →
      Written (.group d inner :: bs) (.group d us span :: ts)

namespace Written

variable {bs bs' inner : List Bare} {ts ts' : List Token}

theorem append (h : Written bs ts) (h' : Written bs' ts') : Written (bs ++ bs') (ts ++ ts') := by
  induction h with
  | nil => exact h'
  | group d span hinner _ _ ih => exact .group d span hinner ih
  | _ => constructor; assumption

/-- Where tokens stand is not written. -/
theorem unplaced (h : Written bs ts) : Written bs (unplacedAll ts) := by
  induction h with
  | nil => exact .nil
  | group d span _ _ hinner hbehind => exact .group d _ hinner hbehind
  | _ => constructor; assumption

theorem split_head {b : Bare} (h : Written (b :: bs) ts) :
    ∃ us us', ts = us ++ us' ∧ Written [b] us ∧ Written bs us' := by
  cases h with
  | word w span h => exact ⟨[_], _, rfl, .word w span .nil, h⟩
  | whole n span h => exact ⟨[_], _, rfl, .whole n span .nil, h⟩
  | convention span h => exact ⟨[_], _, rfl, .convention span .nil, h⟩
  | sign s spacing span h => exact ⟨[_], _, rfl, .sign s spacing span .nil, h⟩
  | colons spacing span span' h => exact ⟨[_, _], _, rfl, .colons spacing span span' .nil, h⟩
  | arrow spacing span span' h => exact ⟨[_, _], _, rfl, .arrow spacing span span' .nil, h⟩
  | lifetime w span span' h => exact ⟨[_, _], _, rfl, .lifetime w span span' .nil, h⟩
  | group d span hinner h => exact ⟨[_], _, rfl, .group d span hinner .nil, h⟩

theorem split (h : Written (bs ++ bs') ts) :
    ∃ us us', ts = us ++ us' ∧ Written bs us ∧ Written bs' us' := by
  induction bs generalizing ts with
  | nil => exact ⟨[], ts, rfl, .nil, h⟩
  | cons b bs ih =>
    obtain ⟨us, rest, rfl, hus, hrest⟩ := h.split_head
    obtain ⟨vs, vs', rfl, hvs, hvs'⟩ := ih hrest
    exact ⟨us ++ vs, vs', (List.append_assoc us vs vs').symm, hus.append hvs, hvs'⟩

theorem split_sign {s : Sign} (h : Written (bs ++ .sign s :: bs') ts) :
    ∃ us spacing span us', ts = us ++ .punct s.char spacing span :: us' ∧ Written bs us ∧
      Written bs' us' := by
  obtain ⟨us, rest, rfl, hus, hrest⟩ := h.split
  cases hrest with
  | sign _ spacing span hus' => exact ⟨us, spacing, span, _, rfl, hus, hus'⟩

theorem compactAll_eq (h : Written bs ts) (h' : Written bs ts') (afterWord : Bool) :
    compactAll afterWord ts = compactAll afterWord ts' := by
  induction h generalizing ts' afterWord with
  | nil =>
    cases h'
    rfl
  | word w span _ ih =>
    cases h' with
    | word _ _ h' => simp only [compactAll, compact, isWord, ih h']
  | whole n span _ ih =>
    cases h' with
    | whole _ _ h' => simp only [compactAll, compact, isWord, ih h']
  | convention span _ ih =>
    cases h' with
    | convention _ h' => simp only [compactAll, compact, isWord, ih h']
  | sign s spacing span _ ih =>
    cases h' with
    | sign _ _ _ h' => simp only [compactAll, compact, isWord, ih h']
  | colons spacing span span' _ ih =>
    cases h' with
    | colons _ _ _ h' => simp only [compactAll, compact, isWord, ih h']
  | arrow spacing span span' _ ih =>
    cases h' with
    | arrow _ _ _ h' => simp only [compactAll, compact, isWord, ih h']
  | lifetime w span span' _ ih =>
    cases h' with
    | lifetime _ _ _ h' => simp [compactAll, compact, isWord, ih h']
  | group d span hinner _ ihinner ih =>
    cases h' with
    | group _ _ hinner' h' => simp only [compactAll, compact, isWord, ihinner hinner', ih h']

end Written

mutual

/-- A bare token as it stands nowhere. -/
def Bare.tokens : Bare → List Token
  | .word w => [Token.word w.text]
  | .whole n => [.literal n.text .nowhere]
  | .convention => [.literal "\"C\"" .nowhere]
  | .sign s => [mark s.char]
  | .colons => operator "::" .nowhere
  | .arrow => operator "->" .nowhere
  | .lifetime name => [.punct '\'' .joint .nowhere, Token.word name.text]
  | .group d inner => [.group d (tokensOf inner) .nowhere]

def tokensOf : List Bare → List Token
  | [] => []
  | b :: bs => b.tokens ++ tokensOf bs

end

mutual

theorem Bare.written_tokens : (b : Bare) → Written [b] b.tokens
  | .word w => .word w _ .nil
  | .whole n => .whole n _ .nil
  | .convention => .convention _ .nil
  | .sign s => .sign s _ _ .nil
  | .colons => .colons _ _ _ .nil
  | .arrow => .arrow _ _ _ .nil
  | .lifetime name => .lifetime name _ _ .nil
  | .group d inner => .group d _ (written_tokensOf inner) .nil

theorem written_tokensOf : (bs : List Bare) → Written bs (tokensOf bs)
  | [] => .nil
  | b :: bs => b.written_tokens.append (written_tokensOf bs)

end

/-! ## Sizes -/

theorem sizeAll_append (ts us : List Token) : sizeAll (ts ++ us) = sizeAll ts + sizeAll us := by
  induction ts with
  | nil => simp [sizeAll]
  | cons t ts ih => simp only [List.cons_append, sizeAll, ih, Nat.add_assoc]

/-- The number of tokens that are the bare tokens, each group counted with its contents. -/
def weight (bs : List Bare) : Nat := sizeAll (tokensOf bs)

@[simp] theorem weight_nil : weight [] = 0 := rfl

@[simp] theorem weight_cons (b : Bare) (bs : List Bare) :
    weight (b :: bs) = sizeAll b.tokens + weight bs := by
  rw [weight, tokensOf, sizeAll_append, weight]

@[simp] theorem weight_append (bs bs' : List Bare) :
    weight (bs ++ bs') = weight bs + weight bs' := by
  induction bs with
  | nil => simp
  | cons b bs ih => rw [List.cons_append, weight_cons, weight_cons, ih, Nat.add_assoc]

@[simp] theorem weight_word (w : Word) : sizeAll (Bare.word w).tokens = 1 := rfl

@[simp] theorem weight_sign (s : Sign) : sizeAll (Bare.sign s).tokens = 1 := rfl

@[simp] theorem weight_colons : sizeAll Bare.colons.tokens = 2 := rfl

@[simp] theorem weight_arrow : sizeAll Bare.arrow.tokens = 2 := rfl

@[simp] theorem weight_lifetime (w : Word) : sizeAll (Bare.lifetime w).tokens = 2 := rfl

@[simp] theorem weight_group (d : Delimiter) (inner : List Bare) :
    sizeAll (Bare.group d inner).tokens = weight inner + 1 := rfl

theorem Written.sizeAll_eq {bs : List Bare} {ts : List Token} (h : Written bs ts) :
    sizeAll ts = weight bs := by
  induction h with
  | nil => rfl
  | word w span _ ih => exact congrArg (1 + ·) ih
  | whole n span _ ih => exact congrArg (1 + ·) ih
  | convention span _ ih => exact congrArg (1 + ·) ih
  | sign s spacing span _ ih => exact congrArg (1 + ·) ih
  | group d span _ _ ihinner ih =>
    rw [weight_cons, weight_group, sizeAll, ih, size, ihinner]
  | colons spacing span span' _ ih =>
    rw [weight_cons, weight_colons, ← ih]
    exact (Nat.add_assoc 1 1 _).symm
  | arrow spacing span span' _ ih =>
    rw [weight_cons, weight_arrow, ← ih]
    exact (Nat.add_assoc 1 1 _).symm
  | lifetime w span span' _ ih =>
    rw [weight_cons, weight_lifetime, ← ih]
    exact (Nat.add_assoc 1 1 _).symm

/-! ## Texts of bare tokens -/

/-- The text `cs` spells the bare tokens `bs`, with blanks anywhere between. -/
inductive Spells : List Char → List Bare → Prop where
  | nil : Spells [] []
  | blank {cs bs} : Spells cs bs → Spells (' ' :: cs) bs
  | word {cs bs} (w : Word) : Ends cs → Spells cs bs → Spells (w.text.toList ++ cs) (.word w :: bs)
  | whole {cs bs} (n : Whole) : Ends cs → Spells cs bs →
      Spells (n.text.toList ++ cs) (.whole n :: bs)
  | convention {cs bs} : Ends cs → Spells cs bs →
      Spells ('"' :: 'C' :: '"' :: cs) (.convention :: bs)
  | sign {cs bs} (s : Sign) : Spells cs bs → Spells (s.char :: cs) (.sign s :: bs)
  | colons {cs bs} : Spells cs bs → Spells (':' :: ':' :: cs) (.colons :: bs)
  | arrow {cs bs} : Spells cs bs → Spells ('-' :: '>' :: cs) (.arrow :: bs)
  | lifetime {cs bs} (w : Word) : Ends cs → Spells cs bs →
      Spells ('\'' :: (w.text.toList ++ cs)) (.lifetime w :: bs)
  | group {cs bs text inner} (d : Delimiter) : Spells text inner → Spells cs bs →
      Spells (d.opening :: (text ++ d.closing :: cs)) (.group d inner :: bs)

theorem Word.read_eq (w : Word) : ∃ span, read w.text.toList = .ok [.ident w.text span] := by
  have h := w.reads
  unfold readsAsWord at h
  split at h
  next name span hread => exact ⟨span, of_decide_eq_true h ▸ hread⟩
  next => cases h

theorem Word.wordText (w : Word) : WordText w.text.toList :=
  (word_of_read w.read_eq.choose_spec).1

theorem Word.head (w : Word) : ∃ c more, w.text.toList = c :: more ∧ Solid c ∧ c.toNat ≠ 0xFEFF :=
  (word_of_read w.read_eq.choose_spec).2

theorem delimiter_of_solid_word {c : Char} (hc : isIdentStart c = true) :
    Delimiter.opened? c = none ∧ Delimiter.closed? c = none := by
  have hne : ∀ d : Char, isIdentStart d = false → c ≠ d := fun d => isIdentStart_ne hc
  simp [Delimiter.opened?, Delimiter.closed?, hne '(' (by decide), hne '[' (by decide),
    hne '\x7b' (by decide), hne ')' (by decide), hne ']' (by decide), hne '\x7d' (by decide)]

/-! ## Reading bare tokens -/

/-- In front of `rest`, the text `cs` is read as tokens that are the bare tokens `bs`. -/
def ReadsAs (cs : List Char) (bs : List Bare) (rest : List Char) : Prop :=
  ∀ groups done p, ∃ ts p', Written bs ts ∧
    readFrom groups done p (cs ++ rest) = readFrom groups (ts.reverse ++ done) p' rest

variable {bs bs' inner : List Bare} {cs cs' rest : List Char}

theorem ReadsAs.nil (rest : List Char) : ReadsAs [] [] rest :=
  fun _ _ p => ⟨[], p, .nil, rfl⟩

theorem ReadsAs.append (h : ReadsAs cs bs (cs' ++ rest)) (h' : ReadsAs cs' bs' rest) :
    ReadsAs (cs ++ cs') (bs ++ bs') rest := by
  intro groups done p
  obtain ⟨ts, q, hts, hread⟩ := h groups done p
  obtain ⟨ts', q', hts', hread'⟩ := h' groups (ts.reverse ++ done) q
  refine ⟨ts ++ ts', q', hts.append hts', ?_⟩
  rw [List.append_assoc, hread, hread', List.reverse_append, List.append_assoc]

theorem ReadsAs.blank (h : ReadsAs cs bs rest) : ReadsAs (' ' :: cs) bs rest := by
  intro groups done p
  obtain ⟨ts, p', hts, hread⟩ := h groups done (p.next ' ')
  exact ⟨ts, p', hts, by rw [List.cons_append, readFrom_blank, hread]⟩

theorem Word.readFrom_eq (w : Word) (hrest : EndsName rest) (groups : List OpenGroup)
    (done : List Token) (p : Position) :
    readFrom groups done p (w.text.toList ++ rest) =
      readFrom groups (.ident w.text ⟨p, p.advance w.text.toList⟩ :: done)
        (p.advance w.text.toList) rest := by
  have hleaf := w.wordText.leaf?_append hrest p
  rw [String.ofList_toList] at hleaf
  obtain ⟨c, more, heq, hsolid, -⟩ := w.head
  obtain ⟨c', more', heq', hc⟩ := w.wordText.head
  rw [heq] at heq' hleaf ⊢
  obtain ⟨rfl, rfl⟩ := List.cons.inj heq'
  obtain ⟨hopened, hclosed⟩ := delimiter_of_solid_word hc
  exact readFrom_leaf hsolid hopened hclosed hleaf

theorem Word.readsAs (w : Word) (hrest : Ends rest) : ReadsAs w.text.toList [.word w] rest :=
  fun groups done p => ⟨_, _, .word w _ .nil, w.readFrom_eq hrest.name groups done p⟩

theorem Whole.readsAs (n : Whole) (hrest : Ends rest) :
    ReadsAs n.text.toList [.whole n] rest := by
  intro groups done p
  have hleaf := n.number.leaf?_append hrest p
  rw [String.ofList_toList] at hleaf
  obtain ⟨c, more, heq, hc⟩ := n.number.starts
  rw [heq] at hleaf ⊢
  have hdigits : ∀ d ∈ digits, (d ≠ '/' ∧ Comment.isBlankMark d = false) ∧
      Delimiter.opened? d = none ∧ Delimiter.closed? d = none := by decide
  obtain ⟨⟨hslash, hblank⟩, hopened, hclosed⟩ := hdigits c (mem_digits hc)
  exact ⟨_, _, .whole n _ .nil, readFrom_leaf ⟨hslash, hblank⟩ hopened hclosed hleaf⟩

theorem leaf?_convention (hrest : Ends rest) (p : Position) :
    leaf? p ('"' :: 'C' :: '"' :: rest) =
      some (.literal "\"C\"" ⟨p, p.advance ['"', 'C', '"']⟩, 3) := by
  have hsuffix : Literal.suffixLength rest = 0 := by
    have hident : Literal.identLength? ([] ++ rest) = Literal.identLength? [] :=
      Literal.identLength?_append hrest.name
    rw [List.nil_append] at hident
    rw [Literal.suffixLength, hident]
    rfl
  have hquoted : Literal.quotedLength? .text ('C' :: '"' :: rest) = some 2 := by
    rw [Literal.quotedLength?, Literal.quotedLength?]
    · rfl
    all_goals simp
  have hlength : Literal.length? ('"' :: 'C' :: '"' :: rest) = some 3 := by
    simp [Literal.length?, Literal.length?.quoted, Literal.quotedAfter?, hquoted,
      Literal.withSuffix, hsuffix]
  rw [leaf?, hlength]
  rfl

theorem readsAs_convention (hrest : Ends rest) :
    ReadsAs ['"', 'C', '"'] [.convention] rest := by
  intro groups done p
  have hsolid : Solid '"' := ⟨by decide, by decide⟩
  have hleaf : leaf? p (['"', 'C', '"'] ++ rest) = _ := leaf?_convention hrest p
  exact ⟨_, _, .convention _ .nil, readFrom_leaf hsolid rfl rfl hleaf⟩

theorem readFrom_mark {c : Char} (hc : c ∈ [':', ',', ';', '<', '>', '&', '*', '-', '$'])
    (groups : List OpenGroup) (done : List Token) (p : Position) (rest : List Char) :
    readFrom groups done p (c :: rest) =
      readFrom groups (.punct c (if startsMark rest then .joint else .alone) ⟨p, p.next c⟩ :: done)
        (p.next c) rest := by
  have hmarks : ∀ c ∈ [':', ',', ';', '<', '>', '&', '*', '-', '$'], isMark c = true ∧ c ≠ '/' ∧
      c ≠ '\'' ∧ Comment.isBlankMark c = false ∧ Delimiter.opened? c = none ∧
        Delimiter.closed? c = none := by decide
  obtain ⟨hmark, hslash, hquote, hblank, hopened, hclosed⟩ := hmarks c hc
  have hleaf : leaf? p ([c] ++ rest) = _ := leaf?_of_mark hmark hslash hquote p rest
  exact readFrom_leaf ⟨hslash, hblank⟩ hopened hclosed hleaf

theorem Sign.readsAs (s : Sign) (rest : List Char) : ReadsAs [s.char] [.sign s] rest := by
  intro groups done p
  have hs : s.char ∈ [':', ',', ';', '<', '>', '&', '*', '-', '$'] := by cases s <;> decide
  exact ⟨_, _, .sign s _ _ .nil, readFrom_mark hs groups done p rest⟩

theorem readsAs_colons (rest : List Char) : ReadsAs [':', ':'] [.colons] rest := by
  intro groups done p
  have hfirst := readFrom_mark (c := ':') (by decide) groups done p (':' :: rest)
  have hsecond := readFrom_mark (c := ':') (by decide) groups
    (.punct ':' .joint ⟨p, p.next ':'⟩ :: done) (p.next ':') rest
  exact ⟨_, _, .colons _ _ _ .nil, hfirst.trans hsecond⟩

theorem readsAs_arrow (rest : List Char) : ReadsAs ['-', '>'] [.arrow] rest := by
  intro groups done p
  have hfirst := readFrom_mark (c := '-') (by decide) groups done p ('>' :: rest)
  have hsecond := readFrom_mark (c := '>') (by decide) groups
    (.punct '-' .joint ⟨p, p.next '-'⟩ :: done) (p.next '-') rest
  exact ⟨_, _, .arrow _ _ _ .nil, hfirst.trans hsecond⟩

theorem Word.readFrom_lifetime (w : Word) (hrest : EndsName rest) (groups : List OpenGroup)
    (done : List Token) (p : Position) :
    readFrom groups done p ('\'' :: (w.text.toList ++ rest)) =
      readFrom groups (.ident w.text ⟨p.next '\'', (p.next '\'').advance w.text.toList⟩ ::
          .punct '\'' .joint ⟨p, p.next '\''⟩ :: done)
        ((p.next '\'').advance w.text.toList) rest := by
  have hsolid : Solid '\'' := ⟨by decide, by decide⟩
  have hleaf : leaf? p (['\''] ++ (w.text.toList ++ rest)) = _ := w.wordText.leaf?_quote hrest p
  have hquote : readFrom groups done p (['\''] ++ (w.text.toList ++ rest)) = _ :=
    readFrom_leaf hsolid rfl rfl hleaf
  exact hquote.trans (w.readFrom_eq hrest _ _ _)

theorem Word.readsAs_lifetime (w : Word) (hrest : Ends rest) :
    ReadsAs ('\'' :: w.text.toList) [.lifetime w] rest :=
  fun groups done p =>
    ⟨_, _, .lifetime w _ _ .nil, w.readFrom_lifetime hrest.name groups done p⟩

theorem ReadsAs.group (d : Delimiter) (h : ReadsAs cs inner (d.closing :: rest))
    (hcs : (cs ++ [d.closing]).head? ≠ some '/') :
    ReadsAs (d.opening :: (cs ++ [d.closing])) [.group d inner] rest := by
  intro groups done p
  -- The inside is read into an open group, which the closing delimiter then ends.
  obtain ⟨us, q, hus, hread⟩ := h (⟨d, done, p⟩ :: groups) [] (p.next d.opening)
  refine ⟨[.group d us ⟨p, q.next d.closing⟩], q.next d.closing, .group d _ hus .nil, ?_⟩
  have hhead : (cs ++ d.closing :: rest).head? ≠ some '/' := by
    rw [List.append_cons]
    cases hcs' : cs ++ [d.closing] with
    | nil => simp at hcs'
    | cons c more =>
      rw [hcs'] at hcs
      exact hcs
  rw [List.cons_append, List.append_assoc, List.singleton_append, readFrom_opening d hhead, hread,
    readFrom_closing, List.append_nil, List.reverse_reverse]
  rfl

theorem Spells.head (h : Spells cs bs) : ∀ c ∈ cs.head?, c ≠ '/' ∧ c.toNat ≠ 0xFEFF := by
  intro c hc
  cases h with
  | nil => cases hc
  | blank _ =>
    rw [← Option.some.inj hc]
    decide
  | word w _ _ =>
    obtain ⟨d, more, heq, hsolid, hmark⟩ := w.head
    rw [heq] at hc
    rw [← Option.some.inj hc]
    exact ⟨hsolid.slash, hmark⟩
  | whole n _ _ =>
    obtain ⟨d, more, heq, hd⟩ := n.number.starts
    rw [heq] at hc
    rw [← Option.some.inj hc]
    have hdigits : ∀ d ∈ digits, d ≠ '/' ∧ d.toNat ≠ 0xFEFF := by decide
    exact hdigits d (mem_digits hd)
  | sign s _ =>
    rw [← Option.some.inj hc]
    cases s <;> decide
  | group d _ _ =>
    rw [← Option.some.inj hc]
    cases d <;> decide
  | _ =>
    rw [← Option.some.inj hc]
    decide

theorem Spells.readsAs (h : Spells cs bs) (hrest : Ends rest) : ReadsAs cs bs rest := by
  induction h generalizing rest with
  | nil => exact .nil rest
  | blank _ ih => exact (ih hrest).blank
  | word w hends _ ih => exact (w.readsAs (hends.append hrest)).append (ih hrest)
  | whole n hends _ ih => exact (n.readsAs (hends.append hrest)).append (ih hrest)
  | convention hends _ ih => exact (readsAs_convention (hends.append hrest)).append (ih hrest)
  | sign s _ ih => exact (s.readsAs _).append (ih hrest)
  | colons _ ih => exact (readsAs_colons _).append (ih hrest)
  | arrow _ ih => exact (readsAs_arrow _).append (ih hrest)
  | lifetime w hends _ ih => exact (w.readsAs_lifetime (hends.append hrest)).append (ih hrest)
  | @group cs bs text inner d hinner _ ihinner ih =>
    -- A parenthesis with a slash behind it could be the mark of an unreadable literal.
    have hhead : (text ++ [d.closing]).head? ≠ some '/' := by
      intro hslash
      cases text with
      | nil => cases d <;> simp [Delimiter.closing] at hslash
      | cons c more => exact (hinner.head c rfl).1 (Option.some.inj hslash)
    have hclosing : ∀ more, Ends (d.closing :: more) := fun more =>
      .cons (by cases d <;> decide) more
    have hgroup := (ReadsAs.group d (ihinner (hclosing _)) hhead).append (ih hrest)
    rw [List.cons_append, List.append_assoc, List.singleton_append] at hgroup
    exact hgroup

theorem Spells.read (h : Spells cs bs) : ∃ ts, Token.read cs = .ok ts ∧ Written bs ts := by
  obtain ⟨ts, p', hts, hread⟩ := h.readsAs Ends.nil [] [] .start
  rw [List.append_nil, List.append_nil, readFrom_nil, List.reverse_reverse] at hread
  refine ⟨ts, ?_, hts⟩
  cases cs with
  | nil =>
    rw [readFrom_nil] at hread
    exact hread
  | cons c cs =>
    -- A byte order mark would be passed over.
    rw [Token.read, if_neg (h.head c rfl).2]
    exact hread

/-! ## Spellings -/

/-- The spelling of what `cs` compactly spells, with the blank at its end left out if `trim`
holds. -/
def spaced (trim : Bool) (cs : List Char) : List Char :=
  spaceArrows (if trim then dropFinalSpace cs else cs)

theorem dropFinalSpace_append {cs' : List Char} (hcs : cs.getLast? ≠ some ' ') :
    dropFinalSpace (cs ++ cs') = cs ++ dropFinalSpace cs' := by
  cases hlast : cs'.getLast? with
  | none =>
    obtain rfl := List.getLast?_eq_none_iff.mp hlast
    simp [dropFinalSpace, hcs]
  | some c =>
    have hne : cs' ≠ [] := by
      rintro rfl
      cases hlast
    simp only [dropFinalSpace, List.getLast?_append, hlast, Option.some_or,
      List.dropLast_append_of_ne_nil hne]
    split <;> rfl

theorem spaceArrows_append (hcs : '-' ∉ cs) : spaceArrows (cs ++ cs') = cs ++ spaceArrows cs' := by
  induction cs with
  | nil => rfl
  | cons c cs ih =>
    obtain ⟨hc, hcs⟩ := not_or.mp (mt List.mem_cons.mpr hcs)
    rw [List.cons_append, spaceArrows, ih hcs, List.cons_append]
    rintro _ rfl
    exact absurd rfl hc

/-- No arrow reaches over a mark that is no `>`. -/
theorem spaceArrows_append_cons {c : Char} (hc : c ≠ '>') (cs cs' : List Char) :
    spaceArrows (cs ++ c :: cs') = spaceArrows cs ++ spaceArrows (c :: cs') := by
  fun_induction spaceArrows cs with
  | case1 cs ih => simp only [List.cons_append, spaceArrows, ih]
  | case2 d cs hplain ih =>
    rw [List.cons_append, spaceArrows, ih, List.cons_append]
    rintro more rfl harrow
    cases cs with
    | nil => exact hc (List.cons.inj harrow).1
    | cons e cs =>
      obtain ⟨rfl, -⟩ := List.cons.inj harrow
      exact hplain cs rfl rfl
  | case3 => rfl

theorem spaced_append (trim : Bool) (hlast : cs.getLast? ≠ some ' ') (hcs : '-' ∉ cs) :
    spaced trim (cs ++ cs') = cs ++ spaced trim cs' := by
  cases trim with
  | false => exact spaceArrows_append hcs
  | true =>
    show spaceArrows (dropFinalSpace (cs ++ cs')) = _
    rw [dropFinalSpace_append hlast, spaceArrows_append hcs]
    rfl

/-- No arrow reaches over the end of a text that ends in no dash. -/
theorem spaceArrows_append_of_last (h : cs.getLast? ≠ some '-') (cs' : List Char) :
    spaceArrows (cs ++ cs') = spaceArrows cs ++ spaceArrows cs' := by
  fun_induction spaceArrows cs with
  | case1 cs ih =>
    have hcs : cs.getLast? ≠ some '-' := by
      cases cs with
      | nil => nofun
      | cons c cs => simpa only [List.getLast?_cons_cons] using h
    simp only [List.cons_append, spaceArrows, ih hcs]
  | case2 c cs hplain ih =>
    cases cs with
    | nil =>
      have hc : c ≠ '-' := by simpa using h
      simp [spaceArrows, hc]
    | cons d cs =>
      have hcs : (d :: cs).getLast? ≠ some '-' := by simpa only [List.getLast?_cons_cons] using h
      rw [List.cons_append, spaceArrows, ih hcs, List.cons_append]
      rintro more rfl heq
      exact hplain cs rfl (by rw [(List.cons.inj heq).1])
  | case3 => rfl

theorem spaced_append_of_last (trim : Bool) (hblank : cs.getLast? ≠ some ' ')
    (hdash : cs.getLast? ≠ some '-') (cs' : List Char) :
    spaced trim (cs ++ cs') = spaceArrows cs ++ spaced trim cs' := by
  cases trim with
  | false => exact spaceArrows_append_of_last hdash cs'
  | true =>
    show spaceArrows (dropFinalSpace (cs ++ cs')) = _
    rw [dropFinalSpace_append hblank, spaceArrows_append_of_last hdash]
    rfl

/-- A mark that starts no arrow stands in front of the spelling of the rest. -/
theorem spaced_mark (trim : Bool) {c : Char} (hblank : c ≠ ' ')
    (harrow : c = '-' → cs.head? ≠ some '>') : spaced trim (c :: cs) = c :: spaced trim cs := by
  have hspace : ∀ {cs : List Char}, (c = '-' → cs.head? ≠ some '>') →
      spaceArrows (c :: cs) = c :: spaceArrows cs := fun harrow => by
    rw [spaceArrows]
    rintro more hc rfl
    exact harrow hc rfl
  cases trim with
  | false => exact hspace harrow
  | true =>
    have hdrop : dropFinalSpace ([c] ++ cs) = [c] ++ dropFinalSpace cs :=
      dropFinalSpace_append (by simpa using hblank)
    have hhead : (dropFinalSpace cs).head? = some '>' → cs.head? = some '>' := by
      unfold dropFinalSpace
      split
      · rw [List.head?_dropLast]
        split
        · exact id
        · nofun
      · exact id
    show spaceArrows (dropFinalSpace ([c] ++ cs)) = _
    rw [hdrop]
    exact hspace fun hc hgreater => harrow hc (hhead hgreater)

/-- Only a blank at the very end is left out. -/
theorem spaced_blank_eq (trim : Bool) (cs : List Char) :
    spaced trim (' ' :: cs) = spaced trim cs ∨ spaced trim (' ' :: cs) = ' ' :: spaced trim cs := by
  cases trim with
  | false => exact .inr rfl
  | true =>
    cases cs with
    | nil => exact .inl rfl
    | cons c cs =>
      have hdrop : dropFinalSpace (' ' :: c :: cs) = ' ' :: dropFinalSpace (c :: cs) := by
        simp only [dropFinalSpace, List.getLast?_cons_cons, List.dropLast_cons_cons]
        split <;> rfl
      exact .inr (congrArg spaceArrows hdrop)

theorem spaced_blank (trim : Bool) (h : Spells (spaced trim cs) bs) :
    Spells (spaced trim (' ' :: cs)) bs := by
  rcases spaced_blank_eq trim cs with heq | heq <;> rw [heq]
  · exact h
  · exact h.blank

theorem spaced_arrow (trim : Bool) (cs : List Char) :
    spaced trim ('-' :: '>' :: cs) = ' ' :: '-' :: '>' :: ' ' :: spaced trim cs := by
  cases trim with
  | false => rfl
  | true =>
    have hdrop : dropFinalSpace (['-', '>'] ++ cs) = ['-', '>'] ++ dropFinalSpace cs :=
      dropFinalSpace_append (by decide)
    show spaceArrows (dropFinalSpace (['-', '>'] ++ cs)) = _
    rw [hdrop]
    rfl

theorem WordText.mem (h : WordText cs) : '-' ∉ cs ∧ ' ' ∉ cs := by
  have hletters : ∀ {c : Char} {cs : List Char}, isIdentStart c = true →
      (∀ d ∈ cs, isIdentContinue d = true) → '-' ∉ c :: cs ∧ ' ' ∉ c :: cs := by
    intro c cs hc hcs
    have hnot : ∀ d : Char, isIdentStart d = false → isIdentContinue d = false → d ∉ c :: cs := by
      intro d hstart hcontinue hmem
      rcases List.mem_cons.mp hmem with rfl | hmem
      · exact isIdentStart_ne hc hstart rfl
      · exact isIdentContinue_ne (hcs d hmem) hcontinue rfl
    exact ⟨hnot '-' (by decide) (by decide), hnot ' ' (by decide) (by decide)⟩
  cases h with
  | plain hc hcs => exact hletters hc hcs
  | raw hc hcs _ =>
    obtain ⟨hminus, hblank⟩ := hletters hc hcs
    exact ⟨by simpa using hminus, by simpa using hblank⟩

theorem NumberText.mem (h : NumberText cs) : '-' ∉ cs ∧ ' ' ∉ cs := by
  have hminus : isIdentContinue '-' = false := by decide
  have hblank : isIdentContinue ' ' = false := by decide
  exact ⟨fun hmem => isIdentContinue_ne (h.continues _ hmem) hminus rfl,
    fun hmem => isIdentContinue_ne (h.continues _ hmem) hblank rfl⟩

/-- The blank that sets a word off from a word before it. -/
def gap (afterWord : Bool) : List Char := if afterWord then [' '] else []

theorem Spells.gap (h : Spells cs bs) (afterWord : Bool) : Spells (gap afterWord ++ cs) bs := by
  cases afterWord with
  | false => exact h
  | true => exact h.blank

theorem ends_gap (cs : List Char) : Ends (gap true ++ cs) := .cons (by decide) cs

theorem spaced_piece (trim afterWord : Bool) (hne : cs ≠ []) (harrows : spaceArrows cs = cs)
    (hdash : cs.getLast? ≠ some '-') (hblank : cs.getLast? ≠ some ' ') (cs' : List Char) :
    spaced trim (gap afterWord ++ cs ++ cs') = gap afterWord ++ (cs ++ spaced trim cs') := by
  have hlast : (gap afterWord ++ cs).getLast? = cs.getLast? := by
    rw [List.getLast?_append, List.getLast?_eq_some_getLast hne, Option.some_or]
  have hgap : spaceArrows (gap afterWord ++ cs) = gap afterWord ++ spaceArrows cs := by
    cases afterWord <;> rfl
  rw [spaced_append_of_last trim (hlast ▸ hblank) (hlast ▸ hdash), hgap, harrows, List.append_assoc]

theorem spaced_word (trim afterWord : Bool) (hne : cs ≠ []) (hminus : '-' ∉ cs) (hblank : ' ' ∉ cs)
    (cs' : List Char) :
    spaced trim (gap afterWord ++ cs ++ cs') = gap afterWord ++ (cs ++ spaced trim cs') := by
  have harrows : spaceArrows (cs ++ []) = cs ++ [] := spaceArrows_append hminus
  rw [List.append_nil] at harrows
  exact spaced_piece trim afterWord hne harrows
    (fun hlast => hminus (List.mem_of_getLast? hlast))
    (fun hlast => hblank (List.mem_of_getLast? hlast)) cs'

theorem spaced_group (trim afterWord : Bool) (d : Delimiter) (cs cs' : List Char) :
    spaced trim (gap afterWord ++ d.opening :: dropFinalSpace cs ++ [d.closing] ++ cs') =
      gap afterWord ++ d.opening :: (spaced true cs ++ d.closing :: spaced trim cs') := by
  have hlast : (gap afterWord ++ d.opening :: dropFinalSpace cs ++ [d.closing]).getLast? ≠
      some ' ' := by
    rw [List.getLast?_concat]
    cases d <;> decide
  have hopening : '-' ∉ gap afterWord ++ [d.opening] := by
    cases afterWord <;> cases d <;> decide
  have hclosing : d.closing ≠ '>' := by cases d <;> decide
  have hdash : '-' ∉ [d.closing] := by cases d <;> decide
  have htrim : (if trim then dropFinalSpace
        (gap afterWord ++ d.opening :: dropFinalSpace cs ++ [d.closing] ++ cs')
      else gap afterWord ++ d.opening :: dropFinalSpace cs ++ [d.closing] ++ cs') =
      gap afterWord ++ [d.opening] ++ (dropFinalSpace cs ++
        d.closing :: (if trim then dropFinalSpace cs' else cs')) := by
    cases trim with
    | false => simp
    | true =>
      rw [if_pos rfl, dropFinalSpace_append hlast]
      simp
  -- The closing delimiter parts the dashes inside the group from those behind it.
  rw [spaced, htrim, spaceArrows_append hopening, spaceArrows_append_cons hclosing]
  rw [show d.closing :: (if trim then dropFinalSpace cs' else cs') =
    [d.closing] ++ (if trim then dropFinalSpace cs' else cs') from rfl, spaceArrows_append hdash]
  simp [spaced]

/-- The spelling of what `cs` compactly spells, the bare tokens `bs`; behind a word nothing goes on
into it. -/
def Parted (trim afterWord : Bool) (cs : List Char) (bs : List Bare) : Prop :=
  Spells (spaced trim cs) bs ∧ (afterWord = true → Ends (spaced trim cs))

/-- A text without blanks and dashes that starts a token is set off from the word before it, and
what is behind it is set off from it. -/
theorem Parted.word {trim : Bool} {b : Bare} (h : Parted trim true cs' bs) (afterWord : Bool)
    (hne : cs ≠ []) (hminus : '-' ∉ cs) (hblank : ' ' ∉ cs)
    (hspells : ∀ more, Ends more → Spells more bs → Spells (cs ++ more) (b :: bs)) :
    Parted trim afterWord (gap afterWord ++ cs ++ cs') (b :: bs) := by
  obtain ⟨hmore, hends⟩ := h
  rw [Parted, spaced_word trim afterWord hne hminus hblank]
  refine ⟨(hspells _ (hends rfl) hmore).gap afterWord, ?_⟩
  rintro rfl
  exact ends_gap _

namespace Written

variable {ts : List Token}

/-- The spelling of bare tokens spells them, and where a word stands before it nothing goes on. -/
theorem parted (h : Written bs ts) (afterWord trim : Bool) :
    Parted trim afterWord (compactAll afterWord ts) bs := by
  induction h generalizing afterWord trim with
  | nil =>
    cases trim <;> exact ⟨.nil, fun _ => .nil⟩
  | word w span _ ih =>
    obtain ⟨hminus, hblank⟩ := w.wordText.mem
    obtain ⟨c, more, heq, -⟩ := w.head
    have hne : w.text.toList ≠ [] := heq ▸ List.cons_ne_nil c more
    exact (ih true trim).word afterWord hne hminus hblank fun _ => .word w
  | whole n span _ ih =>
    obtain ⟨hminus, hblank⟩ := n.number.mem
    obtain ⟨c, more, heq, -⟩ := n.number.starts
    have hne : n.text.toList ≠ [] := heq ▸ List.cons_ne_nil c more
    exact (ih true trim).word afterWord hne hminus hblank fun _ => .whole n
  | convention span _ ih =>
    exact (ih true trim).word afterWord (List.cons_ne_nil '"' ['C', '"']) (by decide) (by decide)
      fun _ => .convention
  | @sign bs ts s spacing span _ ih =>
    obtain ⟨hspells, -⟩ := ih false trim
    have hmark : ∀ more, spaced trim ([s.char] ++ more) = s.char :: spaced trim more := fun more =>
      spaced_append trim (by cases s <;> decide) (by cases s <;> decide)
    have hcompact : ∃ more, compactAll afterWord (.punct s.char spacing span :: ts) =
        [s.char] ++ more ∧ (more = compactAll false ts ∨ more = ' ' :: compactAll false ts) := by
      cases s <;> simp [compactAll, compact, isWord, Sign.char]
    -- A comma and a semicolon have a blank behind them, which is left out at the end of a group.
    obtain ⟨more, hmore, hblank⟩ := hcompact
    rw [hmore, Parted, hmark]
    refine ⟨.sign s ?_, fun _ => .cons (by cases s <;> decide) _⟩
    rcases hblank with rfl | rfl
    · exact hspells
    · exact spaced_blank trim hspells
  | @colons bs ts spacing span span' _ ih =>
    obtain ⟨hspells, -⟩ := ih false trim
    have hcolons : spaced trim ([':', ':'] ++ compactAll false ts) = _ :=
      spaced_append trim (by decide) (by decide)
    show Parted trim afterWord ([':', ':'] ++ compactAll false ts) _
    rw [Parted, hcolons]
    exact ⟨.colons hspells, fun _ => .cons (by decide) _⟩
  | @arrow bs ts spacing span span' _ ih =>
    -- Of all bare tokens only this one has a dash, and the blanks around it are the spelling's own.
    obtain ⟨hspells, -⟩ := ih false trim
    show Parted trim afterWord ('-' :: '>' :: compactAll false ts) _
    rw [Parted, spaced_arrow]
    exact ⟨.blank (.arrow (.blank hspells)), fun _ => .cons (by decide) _⟩
  | @lifetime bs ts w span span' _ ih =>
    obtain ⟨hminus, hblank⟩ := w.wordText.mem
    have hquote : compactAll afterWord (.punct '\'' .joint span :: .ident w.text span' :: ts) =
        gap afterWord ++ ('\'' :: w.text.toList) ++ compactAll true ts := by
      cases afterWord <;> simp [compactAll, compact, isWord, gap]
    rw [hquote]
    exact (ih true trim).word afterWord (List.cons_ne_nil _ _) (by simpa using hminus)
      (by simpa using hblank) fun _ => .lifetime w
  | @group bs ts inner us d span _ _ ihinner ih =>
    obtain ⟨hinner, -⟩ := ihinner false true
    obtain ⟨hspells, -⟩ := ih false trim
    show Parted trim afterWord (gap (afterWord && d = .brace) ++
      d.opening :: dropFinalSpace (compactAll false us) ++ [d.closing] ++ compactAll false ts) _
    rw [Parted, spaced_group]
    refine ⟨(Spells.group d hinner hspells).gap _, fun _ => ?_⟩
    cases (afterWord && d = .brace) with
    | true => exact ends_gap _
    | false => exact .cons (by cases d <;> decide) _

theorem spelling_eq {ts' : List Token} (h : Written bs ts) (h' : Written bs ts') :
    spelling ts = spelling ts' := by
  rw [spelling, spelling, h.compactAll_eq h']

/-- The spelling of bare tokens is read as them again. -/
theorem read_spelling (h : Written bs ts) :
    ∃ ts', Token.read (spelling ts).toList = .ok ts' ∧ Written bs ts' := by
  have hspells : Spells (spelling ts).toList bs := by
    rw [spelling, String.toList_ofList]
    exact (h.parted false false).1
  exact hspells.read

end Written

end Graft.Token

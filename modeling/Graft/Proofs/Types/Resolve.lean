import Graft.Proofs.Grammar.PlainType
import Graft.Proofs.Types.Lookup
import Graft.Proofs.Types.Unique

/-!
# Resolving plain types

A context knows types by their spellings and reads a spelling anew at every step. For clear plain
types this comes to the same as walking the type.
-/

namespace Graft

open Token (Word Written written_tokensOf)

variable {t u : PlainType} {ts : List Token} {tree : TypeTree} {c : TypeContext}

/-! ## Keys -/

theorem PlainType.key_eq (h : Written t.bare ts) : t.key = ⟨Token.spelling ts⟩ :=
  congrArg ForeignType.mk ((written_tokensOf t.bare).spelling_eq h)

theorem ForeignType.ofTree_eq (h : Written t.bare tree.tokens) : ofTree tree = t.key :=
  (PlainType.key_eq h).symm

/-- A text of the tokens of a clear plain type is read as that type. -/
theorem PlainType.read_eq {text : String} (hclear : t.isClear)
    (hread : Token.read text.toList = .ok ts) (hts : Written t.bare ts) :
    ∃ tree, TypeTree.read text = .ok tree ∧ t.IsTree tree := by
  obtain ⟨tree, htree, hshape⟩ := PlainType.ofTokens_eq hclear hts
  refine ⟨tree, ?_, hshape⟩
  rw [TypeTree.read, hread]
  exact htree

/-- The key of a clear plain type is read as the type again. -/
theorem PlainType.tree?_key (hclear : t.isClear) :
    ∃ tree, t.key.tree? = some tree ∧ t.IsTree tree := by
  obtain ⟨ts, hread, hts⟩ := (written_tokensOf t.bare).read_spelling
  obtain ⟨tree, htree, hshape⟩ := PlainType.ofTokens_eq hclear hts.unplaced
  refine ⟨tree, ?_, hshape⟩
  have hkey : Token.read t.key.spelling.toList = .ok ts := hread
  rw [ForeignType.tree?, hkey]
  simp only [htree]
  rfl

theorem PlainType.IsTree.peel (h : t.IsTree tree) : tree.peel = tree := by
  obtain ⟨tokens, shape⟩ := tree
  cases shape with
  | paren inner =>
    have hshape := h.shape
    cases t <;> simp [PlainType.HasShape, TypeTree.shape] at hshape
  | _ => rfl

/-! ## Rules -/

/-- The key of the result of a function. -/
def PlainType.resultKey : Option PlainType → ForeignType
  | none => .nothing
  | some t => t.key

/-- The rule for the shape of a type, with the keys of what it resolves. -/
def PlainType.ruled : PlainType → Option (TypeRule × List ForeignType)
  | .pointer _ pointee => some (.pointers, [pointee.key])
  | .function _ _ params result =>
    some (.functionPointers,
      params.toList.map (fun p => p.type.key) ++ [PlainType.resultKey result])
  | _ => none

theorem PlainType.IsTree.parts?_eq (h : t.IsTree tree) (rule : TypeRule) (parts : List ForeignType) :
    rule.parts? tree = some parts ↔ t.ruled = some (rule, parts) := by
  obtain ⟨tokens, shape⟩ := tree
  have hshape : t.HasShape shape := h.shape
  cases t with
  | pointer mutable pointee =>
    obtain ⟨tree, rfl, htree⟩ := hshape
    have hkey := ForeignType.ofTree_eq htree
    cases rule <;> simp [TypeRule.parts?, TypeTree.shape, PlainType.ruled, hkey]
  | function binder unchecked params result =>
    obtain ⟨trees, tree?, rfl, htrees, htree?⟩ := hshape
    have hparams : trees.map ForeignType.ofTree = params.toList.map fun p => p.type.key := by
      rw [← List.forall₂_eq_eq_eq, List.forall₂_map_left_iff, List.forall₂_map_right_iff]
      exact htrees.flip.imp fun _ _ htree => ForeignType.ofTree_eq htree
    have hresult : (tree?.map ForeignType.ofTree).getD .nothing = PlainType.resultKey result := by
      cases htree? with
      | none => rfl
      | some htree => exact ForeignType.ofTree_eq htree
    cases rule <;> simp [TypeRule.parts?, TypeTree.shape, PlainType.ruled, hparams, hresult]
  | _ =>
    -- Neither rule is for other shapes.
    rcases hshape with rfl | ⟨qualified, single, rfl⟩ <;>
      cases rule <;> simp [TypeRule.parts?, TypeTree.shape, PlainType.ruled]

/-- What a context rules about a clear plain type depends on its shape alone. -/
theorem PlainType.ruled?_key (hclear : t.isClear) :
    c.ruled? t.key = t.ruled.filter fun r => r.1 ∈ c.rules := by
  obtain ⟨tree, htree, hshape⟩ := PlainType.tree?_key hclear
  refine Option.ext fun ⟨rule, parts⟩ => ?_
  rw [TypeContext.ruled?_eq_some_iff, Option.filter_eq_some_iff, ← hshape.parts?_eq]
  constructor
  · rintro ⟨hrule, tree', htree', hparts⟩
    obtain rfl := Option.some.inj (htree.symm.trans htree')
    rw [hshape.peel] at hparts
    exact ⟨hparts, decide_eq_true hrule⟩
  · rintro ⟨hparts, hrule⟩
    exact ⟨of_decide_eq_true hrule, tree, htree, hshape.peel.symm ▸ hparts⟩

/-! ## Resolving -/

theorem PlainType.key_unit : PlainType.unit.key = .nothing := by
  decide +kernel

theorem Param.mapM_lookup {params : Commas Param}
    (h : ∀ p ∈ params.toList, c.lookup p.type.key = p.type.resolve c) :
    (params.toList.map fun p => p.type.key).mapM c.lookup = Param.resolveCommas c params := by
  induction params with
  | none => rfl
  | last p =>
    obtain ⟨name, t⟩ := p
    rw [Param.resolveCommas, Param.resolve, Commas.toList, List.map_cons, List.map_nil,
      List.mapM_cons, List.mapM_nil, h _ List.mem_cons_self, Param.type]
    cases t.resolve c <;> rfl
  | cons p rest ih =>
    obtain ⟨name, t⟩ := p
    rw [Param.resolveCommas, Param.resolve, Commas.toList, List.map_cons, List.mapM_cons,
      h _ List.mem_cons_self, ih fun p hp => h p (List.mem_cons_of_mem _ hp), Param.type]
    cases t.resolve c with
    | none => rfl
    | some host => cases Param.resolveCommas c rest <;> rfl

theorem PlainType.derived?_key (hclear : t.isClear) :
    c.derived? t.key = t.ruled.bind fun r =>
      if r.1 ∈ c.rules then (r.2.mapM c.lookup).map r.1.build else none := by
  rw [TypeContext.derived?_eq, PlainType.ruled?_key hclear]
  cases t.ruled with
  | none => rfl
  | some r =>
    obtain ⟨rule, parts⟩ := r
    by_cases hrule : rule ∈ c.rules
    · simp only [Option.filter, hrule, decide_true, if_true, Option.bind_eq_bind, Option.bind_some]
      cases parts.mapM c.lookup <;> rfl
    · simp [Option.filter, hrule]

theorem PlainType.lookup_eq (hclear : t.isClear) :
    c.lookup t.key = (c.listed? t.key).or (t.ruled.bind fun r =>
      if r.1 ∈ c.rules then (r.2.mapM c.lookup).map r.1.build else none) := by
  rw [TypeContext.lookup_eq, PlainType.derived?_key hclear, Option.orElse_eq_orElse,
    Option.orElse_eq_or]

/-- A function without a result gives what the unit type is, which no rule is for. -/
theorem PlainType.lookup_nothing (c : TypeContext) :
    c.lookup .nothing = c.listed? PlainType.unit.key := by
  rw [← PlainType.key_unit, PlainType.lookup_eq rfl]
  exact Option.or_none

/-- Looking up the key of a clear plain type resolves the type. -/
theorem PlainType.lookup_key (hclear : t.isClear) : c.lookup t.key = t.resolve c := by
  induction t using PlainType.parts_induction with
  | step t ih =>
    have hpart : ∀ u ∈ t.parts, c.lookup u.key = u.resolve c := fun u hu =>
      ih u hu (PlainType.isClear_parts hclear hu)
    rw [PlainType.lookup_eq hclear]
    cases t with
    | pointer mutable pointee =>
      rw [PlainType.resolve, ← hpart pointee List.mem_cons_self, PlainType.ruled, Option.bind_some,
        List.mapM_cons, List.mapM_nil]
      cases c.lookup pointee.key <;> rfl
    | function binder unchecked params result =>
      have hparams : _ = Param.resolveCommas c params := Param.mapM_lookup fun p hp =>
        hpart p.type (List.mem_append_left _ (List.mem_map_of_mem hp))
      have hresult : c.lookup (PlainType.resultKey result) = PlainType.resolveResult c result := by
        cases result with
        | none => exact PlainType.lookup_nothing c
        | some u =>
          exact hpart u (List.mem_append_right _ (Option.mem_toList.mpr rfl))
      rw [PlainType.resolve, PlainType.ruled, Option.bind_some, List.mapM_append, List.mapM_cons,
        List.mapM_nil, hparams, hresult]
      -- The rule is given one list, whose last element is the result.
      cases Param.resolveCommas c params with
      | none => rfl
      | some hosts =>
        cases PlainType.resolveResult c result with
        | none => rfl
        | some host =>
          have hbuild : TypeRule.functionPointers.build (hosts ++ [host]) =
              .apply "FunPtr" [.arrow hosts (.apply "IO" [host])] := by
            rw [TypeRule.build, List.dropLast_concat, List.getLast?_concat]
            rfl
          show (c.listed? _).or (if TypeRule.functionPointers ∈ c.rules then
            some (TypeRule.functionPointers.build (hosts ++ [host])) else none) = _
          rw [hbuild]
          rfl
    | _ => exact Option.or_none

/-! ## What a key stands for -/

/-- Two plain types have one key only if they are one type. -/
theorem PlainType.key_injective : Function.Injective PlainType.key := by
  intro t u hkey
  -- One spelling is read as one token sequence, which is then that of both types.
  obtain ⟨ts, hread, hts⟩ := (written_tokensOf t.bare).read_spelling
  obtain ⟨us, hread', hus⟩ := (written_tokensOf u.bare).read_spelling
  have hspelling : Token.spelling (Token.tokensOf t.bare) = Token.spelling (Token.tokensOf u.bare) :=
    congrArg ForeignType.spelling hkey
  rw [hspelling, hread'] at hread
  obtain rfl := Except.ok.inj hread
  exact PlainType.eq_of_written hts hus

theorem PlainType.IsTree.unique (h : t.IsTree tree) (h' : u.IsTree tree) : u = t :=
  PlainType.eq_of_written h'.tokens h.tokens

theorem ForeignType.read_eq {text : String} (hclear : t.isClear)
    (hread : Token.read text.toList = .ok ts) (hts : Written t.bare ts) :
    ForeignType.read text = .ok t.key := by
  obtain ⟨tree, htree, hshape⟩ := PlainType.read_eq hclear hread hts
  rw [ForeignType.read, htree]
  exact congrArg Except.ok (ForeignType.ofTree_eq hshape.tokens)

theorem ForeignType.read_key (hclear : t.isClear) :
    ForeignType.read t.key.spelling = .ok t.key := by
  obtain ⟨ts, hread, hts⟩ := (written_tokensOf t.bare).read_spelling
  exact ForeignType.read_eq hclear hread hts

/-- The key of a clear plain type stands for the type: every text of the type gives it, it is read
as the type and as no other, it belongs to no other, and looking it up resolves the type. -/
theorem PlainType.key_stands_for (hclear : t.isClear) :
    (∀ text ts, Token.read text.toList = .ok ts → Written t.bare ts →
      ForeignType.read text = .ok t.key) ∧
    (∃ tree, t.key.tree? = some tree ∧ ∀ u : PlainType, u.IsTree tree ↔ u = t) ∧
    (∀ u : PlainType, u.key = t.key ↔ u = t) ∧ ∀ c : TypeContext, c.lookup t.key = t.resolve c := by
  obtain ⟨tree, htree, hshape⟩ := PlainType.tree?_key hclear
  refine ⟨fun text ts hread hts => ForeignType.read_eq hclear hread hts, ⟨tree, htree, fun u => ?_⟩,
    fun u => PlainType.key_injective.eq_iff, fun c => PlainType.lookup_key hclear⟩
  constructor
  · exact hshape.unique
  · rintro rfl
    exact hshape

namespace PlainType

/-- A function that takes a pointer to a byte and gives nothing. -/
def callback : PlainType :=
  .function none false (.last (.mk none (.pointer true
    (.path false (.plain ⟨⟨"u8", by decide +kernel⟩, by decide⟩) [])))) none

/-- Bytes, nothing, and both rules. -/
def bytes : TypeContext :=
  ⟨[(⟨"()"⟩, ⟨"()"⟩), (⟨"u8"⟩, ⟨"Word8"⟩)], [.pointers, .functionPointers]⟩

theorem key_stands_for_callback : callback.isClear ∧
    ForeignType.read "extern \"C\" fn(*mut u8)" = .ok callback.key ∧
    bytes.lookup callback.key = some ⟨"FunPtr (Ptr Word8 -> IO ())"⟩ := by
  have hclear : callback.isClear := by decide
  obtain ⟨-, -, -, hlookup⟩ := key_stands_for hclear
  refine ⟨hclear, by decide +kernel, ?_⟩
  rw [hlookup]
  decide +kernel

/-- The path `::a::B`. -/
def root : PlainType :=
  .path true (.plain ⟨⟨"a", by decide +kernel⟩, by decide⟩)
    [.plain ⟨⟨"B", by decide +kernel⟩, by decide⟩]

/-- A function with a name before such a path. -/
def unclear : PlainType :=
  .function none false (.last (.mk (some ⟨⟨"x", by decide +kernel⟩, by decide⟩) root)) none

/-- The key of a function with a name before a path that starts with `::` is no type, and the
function is not found though its parts are. -/
theorem key_unreadable :
    ForeignType.read "extern \"C\" fn(x: ::a::B)" = .ok unclear.key ∧ unclear.key.tree? = none ∧
    ∃ c : TypeContext, (unclear.resolve c).isSome ∧ c.lookup unclear.key = none := by
  have hread : unclear.key.tree? = none := Option.isNone_iff_eq_none.mp (by decide +kernel)
  refine ⟨by decide +kernel, hread, ⟨[(⟨"()"⟩, ⟨"()"⟩), (⟨"::a::B"⟩, ⟨"X"⟩)], [.functionPointers]⟩,
    by decide +kernel, ?_⟩
  have hruled : ∀ c : TypeContext, c.ruled? unclear.key = none := by
    intro c
    rw [TypeContext.ruled?, hread]
    rfl
  rw [TypeContext.lookup_eq, TypeContext.derived?_eq, hruled]
  decide +kernel

end PlainType

end Graft

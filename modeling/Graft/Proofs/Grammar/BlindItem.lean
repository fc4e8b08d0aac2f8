import Graft.Proofs.Grammar.BlindExpression
import Graft.Proofs.Grammar.RefineItem

/-!
# Items and statements apart from places and blanks
-/

set_option synthInstance.maxSize 200000

namespace Graft

namespace Grammar

open Graft.Parser
open Spaced (unspaced)
open Token (Respaced IsOperator)

variable {g g' : Grammar} [Blind g g'] {ts ts' : List Token}

/-! ## What is read -/

/-- The place of a receiver is all that a parameter keeps of its tokens. -/
def ParamForm.unspaced : ParamForm → ParamForm
  | .receiver _ => .receiver .start
  | .typed => .typed
  | .open => .open

instance : Spaced ParamForm := ⟨ParamForm.unspaced⟩
instance : Spaced MacroStatement := ⟨id⟩
instance : Spaceless MacroStatement := ⟨fun _ => rfl⟩

instance alike_receiver (place place' : Position) :
    Alike (ParamForm.receiver place) (.receiver place') := ⟨rfl⟩
instance sameTest_open {p p' : ParamForm} [h : Alike p p'] : SameTest (p = .open) (p' = .open) :=
  ⟨by
    have heq := h.eq
    cases p <;> cases p' <;> first | cases heq; done | simp⟩
instance sameTest_notOpen {p p' : ParamForm} [h : Alike p p'] : SameTest (p ≠ .open) (p' ≠ .open) :=
  ⟨not_congr sameTest_open.iff⟩
instance alike_typed : Alike ParamForm.typed .typed := ⟨rfl⟩
instance alike_open : Alike ParamForm.open .open := ⟨rfl⟩

/-! ## Tests on the tokens ahead -/

section Tests

variable [Respaced ts ts']

instance alike_startsItemPath : Alike (startsItemPath ts) (startsItemPath ts') := by
  unfold startsItemPath
  infer_instance

instance alike_startsItem : Alike (startsItem ts) (startsItem ts') := by
  unfold startsItem
  infer_instance

/-- The words that are not next, as a message names them. -/
instance alike_absent (words : List String) :
    Alike ((words.filter (!Look.word · ts)).map fun s => "`" ++ s ++ "`")
      ((words.filter (!Look.word · ts')).map fun s => "`" ++ s ++ "`") := by
  have hword : ∀ s, Look.word s ts = Look.word s ts' := fun s => (Look.alike_word s).eq
  simp only [hword]
  infer_instance

instance alike_anyGroup {t t' : Option Token} [h : Alike t t'] (d : Delimiter) :
    Alike (t.any (Token.isGroup d)) (t'.any (Token.isGroup d)) :=
  ⟨by
    have hgroup : ∀ t, Token.isGroup d (unspaced t) = Token.isGroup d t := fun t => by
      cases t <;> rfl
    obtain ⟨rfl, rfl⟩ | ⟨t, t', rfl, rfl, ht⟩ := h.option
    · rfl
    · exact (hgroup t).symm.trans ((congrArg (Token.isGroup d) ht.eq).trans (hgroup t'))⟩

end Tests

/-! ## Functions and macro calls -/

instance blind_visibilityScope : visibilityScope.Blind visibilityScope := by
  unfold visibilityScope
  infer_instance

instance blind_visibility : visibility.Blind visibility := by
  unfold visibility
  infer_instance

instance blind_optional (s : String) : (optional s).Blind (optional s) := by
  unfold optional
  infer_instance

instance blind_functionMarks (safe : Bool) :
    (functionMarks safe).Blind (functionMarks safe) := by
  unfold functionMarks
  infer_instance

instance blind_startsSignature (safe : Bool) :
    (startsSignature safe).Blind (startsSignature safe) := by
  unfold startsSignature
  infer_instance

instance blind_receiver : g.receiver.Blind g'.receiver := by
  unfold receiver
  infer_instance

instance blind_param : g.param.Blind g'.param := by
  refine .step fun _ => .step fun variadic => .orElse (.seq fun start start' h => ?_)
  obtain ⟨rfl, rfl⟩ | ⟨start, start', rfl, rfl, h⟩ := h.option <;> dsimp only <;> infer_instance

instance blind_checkedParam (first received : Bool) :
    (g.checkedParam first received).Blind (g'.checkedParam first received) := by
  refine .seq fun p p' h => ?_
  have heq := h.eq
  cases p <;> cases p' <;> first | cases heq; done | dsimp only; infer_instance

instance blind_params : g.params.Blind g'.params := by
  refine .step fun empty => .orElse (.seq fun first first' h => ?_)
  have heq := h.eq
  cases first <;> cases first' <;>
    first | cases heq; done | dsimp only; exact .orElse inferInstance

instance blind_signature (safe : Bool) : (g.signature safe).Blind (g'.signature safe) := by
  unfold signature
  infer_instance

instance blind_macroCall : macroCall.Blind macroCall := by
  unfold macroCall
  infer_instance

instance blind_macroMember : macroMember.Blind macroMember := by
  unfold macroMember
  infer_instance

instance blind_macroItem : macroItem.Blind macroItem := by
  unfold macroItem
  infer_instance

instance blind_value? : g.value?.Blind g'.value? := by
  unfold value?
  infer_instance

instance blind_constantRest : g.constantRest.Blind g'.constantRest := by
  unfold constantRest
  infer_instance

instance blind_boundsUntil (stop : List Token → Bool)
    [∀ r : Respacing, Alike (stop r.left) (stop r.right)] :
    (g.boundsUntil stop).Blind (g'.boundsUntil stop) := by
  unfold boundsUntil
  infer_instance

instance blind_typeAlias (conditions : ConditionPlace) :
    (g.typeAlias conditions).Blind (g'.typeAlias conditions) := by
  unfold typeAlias
  infer_instance

/-! ## Members -/

instance blind_traitFunction : g.traitFunction.Blind g'.traitFunction := by
  unfold traitFunction
  infer_instance

instance blind_traitMember : g.traitMember.Blind g'.traitMember := by
  unfold traitMember
  infer_instance

instance blind_implMember : g.implMember.Blind g'.implMember := by
  unfold implMember
  infer_instance

instance blind_foreignStatic : g.foreignStatic.Blind g'.foreignStatic := by
  unfold foreignStatic
  infer_instance

instance blind_foreignMember : g.foreignMember.Blind g'.foreignMember := by
  unfold foreignMember
  infer_instance

instance blind_members {member member' : Parser PUnit} [member.Blind member'] :
    (g.members member).Blind (g'.members member') := by
  unfold members
  infer_instance

/-! ## Items -/

instance blind_namedField : g.namedField.Blind g'.namedField := by
  unfold namedField
  infer_instance

instance blind_positionalField : g.positionalField.Blind g'.positionalField := by
  unfold positionalField
  infer_instance

instance blind_namedFields : g.namedFields.Blind g'.namedFields := by
  unfold namedFields
  infer_instance

instance blind_positionalFields : g.positionalFields.Blind g'.positionalFields := by
  unfold positionalFields
  infer_instance

instance blind_structRest : g.structRest.Blind g'.structRest := by
  unfold structRest
  infer_instance

instance blind_variant : g.variant.Blind g'.variant := by
  unfold variant
  infer_instance

instance blind_useForm (root : Bool) : (g.useForm root).Blind (g'.useForm root) := by
  unfold useForm
  infer_instance

instance blind_useItem : g.useItem.Blind g'.useItem := by
  unfold useItem
  infer_instance

instance blind_crateItem : crateItem.Blind crateItem := by
  unfold crateItem
  infer_instance

instance blind_externItem : g.externItem.Blind g'.externItem := by
  unfold externItem
  infer_instance

instance blind_staticItem : g.staticItem.Blind g'.staticItem := by
  unfold staticItem
  infer_instance

instance blind_moduleItem : g.moduleItem.Blind g'.moduleItem := by
  unfold moduleItem
  infer_instance

instance blind_traitRest : g.traitRest.Blind g'.traitRest := by
  unfold traitRest
  infer_instance

instance blind_traitItem (marked : Bool) :
    (g.traitItem marked).Blind (g'.traitItem marked) := by
  unfold traitItem
  infer_instance

instance blind_implItem : g.implItem.Blind g'.implItem := by
  unfold implItem
  infer_instance

instance blind_macroDefinition : macroDefinition.Blind macroDefinition := by
  unfold macroDefinition
  infer_instance

instance blind_uncheckedItem : g.uncheckedItem.Blind g'.uncheckedItem := by
  unfold uncheckedItem
  infer_instance

instance blind_dataItem : g.dataItem.Blind g'.dataItem := by
  unfold dataItem
  infer_instance

instance blind_itemRest : g.itemRest.Blind g'.itemRest := by
  unfold itemRest
  infer_instance

instance blind_itemForm : g.itemForm.Blind g'.itemForm := by
  unfold itemForm
  infer_instance

instance blind_item? : g.item?.Blind g'.item? := by
  unfold item?
  infer_instance

instance blind_items : g.items.Blind g'.items := by
  unfold items
  infer_instance

/-! ## Statements -/

instance blind_letStatement : g.letStatement.Blind g'.letStatement := by
  unfold letStatement
  infer_instance

instance blind_macroAhead : macroAhead.Blind macroAhead := by
  unfold macroAhead
  infer_instance

instance blind_statement : g.statement.Blind g'.statement := by
  refine .step fun _ => .step fun form => ?_
  cases form <;> infer_instance

instance blind_statementsForm : g.statementsForm.Blind g'.statementsForm := by
  unfold statementsForm
  infer_instance

/-! ## Levels -/

instance blind_above : Blind (above g) (above g') where
  type := blind_typeTree
  bound := blind_boundForm
  expr := blind_exprForm
  operand := blind_operandForm
  operators := blind_operatorsForm
  boundary := blind_boundaryForm
  pattern := blind_patternForm
  statements := blind_statementsForm
  item := blind_itemForm
  useTree := blind_useForm

instance blind_bottom : Blind bottom bottom where
  type _ := blind_default
  bound _ _ := blind_default
  expr _ := blind_default
  operand _ := blind_default
  operators _ _ _ := blind_default
  boundary := blind_default
  pattern := blind_default
  statements := blind_default
  item := blind_default
  useTree _ := blind_default

instance blind_level (n : Nat) : Blind (level n) (level n) := by
  induction n with
  | zero => exact blind_bottom
  | succ n ih => exact blind_above

/-- Tokens of one size are read with the same levels. -/
theorem blind_reading (h : Respaced ts ts') : Blind (reading ts) (reading ts') := by
  rw [reading, reading, ← h.sizeAll_eq]
  infer_instance

end Grammar

/-- **What is read as a type depends neither on where the tokens stand nor on the blanks between
them**, but for those that part or join the marks of an operator. -/
theorem TypeTree.ofTokens_respaced {ts ts' : List Token} (h : Token.Respaced ts ts') {t : TypeTree}
    (ht : ofTokens ts = .ok t) : ∃ t', ofTokens ts' = .ok t' ∧ Alike t t' := by
  have hreading := Grammar.blind_reading h
  unfold ofTokens at ht ⊢
  obtain ⟨u, u', hu, hu', halike⟩ | ⟨e, e', he, -⟩ :=
    Parser.run_respaced ((Grammar.reading ts).type true) ((Grammar.reading ts').type true) h
  · obtain rfl := Except.ok.inj (hu.symm.trans ht)
    exact ⟨u', hu', halike⟩
  · cases he.symm.trans ht

/-- The spelling of a type shows neither places nor blanks. -/
theorem Alike.spelling_eq {t t' : TypeTree} (h : Alike t t') :
    Token.spelling t.tokens = Token.spelling t'.tokens := by
  obtain ⟨ts, _⟩ := t
  obtain ⟨ts', _⟩ := t'
  exact Token.spelling_congr (TypeTree.mk.inj h.eq).1

end Graft

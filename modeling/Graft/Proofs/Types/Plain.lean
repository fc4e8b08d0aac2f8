import Graft.Proofs.Token.Bare
import Graft.Types.Context
import Graft.Grammar.Look

/-!
# Plain types

The types of a foreign interface as trees: what they are written with, under which key a context
knows them, and what a context resolves them to when it walks the tree instead of texts.
-/

namespace Graft

open Token (Word Whole Bare)

/-- Things with commas between them, and possibly one behind the last. -/
inductive Commas (α : Type) where
  | none
  | last (a : α)
  | cons (a : α) (rest : Commas α)

namespace Commas

variable {α : Type}

def toList : Commas α → List α
  | none => []
  | last a => [a]
  | cons a rest => a :: rest.toList

def bare (f : α → List Bare) : Commas α → List Bare
  | none => []
  | last a => f a
  | cons a rest => f a ++ .sign .comma :: rest.bare f

end Commas

/-- A word that names something. -/
@[ext]
structure Name extends Word where
  free : reservedWords.contains text = false

/-- A word that may be a name of a path. -/
@[ext]
structure PathWord extends Word where
  names : (!reservedWords.contains text || ["super", "self", "Self", "crate"].contains text) = true

/-- A word that may stand before the type of a parameter. -/
@[ext]
structure ParamName extends Word where
  names : (!reservedWords.contains text || text = "_") = true

mutual

/-- Paths with type arguments, references, raw pointers, tuples, slices, arrays of a fixed length
and functions of the C convention, with no parentheses that are not needed. -/
inductive PlainType where
  /-- A path; `rooted` says that `::` stands before it. -/
  | path (rooted : Bool) (first : Segment) (more : List Segment)
  | reference (lifetime : Option Word) (mutable : Bool) (target : PlainType)
  | pointer (mutable : Bool) (pointee : PlainType)
  | unit
  | tuple (first : PlainType) (rest : Commas PlainType)
  | slice (element : PlainType)
  | array (element : PlainType) (length : Whole)
  | function (binder : Option (Commas Word)) (unchecked : Bool) (params : Commas Param)
      (result : Option PlainType)

/-- One name of a path with its type arguments. -/
inductive Segment where
  | plain (name : PathWord)
  /-- A name with arguments; `turbofish` says that `::` stands before them. -/
  | generic (name : Name) (turbofish : Bool) (args : Commas PlainType)

/-- A parameter of a function type, possibly with a name. -/
inductive Param where
  | mk (name : Option ParamName) (type : PlainType)

end

def Param.type : Param → PlainType
  | mk _ t => t

namespace Token.Word

def mutable : Word := ⟨"mut", by decide +kernel⟩
def const : Word := ⟨"const", by decide +kernel⟩
def binder : Word := ⟨"for", by decide +kernel⟩
def unchecked : Word := ⟨"unsafe", by decide +kernel⟩
def foreign : Word := ⟨"extern", by decide +kernel⟩
def fn : Word := ⟨"fn", by decide +kernel⟩

end Token.Word

/-- A binder of lifetimes, if there is one. -/
def binderBare : Option (Commas Word) → List Bare
  | none => []
  | some names =>
    .word .binder :: .sign .less :: (names.bare fun name => [.lifetime name]) ++ [.sign .greater]

mutual

/-- The bare tokens of a type. -/
def PlainType.bare : PlainType → List Bare
  | .path rooted first more =>
    (if rooted then [.colons] else []) ++ (first.bare ++ Segment.bareMore more)
  | .reference lifetime mutable target =>
    .sign .ampersand :: (lifetime.toList.map .lifetime ++
      ((if mutable then [.word .mutable] else []) ++ target.bare))
  | .pointer mutable pointee =>
    .sign .star :: .word (if mutable then .mutable else .const) :: pointee.bare
  | .unit => [.group .parenthesis []]
  | .tuple first rest =>
    [.group .parenthesis (first.bare ++ .sign .comma :: PlainType.bareCommas rest)]
  | .slice element => [.group .bracket element.bare]
  | .array element length => [.group .bracket (element.bare ++ [.sign .semicolon, .whole length])]
  | .function binder unchecked params result =>
    binderBare binder ++ ((if unchecked then [.word .unchecked] else []) ++
      .word .foreign :: .convention :: .word .fn ::
        .group .parenthesis (Param.bareCommas params) :: PlainType.bareResult result)

def PlainType.bareCommas : Commas PlainType → List Bare
  | .none => []
  | .last t => t.bare
  | .cons t rest => t.bare ++ .sign .comma :: PlainType.bareCommas rest

def PlainType.bareResult : Option PlainType → List Bare
  | none => []
  | some t => .arrow :: t.bare

def Segment.bare : Segment → List Bare
  | .plain name => [.word name.toWord]
  | .generic name turbofish args =>
    .word name.toWord :: ((if turbofish then [.colons] else []) ++
      .sign .less :: (PlainType.bareCommas args ++ [.sign .greater]))

/-- The names of a path behind its first. -/
def Segment.bareMore : List Segment → List Bare
  | [] => []
  | s :: more => .colons :: (s.bare ++ Segment.bareMore more)

def Param.bare : Param → List Bare
  | .mk none t => t.bare
  | .mk (some name) t => .word name.toWord :: .sign .colon :: t.bare

def Param.bareCommas : Commas Param → List Bare
  | .none => []
  | .last p => p.bare
  | .cons p rest => p.bare ++ .sign .comma :: Param.bareCommas rest

end

/-- The key of a type: its canonical spelling. -/
def PlainType.key (t : PlainType) : ForeignType := ⟨Token.spelling (Token.tokensOf t.bare)⟩

def PlainType.isRooted : PlainType → Bool
  | .path rooted _ _ => rooted
  | _ => false

mutual

/-- Whether no parameter at any depth has a name directly before a path that starts with `::`. The
spelling of one that has is another token sequence. -/
def PlainType.isClear : PlainType → Bool
  | .path _ first more => first.isClear && Segment.allClear more
  | .reference _ _ target => target.isClear
  | .pointer _ pointee => pointee.isClear
  | .unit => true
  | .tuple first rest => first.isClear && PlainType.commasClear rest
  | .slice element => element.isClear
  | .array element _ => element.isClear
  | .function _ _ params result => Param.commasClear params && PlainType.resultClear result

def PlainType.commasClear : Commas PlainType → Bool
  | .none => true
  | .last t => t.isClear
  | .cons t rest => t.isClear && PlainType.commasClear rest

def PlainType.resultClear : Option PlainType → Bool
  | none => true
  | some t => t.isClear

def Segment.isClear : Segment → Bool
  | .plain _ => true
  | .generic _ _ args => PlainType.commasClear args

def Segment.allClear : List Segment → Bool
  | [] => true
  | s :: more => s.isClear && Segment.allClear more

def Param.isClear : Param → Bool
  | .mk name t => t.isClear && (name.isNone || !t.isRooted)

def Param.commasClear : Commas Param → Bool
  | .none => true
  | .last p => p.isClear
  | .cons p rest => p.isClear && Param.commasClear rest

end

/-- The types that are the arguments of a name. -/
def Segment.args : Segment → List PlainType
  | plain _ => []
  | generic _ _ args => args.toList

/-- The types that a type is built from. -/
def PlainType.parts : PlainType → List PlainType
  | .path _ first more => first.args ++ more.flatMap Segment.args
  | .reference _ _ target => [target]
  | .pointer _ pointee => [pointee]
  | .unit => []
  | .tuple first rest => first :: rest.toList
  | .slice element => [element]
  | .array element _ => [element]
  | .function _ _ params result => params.toList.map Param.type ++ result.toList

theorem PlainType.bareCommas_eq (args : Commas PlainType) :
    PlainType.bareCommas args = args.bare PlainType.bare := by
  induction args with
  | none => rfl
  | last t => rfl
  | cons t rest ih => rw [PlainType.bareCommas, Commas.bare, ih]

theorem Param.bareCommas_eq (params : Commas Param) :
    Param.bareCommas params = params.bare Param.bare := by
  induction params with
  | none => rfl
  | last p => rfl
  | cons p rest ih => rw [Param.bareCommas, Commas.bare, ih]

section Parts

open Token (weight)

variable {t u : PlainType}

theorem Segment.weight_pos (s : Segment) : 0 < weight s.bare := by
  cases s <;> simp [Segment.bare]

theorem PlainType.weight_pos (t : PlainType) : 0 < weight t.bare := by
  cases t with
  | path rooted first more =>
    have hfirst := first.weight_pos
    rw [PlainType.bare, Token.weight_append, Token.weight_append]
    omega
  | _ => simp [PlainType.bare]

theorem Commas.weight_of_mem {α : Type} {f : α → List Bare} {xs : Commas α} {a : α}
    (h : a ∈ xs.toList) : weight (f a) ≤ weight (xs.bare f) := by
  induction xs with
  | none => cases h
  | last b =>
    obtain rfl := List.mem_singleton.mp h
    exact Nat.le_refl _
  | cons b rest ih =>
    rw [Commas.bare, Token.weight_append, Token.weight_cons]
    rcases List.mem_cons.mp h with rfl | h
    · omega
    · have hrest := ih h
      omega

theorem PlainType.weight_of_mem {args : Commas PlainType} (h : u ∈ args.toList) :
    weight u.bare ≤ weight (PlainType.bareCommas args) := by
  rw [PlainType.bareCommas_eq]
  exact Commas.weight_of_mem h

theorem Param.weight_type (p : Param) : weight p.type.bare ≤ weight p.bare := by
  obtain ⟨_ | name, t⟩ := p
  · exact Nat.le_refl _
  · simp only [Param.bare, Param.type, Token.weight_cons]
    omega

theorem Param.weight_of_mem {params : Commas Param} {p : Param} (h : p ∈ params.toList) :
    weight p.type.bare ≤ weight (Param.bareCommas params) := by
  rw [Param.bareCommas_eq]
  exact p.weight_type.trans (Commas.weight_of_mem h)

theorem Segment.weight_args {s : Segment} (h : u ∈ s.args) : weight u.bare < weight s.bare := by
  cases s with
  | plain n => cases h
  | generic n turbofish args =>
    have hargs := PlainType.weight_of_mem h
    simp only [Segment.bare, Token.weight_cons, Token.weight_append, Token.weight_word]
    omega

theorem Segment.weight_of_mem {more : List Segment} {s : Segment} (h : s ∈ more) :
    weight s.bare ≤ weight (Segment.bareMore more) := by
  induction more with
  | nil => cases h
  | cons s' more ih =>
    rw [Segment.bareMore, Token.weight_cons, Token.weight_append]
    rcases List.mem_cons.mp h with rfl | h
    · omega
    · have hmore := ih h
      omega

/-- What a type is built from takes fewer tokens. -/
theorem PlainType.weight_parts (h : u ∈ t.parts) : weight u.bare < weight t.bare := by
  cases t with
  | path rooted first more =>
    rw [PlainType.bare, Token.weight_append, Token.weight_append]
    rcases List.mem_append.mp h with h | h
    · have hfirst := Segment.weight_args h
      omega
    · obtain ⟨s, hs, h⟩ := List.mem_flatMap.mp h
      have hargs := Segment.weight_args h
      have hmore := Segment.weight_of_mem hs
      omega
  | unit => cases h
  | tuple first rest =>
    simp only [PlainType.bare, Token.weight_cons, Token.weight_group, Token.weight_append]
    rcases List.mem_cons.mp h with rfl | h
    · omega
    · have hrest := PlainType.weight_of_mem h
      omega
  | function binder unchecked params result =>
    simp only [PlainType.bare, Token.weight_cons, Token.weight_group, Token.weight_append]
    rcases List.mem_append.mp h with h | h
    · obtain ⟨p, hp, rfl⟩ := List.mem_map.mp h
      have hparams := Param.weight_of_mem hp
      omega
    · obtain rfl := Option.mem_toList.mp h
      simp only [PlainType.bareResult, Token.weight_cons, Token.weight_arrow]
      omega
  | _ =>
    obtain rfl := List.mem_singleton.mp h
    simp only [PlainType.bare, Token.weight_cons, Token.weight_group, Token.weight_append,
      Token.weight_sign]
    omega

/-- Facts about a type follow from those about what it is built from. -/
theorem PlainType.parts_induction {motive : PlainType → Prop}
    (step : ∀ t, (∀ u ∈ t.parts, motive u) → motive t) (t : PlainType) : motive t := by
  induction hweight : Token.weight t.bare using Nat.strong_induction_on generalizing t with
  | h n ih =>
    subst hweight
    exact step t fun u hu => ih _ (PlainType.weight_parts hu) u rfl

theorem Param.isClear_of_mem {params : Commas Param} {p : Param}
    (hclear : Param.commasClear params) (h : p ∈ params.toList) : p.isClear := by
  induction params with
  | none => cases h
  | last q =>
    obtain rfl := List.mem_singleton.mp h
    exact hclear
  | cons q rest ih =>
    obtain ⟨hq, hrest⟩ := Bool.and_eq_true_iff.mp hclear
    rcases List.mem_cons.mp h with rfl | h
    · exact hq
    · exact ih hrest h

theorem PlainType.isClear_of_mem {args : Commas PlainType} (hclear : PlainType.commasClear args)
    (h : u ∈ args.toList) : u.isClear := by
  induction args with
  | none => cases h
  | last t =>
    obtain rfl := List.mem_singleton.mp h
    exact hclear
  | cons t rest ih =>
    obtain ⟨ht, hrest⟩ := Bool.and_eq_true_iff.mp hclear
    rcases List.mem_cons.mp h with rfl | h
    · exact ht
    · exact ih hrest h

theorem Segment.isClear_args {s : Segment} (hclear : s.isClear) (h : u ∈ s.args) : u.isClear := by
  cases s with
  | plain n => cases h
  | generic n turbofish args => exact PlainType.isClear_of_mem hclear h

theorem Segment.isClear_of_mem {more : List Segment} {s : Segment} (hclear : Segment.allClear more)
    (h : s ∈ more) : s.isClear := by
  induction more with
  | nil => cases h
  | cons s' more ih =>
    obtain ⟨hs, hmore⟩ := Bool.and_eq_true_iff.mp hclear
    rcases List.mem_cons.mp h with rfl | h
    · exact hs
    · exact ih hmore h

theorem PlainType.isClear_parts (hclear : t.isClear) (h : u ∈ t.parts) :
    u.isClear := by
  cases t with
  | path rooted first more =>
    obtain ⟨hfirst, hmore⟩ := Bool.and_eq_true_iff.mp hclear
    rcases List.mem_append.mp h with h | h
    · exact Segment.isClear_args hfirst h
    · obtain ⟨s, hs, h⟩ := List.mem_flatMap.mp h
      exact Segment.isClear_args (Segment.isClear_of_mem hmore hs) h
  | unit => cases h
  | tuple first rest =>
    obtain ⟨hfirst, hrest⟩ := Bool.and_eq_true_iff.mp hclear
    rcases List.mem_cons.mp h with rfl | h
    · exact hfirst
    · exact PlainType.isClear_of_mem hrest h
  | function binder unchecked params result =>
    obtain ⟨hparams, hresult⟩ := Bool.and_eq_true_iff.mp hclear
    rcases List.mem_append.mp h with h | h
    · obtain ⟨⟨name, t⟩, hp, rfl⟩ := List.mem_map.mp h
      exact (Bool.and_eq_true_iff.mp (Param.isClear_of_mem hparams hp)).1
    · obtain rfl := Option.mem_toList.mp h
      exact hresult
  | _ =>
    obtain rfl := List.mem_singleton.mp h
    exact hclear

end Parts

mutual

/-- What a context resolves a type to: its own correspondence, or what the rule for its shape builds
of what its parts resolve to. -/
def PlainType.resolve (c : TypeContext) : PlainType → Option HostType
  | .pointer mutable pointee =>
    (c.listed? (PlainType.key (.pointer mutable pointee))).or
      (if .pointers ∈ c.rules then (pointee.resolve c).map fun host => .apply "Ptr" [host]
      else none)
  | .function binder unchecked params result =>
    (c.listed? (PlainType.key (.function binder unchecked params result))).or
      (if .functionPointers ∈ c.rules then
        (Param.resolveCommas c params).bind fun hosts =>
          (PlainType.resolveResult c result).map fun host =>
            .apply "FunPtr" [.arrow hosts (.apply "IO" [host])]
      else none)
  | t => c.listed? t.key

/-- A function without a result gives the unit type. -/
def PlainType.resolveResult (c : TypeContext) : Option PlainType → Option HostType
  | none => c.listed? PlainType.unit.key
  | some t => t.resolve c

def Param.resolve (c : TypeContext) : Param → Option HostType
  | .mk _ t => t.resolve c

def Param.resolveCommas (c : TypeContext) : Commas Param → Option (List HostType)
  | .none => some []
  | .last p => (p.resolve c).map ([·])
  | .cons p rest =>
    (p.resolve c).bind fun host => (Param.resolveCommas c rest).map (host :: ·)

end

end Graft

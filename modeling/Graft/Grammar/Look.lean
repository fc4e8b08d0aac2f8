import Graft.Grammar.Parser

/-!
# Looking at tokens and reading them one at a time

Tests on the tokens ahead, and the parsers of single operators, words and groups.
-/

namespace Graft

/-- Words that name nothing: they belong to the grammar or are kept for it. -/
def reservedWords : List String :=
  ["_", "abstract", "as", "async", "await", "become", "box", "break", "const", "continue",
   "crate", "do", "dyn", "else", "enum", "extern", "false", "final", "fn", "for", "if", "impl",
   "in", "let", "loop", "macro", "match", "mod", "move", "mut", "override", "priv", "pub", "ref",
   "return", "Self", "self", "static", "struct", "super", "trait", "true", "try", "type",
   "typeof", "unsafe", "unsized", "use", "virtual", "where", "while", "yield"]

namespace Look

/-- The operator made of the marks `op` is next. All but its last mark must run on. -/
def op (s : String) (ts : List Token) : Bool := go s.toList ts
where
  go : List Char → List Token → Bool
    | [c], .punct c' _ _ :: _ => c = c' && c ≠ '\''
    | c :: cs, .punct c' spacing _ :: ts => c = c' && spacing = .joint && go cs ts
    | _, _ => false

def word (name : String) : List Token → Bool
  | .ident name' _ :: _ => name = name'
  | _ => false

def anyWord : List Token → Bool
  | .ident .. :: _ => true
  | _ => false

def name : List Token → Bool
  | .ident s _ :: _ => !reservedWords.contains s
  | _ => false

def lifetime : List Token → Bool
  | .punct '\'' .joint _ :: .ident .. :: _ => true
  | _ => false

/-- A literal is next: a number may have a sign, and the truth values count. -/
def literal : List Token → Bool
  | .literal .. :: _ => true
  | .ident s _ :: _ => s = "true" || s = "false"
  | .punct '-' _ _ :: .literal s _ :: _ => Literal.isInt s || Literal.isFloat s
  | _ => false

def text : List Token → Bool
  | .literal s _ :: _ => Literal.isText s
  | _ => false

def int : List Token → Bool
  | .literal s _ :: _ => Literal.isInt s
  | .punct '-' _ _ :: .literal s _ :: _ => Literal.isInt s
  | _ => false

def group (d : Delimiter) : List Token → Bool
  | .group d' _ _ :: _ => d = d'
  | _ => false

def parens : List Token → Bool := group .parenthesis

def brackets : List Token → Bool := group .bracket

def braces : List Token → Bool := group .brace

/-- What follows the next token; a lifetime counts as one. -/
def second : List Token → List Token
  | .punct '\'' .joint _ :: .ident .. :: ts => ts
  | _ :: ts => ts
  | [] => []

def third (ts : List Token) : List Token := second (second ts)

/-- The operator `s` is next and does not go on as one of `longer`. -/
def opOnly (s : String) (longer : List String) (ts : List Token) : Bool :=
  op s ts && !longer.any (op · ts)

def oneOf (names : List String) (ts : List Token) : Bool := names.any (word · ts)

end Look

namespace Parser

def ahead (test : List Token → Bool) : Parser Bool := return test (← rest)

def op (s : String) : Parser PUnit := do
  if Look.op s (← rest) then
    let span := ((← rest).head?.map Token.span).getD .nowhere
    drop s.length
    write (Token.operator s span)
  else failHere ("expected `" ++ s ++ "`")

def op? (s : String) : Parser Bool := do
  if Look.op s (← rest) then
    op s
    return true
  else return false

def token : Parser PUnit := do
  match ← next? with
  | some t => write [t]
  | none => return ⟨⟩

def word (s : String) : Parser PUnit := do
  if Look.word s (← rest) then token else fail ("expected `" ++ s ++ "`")

def word? (s : String) : Parser Bool := do
  if Look.word s (← rest) then
    token
    return true
  else return false

def name : Parser String := do
  match ← rest with
  | .ident s _ :: _ =>
    if reservedWords.contains s then fail ("expected identifier, found keyword `" ++ s ++ "`")
    else
      token
      return s
  | _ => fail "expected identifier"

def anyWord : Parser PUnit := do
  match ← rest with
  | .ident .. :: _ => token
  | _ => fail "expected ident"

def lifetime : Parser PUnit := do
  if Look.lifetime (← rest) then
    token
    token
  else fail "expected lifetime"

def lifetime? : Parser Bool := do
  if Look.lifetime (← rest) then
    lifetime
    return true
  else return false

/-- Reads a literal. The sign of a number is written as a mark of its own. -/
def literal : Parser PUnit := do
  match ← rest with
  | .punct _ _ span :: _ =>
    if Look.literal (← rest) then
      drop 1
      write [.punct '-' .alone span]
      token
    else fail "expected literal"
  | _ => if Look.literal (← rest) then token else fail "expected literal"

def groupName : Delimiter → String
  | .parenthesis => "parentheses"
  | .bracket => "square brackets"
  | .brace => "curly braces"

def group {α : Type} (d : Delimiter) (p : Parser α) : Parser α := do
  match ← rest with
  | .group d' inner span :: _ =>
    if d = d' then
      drop 1
      inside d inner span p
    else fail ("expected " ++ groupName d)
  | _ => fail ("expected " ++ groupName d)

def parens {α : Type} (p : Parser α) : Parser α := group .parenthesis p

def brackets {α : Type} (p : Parser α) : Parser α := group .bracket p

def braces {α : Type} (p : Parser α) : Parser α := group .brace p

def everything : Parser PUnit := fun _ c =>
  .ok (⟨⟩, { c with rest := [], written := c.rest.reverse ++ c.written })

/-- Reads items with `separator` between and possibly behind them, until `stop` holds. -/
def listUntil {α : Type} (stop : List Token → Bool) (separator : String) (item : Parser α) :
    Parser (List α) := do
  if ← ahead stop then return []
  let first ← item
  let others ← many do
    if ← ahead stop then return none
    op separator
    if ← ahead stop then return none
    return some (← item)
  return first :: others

def commaList {α : Type} (item : Parser α) : Parser (List α) := listUntil List.isEmpty "," item

def allOf (item : Parser PUnit) : Parser PUnit :=
  whileReading do
    if ← isEmpty then return false
    item
    return true

end Parser

end Graft

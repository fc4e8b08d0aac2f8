import Graft.Call.Host

/-!
# Haskell as a host language
-/

namespace Graft

namespace Haskell

def reservedWords : List String :=
  ["case", "class", "data", "default", "deriving", "do", "else", "foreign", "if", "import", "in",
   "infix", "infixl", "infixr", "instance", "let", "module", "newtype", "of", "then", "type",
   "where", "_"]

def isNameChar (c : Char) : Bool := isAlphanumeric c || c = '_' || c = '\''

def isVariable (name : String) : Bool :=
  match name.toList with
  | [] => false
  | c :: cs => (isLowercase c || c = '_') && cs.all isNameChar && !reservedWords.contains name

def renderDeclaration (effect : String) (d : HostDeclaration) : String :=
  "foreign import ccall " ++ d.safety.keyword ++ " \"" ++ d.symbol ++ "\" " ++ d.name ++ " :: " ++
    (d.signature effect).text

def renderArgument (a : String) : String :=
  if a.toList.any isBlank then "(" ++ a ++ ")" else a

def renderCall (c : HostCall) : String :=
  if c.args.isEmpty then c.function
  else "(" ++ c.function ++ " " ++ " ".intercalate (c.args.map renderArgument) ++ ")"

end Haskell

def haskell : HostLanguage where
  name := "haskell"
  effect := "IO"
  comments := ⟨"--", some ("\x7b-", "-\x7d"), true⟩
  isVariable := Haskell.isVariable
  renderDeclaration := Haskell.renderDeclaration "IO"
  renderCall := Haskell.renderCall

end Graft

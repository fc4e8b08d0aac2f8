import Graft.Text.CharClass
import Graft.Toml.Text

/-!
# Writing TOML

Of the forms in which a text can be written, the first that shows it as it is: basic without
escapes, literal, basic over several lines, literal over several lines. Only a text that fits none
of them is escaped.
-/

namespace Graft.Toml

structure TextTraits where
  doubleQuotes : Nat
  singleQuotes : Nat
  backslash : Bool
  lineEnd : Bool
  control : Bool
  deriving DecidableEq, Repr

namespace TextTraits

def longestRun (c : Char) (sofar : Nat) : List Char → Nat
  | [] => sofar
  | d :: ds => if d = c then longestRun c (sofar + 1) ds else max sofar (longestRun c 0 ds)

def isControl (c : Char) : Bool := (c.toNat < 32 && c ≠ '\t') || c.toNat = 127

def ofText (cs : List Char) : TextTraits where
  doubleQuotes := longestRun '"' 0 cs
  singleQuotes := longestRun '\'' 0 cs
  backslash := cs.contains '\\'
  lineEnd := cs.contains '\n'
  control := cs.any fun c => isControl c && c ≠ '\n'

end TextTraits

structure TextForm where
  quotes : String
  escaped : Bool
  long : Bool
  deriving DecidableEq, Repr

namespace TextForm

def basic : TextForm := ⟨"\"", true, false⟩

def literal : TextForm := ⟨"'", false, false⟩

def longBasic : TextForm := ⟨"\"\"\"", true, true⟩

def longLiteral : TextForm := ⟨"'''", false, true⟩

def ofTraits (t : TextTraits) : TextForm :=
  if !t.control && !t.backslash && t.doubleQuotes = 0 && !t.lineEnd then basic
  else if !t.control && t.singleQuotes = 0 && !t.lineEnd then literal
  else if !t.control && !t.backslash && t.doubleQuotes ≤ 2 then longBasic
  else if !t.control && t.singleQuotes ≤ 2 then longLiteral
  else if t.lineEnd then longBasic
  else basic

/-- The form of a key that is not bare. It never spans lines. -/
def ofKeyTraits (t : TextTraits) : TextForm :=
  let plain := !t.control && !t.lineEnd
  if plain && !t.backslash && t.doubleQuotes = 0 then basic
  else if plain && t.singleQuotes = 0 then literal
  else basic

end TextForm

def upperHexDigit (n : Nat) : Char := "0123456789ABCDEF".toList[n]?.getD '0'

def escapeCode (c : Char) : String :=
  .ofList ['\\', 'u', '0', '0', upperHexDigit (c.toNat / 16), upperHexDigit (c.toNat % 16)]

def escapeChar (long : Bool) (c : Char) : String :=
  if c.toNat = 8 then "\\b"
  else if c = '\t' then "\\t"
  else if c = '\n' then if long then "\n" else "\\n"
  else if c.toNat = 12 then "\\f"
  else if c = '\r' then "\\r"
  else if c = '\\' then "\\\\"
  else if TextTraits.isControl c then escapeCode c
  else c.toString

/-- The inside of a text with escapes. Over several lines up to two quotes may stand in a row
without escapes; `quotes` counts those that come just before. -/
def escapedBody (long : Bool) (quotes : Nat) : List Char → String
  | [] => ""
  | c :: cs =>
    if c = '"' then
      if long && quotes < 2 then "\"" ++ escapedBody long (quotes + 1) cs
      else "\\\"" ++ escapedBody long 0 cs
    else escapeChar long c ++ escapedBody long 0 cs

/-- A text in a form. A text of several lines starts on a line of its own. -/
def writeAs (f : TextForm) (cs : List Char) : String :=
  f.quotes ++ (if f.long && cs.contains '\n' then "\n" else "") ++
    (if f.escaped then escapedBody f.long 0 cs else .ofList cs) ++ f.quotes

def writeText (s : String) : String :=
  writeAs (.ofTraits (.ofText s.toList)) s.toList

def writeKey (s : String) : String :=
  if s.toList.all isKeyChar && !s.isEmpty then s
  else writeAs (.ofKeyTraits (.ofText s.toList)) s.toList

def writeTexts : List String → String
  | [] => "[]"
  | [s] => "[" ++ writeText s ++ "]"
  | ss => "[\n" ++ String.join (ss.map fun s => "    " ++ writeText s ++ ",\n") ++ "]"

def writePair (key value : String) : String := writeKey key ++ " = " ++ value ++ "\n"

def writeTable (header : String) (pairs : List String) : String :=
  "[" ++ header ++ "]\n" ++ String.join pairs

def writeDocument (tables : List String) : String := "\n".intercalate tables

end Graft.Toml

import Graft.Text.CharClass

/-!
# Quoted texts

Texts in quotes, with escapes for all that has no glyph of its own: as literals of the foreign
language, and as messages show them.
-/

namespace Graft.Quoted

def hexDigits (n : Nat) : String := .ofList (Nat.toDigits 16 n)

def escape (c : Char) : String :=
  if c.toNat = 0 then "\\0"
  else if c = '\t' then "\\t"
  else if c = '\r' then "\\r"
  else if c = '\n' then "\\n"
  else if c = '"' then "\\\""
  else if c = '\\' then "\\\\"
  else if c.toNat < 32 || c.toNat = 127 || (!isAscii c && CodePoints.glyphless.contains c) then
    "\\u\x7b" ++ hexDigits c.toNat ++ "\x7d"
  else c.toString

/-- The inside of a literal. A zero before an octal digit is written out. -/
def literalBody : List Char → String
  | [] => ""
  | c :: cs =>
    (if c.toNat = 0 && cs.head?.any (fun d => '0' ≤ d && d ≤ '7') then "\\x00" else escape c) ++
      literalBody cs

def literal (cs : List Char) : String := "\"" ++ literalBody cs ++ "\""

def shown (s : String) : String := "\"" ++ String.join (s.toList.map escape) ++ "\""

end Graft.Quoted

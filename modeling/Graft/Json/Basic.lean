import Graft.Text.CharClass

/-!
# JSON

The values in which manifests are written and settings are given, and their indented text.
-/

namespace Graft

inductive Json where
  | null
  | bool (b : Bool)
  | number (n : Nat)
  | string (s : String)
  | array (items : List Json)
  | object (fields : List (String × Json))
  deriving Repr, Inhabited

namespace Json

def hexDigit (n : Nat) : Char := "0123456789abcdef".toList[n]?.getD '0'

def escapeChar (c : Char) : String :=
  if c = '"' then "\\\""
  else if c = '\\' then "\\\\"
  else if c = '\n' then "\\n"
  else if c = '\r' then "\\r"
  else if c = '\t' then "\\t"
  else if c.toNat = 8 then "\\b"
  else if c.toNat = 12 then "\\f"
  else if c.toNat < 32 then
    .ofList ['\\', 'u', '0', '0', hexDigit (c.toNat / 16), hexDigit (c.toNat % 16)]
  else c.toString

def quote (s : String) : String := "\"" ++ String.join (s.toList.map escapeChar) ++ "\""

def indentation (depth : Nat) : String := .ofList (List.replicate (2 * depth) ' ')

def lines (depth : Nat) (parts : List String) : String :=
  ",".intercalate (parts.map fun p => "\n" ++ indentation (depth + 1) ++ p) ++ "\n" ++
    indentation depth

mutual

def prettyAt (depth : Nat) : Json → String
  | null => "null"
  | bool b => toString b
  | number n => toString n
  | string s => quote s
  | array [] => "[]"
  | array (j :: js) => "[" ++ lines depth (prettyItems (depth + 1) (j :: js)) ++ "]"
  | object [] => "\x7b\x7d"
  | object (f :: fs) => "\x7b" ++ lines depth (prettyFields (depth + 1) (f :: fs)) ++ "\x7d"

def prettyItems (depth : Nat) : List Json → List String
  | [] => []
  | j :: js => prettyAt depth j :: prettyItems depth js

def prettyFields (depth : Nat) : List (String × Json) → List String
  | [] => []
  | (key, j) :: fs => (quote key ++ ": " ++ prettyAt depth j) :: prettyFields depth fs

end

def pretty (j : Json) : String := prettyAt 0 j

def strings (ss : List String) : Json := array (ss.map string)

def optional {α : Type} (encode : α → Json) (a : Option α) : Json := (a.map encode).getD null

end Json

end Graft

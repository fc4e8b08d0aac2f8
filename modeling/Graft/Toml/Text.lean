import Graft.Text.CharClass

/-!
# Texts and keys in TOML

Basic texts with escapes, literal ones without, both also over several lines, and the keys that
stand before values. A reader gives what it has read and the rest of the text.
-/

namespace Graft.Toml

abbrev Reader (α : Type) := List Char → Option (α × List Char)

def isTextChar (c : Char) : Bool := c = '\t' || (32 ≤ c.toNat && c.toNat ≠ 127)

def isSpace (c : Char) : Bool := c = ' ' || c = '\t'

def skipSpaces (cs : List Char) : List Char := cs.dropWhile isSpace

def hexValue (cs : List Char) : Nat := cs.foldl (fun n c => n * 16 + hexDigitValue c) 0

def codedChar? (n : Nat) (cs : List Char) : Option (Char × Nat) :=
  let digits := cs.take n
  if digits.length = n && digits.all isHexDigit && (hexValue digits).isValidChar then
    some (Char.ofNat (hexValue digits), n + 1)
  else none

def escape? : List Char → Option (Char × Nat)
  | [] => none
  | c :: cs =>
    if c = 'u' then codedChar? 4 cs
    else if c = 'U' then codedChar? 8 cs
    else
      (([('b', Char.ofNat 8), ('t', '\t'), ('n', '\n'), ('f', Char.ofNat 12), ('r', '\r'),
        ('"', '"'), ('\\', '\\')]).lookup c).map fun d => (d, 1)

def basic : Reader (List Char)
  | [] => none
  | c :: cs =>
    if c = '"' then some ([], cs)
    else if c = '\\' then
      match escape? cs with
      | none => none
      | some (d, n) => (basic (cs.drop n)).map fun (s, rest) => (d :: s, rest)
    else if isTextChar c then (basic cs).map fun (s, rest) => (c :: s, rest)
    else none
termination_by cs => cs.length

def literal : Reader (List Char)
  | [] => none
  | c :: cs =>
    if c = '\'' then some ([], cs)
    else if isTextChar c then (literal cs).map fun (s, rest) => (c :: s, rest)
    else none

/-- The text behind the closing quotes of a text over several lines, if they are here, and the
quotes before them that belong to the text: up to two. -/
def closing? (quote : Char) (cs : List Char) : Option (List Char × List Char) :=
  let quotes := min 5 (cs.takeWhile (· = quote)).length
  if 3 ≤ quotes then some (List.replicate (quotes - 3) quote, cs.drop quotes) else none

def marginLength : List Char → Nat
  | '\r' :: '\n' :: cs => marginLength cs + 2
  | c :: cs => if isSpace c || c = '\n' then marginLength cs + 1 else 0
  | [] => 0

/-- The number of characters to skip behind a backslash at the end of a line: all blanks up to the
next character of the text. -/
def continuation? (cs : List Char) : Option Nat :=
  match skipSpaces cs with
  | '\n' :: _ | '\r' :: '\n' :: _ => some (marginLength cs)
  | _ => none

def longBasic : Reader (List Char)
  | [] => none
  | c :: cs =>
    match closing? '"' (c :: cs) with
    | some found => some found
    | none =>
      if c = '\\' then
        match continuation? cs with
        | some n => longBasic (cs.drop n)
        | none =>
          match escape? cs with
          | none => none
          | some (d, n) => (longBasic (cs.drop n)).map fun (s, rest) => (d :: s, rest)
      else if c = '\r' then
        if cs.head? = some '\n' then
          (longBasic (cs.drop 1)).map fun (s, rest) => ('\n' :: s, rest)
        else none
      else if isTextChar c || c = '\n' then (longBasic cs).map fun (s, rest) => (c :: s, rest)
      else none
termination_by cs => cs.length

def longLiteral : Reader (List Char)
  | [] => none
  | c :: cs =>
    match closing? '\'' (c :: cs) with
    | some found => some found
    | none =>
      if c = '\r' then
        if cs.head? = some '\n' then
          (longLiteral (cs.drop 1)).map fun (s, rest) => ('\n' :: s, rest)
        else none
      else if isTextChar c || c = '\n' then (longLiteral cs).map fun (s, rest) => (c :: s, rest)
      else none
termination_by cs => cs.length

def dropLineEnd : List Char → List Char
  | '\n' :: cs => cs
  | '\r' :: '\n' :: cs => cs
  | cs => cs

def anyText (cs : List Char) : Option (List Char × List Char) :=
  if startsWith "\"\"\"" cs then longBasic (dropLineEnd (cs.drop 3))
  else if startsWith "'''" cs then longLiteral (dropLineEnd (cs.drop 3))
  else
    match cs with
    | '"' :: rest => basic rest
    | '\'' :: rest => literal rest
    | _ => none

def isKeyChar (c : Char) : Bool := isAscii c && (c.isAlphanum || c = '_' || c = '-')

def key : Reader String := fun cs =>
  match cs with
  | '"' :: rest => (basic rest).map fun (s, rest) => (.ofList s, rest)
  | '\'' :: rest => (literal rest).map fun (s, rest) => (.ofList s, rest)
  | _ =>
    let name := cs.takeWhile isKeyChar
    if name.isEmpty then none else some (.ofList name, cs.drop name.length)

def keysFrom (cs : List Char) : Option (List String × List Char) :=
  match key (skipSpaces cs) with
  | none => none
  | some (k, rest) =>
    match skipSpaces rest with
    | '.' :: more =>
      if more.length < cs.length then (keysFrom more).map fun (ks, rest) => (k :: ks, rest)
      else none
    | rest => some ([k], rest)
termination_by cs.length

def depthBound : Nat := 80

def keys : Reader (List String) := fun cs =>
  (keysFrom cs).bind fun (ks, rest) => if ks.length < depthBound then some (ks, rest) else none

end Graft.Toml

import Graft.Text.CharClass

/-!
# Literals

The lexical forms of literals. Every function gives the number of characters that the form takes
at the head of a text, or nothing if the text does not start with it.
-/

namespace Graft.Literal

structure Content where
  /-- Only ASCII characters stand for themselves. -/
  ascii : Bool
  /-- Escapes with a scalar value in braces are allowed. -/
  scalarEscapes : Bool
  /-- Escapes by two hexadecimal digits may exceed the ASCII range. -/
  highBytes : Bool
  /-- The zero character may occur. -/
  zero : Bool

def Content.text : Content := ⟨false, true, false, true⟩

def Content.bytes : Content := ⟨true, false, true, true⟩

def Content.terminated : Content := ⟨false, true, true, false⟩

def identLength? : List Char → Option Nat
  | c :: cs => if isIdentStart c then some (1 + (cs.takeWhile isIdentContinue).length) else none
  | [] => none

def suffixLength (cs : List Char) : Nat := (identLength? cs).getD 0

def withSuffix (cs : List Char) (n : Nat) : Nat := n + suffixLength (cs.drop n)

/-- Reads the digits of a scalar escape up to its closing brace: at most six hexadecimal digits,
at least one, with underscores between. Gives the length and the value. -/
def scalarDigits? (count value : Nat) : List Char → Option (Nat × Nat)
  | [] => none
  | c :: cs =>
    if c = '_' && 0 < count then (scalarDigits? count value cs).map fun (n, v) => (n + 1, v)
    else if c = '\x7d' && 0 < count then some (1, value)
    else if isHexDigit c && count < 6 then
      (scalarDigits? (count + 1) (value * 16 + hexDigitValue c) cs).map fun (n, v) => (n + 1, v)
    else none

def isScalar (n : Nat) : Bool := n < 0xD800 || (0xDFFF < n && n < 0x110000)

/-- The length of an escape after its backslash, line continuations excluded. -/
def escapeLength? (k : Content) : List Char → Option Nat
  | 'x' :: a :: b :: _ =>
    if isHexDigit a && isHexDigit b && (k.highBytes || a.toNat ≤ '7'.toNat)
      && (k.zero || a ≠ '0' || b ≠ '0') then some 3 else none
  | 'u' :: '\x7b' :: cs =>
    if k.scalarEscapes then
      match scalarDigits? 0 0 cs with
      | some (n, v) => if isScalar v && (k.zero || v ≠ 0) then some (n + 2) else none
      | none => none
    else none
  | c :: _ =>
    if c = 'n' || c = 'r' || c = 't' || c = '\\' || c = '\'' || c = '"' || (c = '0' && k.zero)
    then some 1 else none
  | [] => none

/-- The length of the blanks that a line continuation skips, starting with the line end itself.
A return must be followed by a line feed, and the text must go on. -/
def continuationLength? : List Char → Option Nat
  | '\r' :: '\n' :: cs => (continuationLength? cs).map (· + 2)
  | '\r' :: _ => none
  | c :: cs =>
    if c = ' ' || c = '\t' || c = '\n' then (continuationLength? cs).map (· + 1) else some 0
  | [] => none

def escapedLength? (k : Content) (cs : List Char) : Option Nat :=
  if cs.head?.any fun c => c = '\n' || c = '\r' then continuationLength? cs
  else escapeLength? k cs

def quotedLength? (k : Content) : List Char → Option Nat
  | [] => none
  | '"' :: _ => some 1
  | '\r' :: '\n' :: cs => (quotedLength? k cs).map (· + 2)
  | '\r' :: _ => none
  | '\\' :: cs =>
    match escapedLength? k cs with
    | some n => (quotedLength? k (cs.drop n)).map (· + n + 1)
    | none => none
  | c :: cs =>
    if (k.ascii && !isAscii c) || (!k.zero && c.toNat = 0) then none
    else (quotedLength? k cs).map (· + 1)
termination_by cs => cs.length

/-- The length of a raw literal's contents and closing quote, where `hashes` marks follow it. -/
def rawTailLength? (k : Content) (hashes : Nat) : List Char → Option Nat
  | [] => none
  | '\r' :: '\n' :: cs => (rawTailLength? k hashes cs).map (· + 2)
  | '\r' :: _ => none
  | c :: cs =>
    if c = '"' && (cs.takeWhile (· = '#')).length ≥ hashes then some (hashes + 1)
    else if (k.ascii && !isAscii c) || (!k.zero && c.toNat = 0) then none
    else (rawTailLength? k hashes cs).map (· + 1)

/-- The length of a raw literal from its first hash mark or its quote on. At most 255 hash marks
stand before the quote. -/
def rawLength? (k : Content) (cs : List Char) : Option Nat :=
  let hashes := (cs.takeWhile (· = '#')).length
  match cs.drop hashes with
  | '"' :: rest =>
    if hashes ≤ 255 then (rawTailLength? k hashes rest).map (· + hashes + 1) else none
  | _ => none

def singleLength? (k : Content) : List Char → Option Nat
  | '\\' :: cs =>
    match escapeLength? k cs with
    | some n => if (cs.drop n).head? = some '\'' then some (n + 2) else none
    | none => none
  | c :: '\'' :: _ => if k.ascii && !isAscii c then none else some 2
  | _ => none

structure Mantissa where
  length : Nat
  point : Bool
  exponent : Bool

/-- Digits and at most one point up to the mark of an exponent. A point that another point or
an identifier follows belongs to no number. -/
def mantissa? (seen : Mantissa) : List Char → Option Mantissa
  | [] => some seen
  | c :: cs =>
    if c.isDigit || c = '_' then mantissa? { seen with length := seen.length + 1 } cs
    else if c = '.' && !seen.point then
      if cs.head?.any fun d => d = '.' || isIdentStart d then none
      else mantissa? { seen with length := seen.length + 1, point := true } cs
    else if c = 'e' || c = 'E' then
      some { seen with length := seen.length + 1, exponent := true }
    else some seen

/-- The length of an exponent behind its mark: a sign, then digits. Nothing if it has no digit or
two signs. -/
def exponentLength? (sign digit : Bool) : List Char → Option Nat
  | [] => if digit then some 0 else none
  | c :: cs =>
    if c = '+' || c = '-' then
      if digit then some 0
      else if sign then none
      else (exponentLength? true digit cs).map (· + 1)
    else if c.isDigit then (exponentLength? sign true cs).map (· + 1)
    else if c = '_' then (exponentLength? sign digit cs).map (· + 1)
    else if digit then some 0 else none

/-- The length of a number of `n` characters with the identifier that follows it as its suffix.
No word may go on behind it. -/
def numberLength? (cs : List Char) (n : Nat) : Option Nat :=
  let m := withSuffix cs n
  if (cs.drop m).head?.any isIdentContinue then none else some m

/-- The length of a floating-point number. It needs a point or an exponent; a number with a point
and a mark without exponent ends before the mark, which is then its suffix. -/
def floatLength? (cs : List Char) : Option Nat := do
  let first ← cs.head?
  if !first.isDigit then none
  let m ← mantissa? ⟨1, false, false⟩ cs.tail
  if !m.point && !m.exponent then none
  if !m.exponent then numberLength? cs m.length else
  match exponentLength? false false (cs.drop m.length) with
  | some n => numberLength? cs (m.length + n)
  | none => if m.point then numberLength? cs (m.length - 1) else none

/-- The length of the digits of a number in `base`. Decimal digits beyond the base are an error,
letters beyond it end the number; a decimal number starts with a digit. -/
def digitsLength? (base : Nat) (any : Bool) : List Char → Option Nat
  | [] => if any then some 0 else none
  | c :: cs =>
    if c.isDigit then
      if hexDigitValue c < base then (digitsLength? base true cs).map (· + 1) else none
    else if isHexDigit c && hexDigitValue c < base then
      (digitsLength? base true cs).map (· + 1)
    else if c = '_' && (any || base ≠ 10) then (digitsLength? base any cs).map (· + 1)
    else if any && c ≠ '_' then some 0 else none

def baseMark : List Char → Nat × Nat
  | '0' :: 'x' :: _ => (16, 2)
  | '0' :: 'o' :: _ => (8, 2)
  | '0' :: 'b' :: _ => (2, 2)
  | _ => (10, 0)

def intLength? (cs : List Char) : Option Nat := do
  let (base, mark) := baseMark cs
  let n ← digitsLength? base false (cs.drop mark)
  numberLength? cs (mark + n)

def quotedAfter? (k : Content) (cs : List Char) (n : Nat) : Option Nat :=
  (quotedLength? k (cs.drop n)).map fun m => withSuffix cs (n + m)

def rawAfter? (k : Content) (cs : List Char) (n : Nat) : Option Nat :=
  (rawLength? k (cs.drop n)).map fun m => withSuffix cs (n + m)

def singleAfter? (k : Content) (cs : List Char) (n : Nat) : Option Nat :=
  (singleLength? k (cs.drop n)).map fun m => withSuffix cs (n + m)

def length? (cs : List Char) : Option Nat :=
  quoted <|> floatLength? cs <|> intLength? cs
where
  quoted : Option Nat :=
    match cs with
    | '"' :: _ => quotedAfter? .text cs 1
    | 'r' :: _ => rawAfter? .text cs 1
    | 'b' :: '"' :: _ => quotedAfter? .bytes cs 2
    | 'b' :: 'r' :: _ => rawAfter? .bytes cs 2
    | 'c' :: '"' :: _ => quotedAfter? .terminated cs 2
    | 'c' :: 'r' :: _ => rawAfter? .terminated cs 2
    | 'b' :: '\'' :: _ => singleAfter? .bytes cs 2
    | '\'' :: _ => singleAfter? .text cs 1
    | _ => none

/-- Whether a literal is a whole number: it has no point, and no exponent in base ten. -/
def isInt (text : String) : Bool :=
  match text.toList with
  | '0' :: 'x' :: _ | '0' :: 'o' :: _ | '0' :: 'b' :: _ => true
  | c :: cs => c.isDigit && go cs
  | [] => false
where
  go : List Char → Bool
    | [] => true
    | c :: cs =>
      if c.isDigit || c = '_' then go cs
      else if c = '.' then false
      else if c = 'e' || c = 'E' then
        !((cs.dropWhile (· = '_')).head?.any fun d => d.isDigit || d = '+' || d = '-')
      else true

def intParts (text : String) : Nat × String :=
  let (base, mark) := baseMark text.toList
  let digits := text.toList.drop mark
  let isDigit (c : Char) : Bool := c = '_' || (isHexDigit c && hexDigitValue c < base)
  let addDigit (n : Nat) (c : Char) : Nat := if c = '_' then n else n * base + hexDigitValue c
  ((digits.takeWhile isDigit).foldl addDigit 0, .ofList (digits.dropWhile isDigit))

def isFloat (text : String) : Bool := text.toList.head?.any Char.isDigit && !isInt text

def isText (text : String) : Bool :=
  match text.toList with
  | '"' :: _ | 'r' :: _ => true
  | _ => false

def escapedValue : List Char → List Char × Nat
  | 'x' :: a :: b :: _ => ([Char.ofNat (hexDigitValue a * 16 + hexDigitValue b)], 3)
  | 'u' :: '\x7b' :: cs =>
    match scalarDigits? 0 0 cs with
    | some (n, v) => ([Char.ofNat v], n + 2)
    | none => ([], 2)
  | 'n' :: _ => (['\n'], 1)
  | 'r' :: _ => (['\r'], 1)
  | 't' :: _ => (['\t'], 1)
  | '0' :: _ => ([Char.ofNat 0], 1)
  | c :: cs =>
    if c = '\n' || c = '\r' then
      ([], ((c :: cs).takeWhile fun c => c = ' ' || c = '\t' || c = '\n' || c = '\r').length)
    else ([c], 1)
  | [] => ([], 0)

def quotedValue : List Char → List Char
  | [] => []
  | '"' :: _ => []
  | '\r' :: '\n' :: cs => '\n' :: quotedValue cs
  | '\\' :: cs => (escapedValue cs).1 ++ quotedValue (cs.drop (escapedValue cs).2)
  | c :: cs => c :: quotedValue cs
termination_by cs => cs.length

def textValue (text : String) : String :=
  match text.toList with
  | '"' :: cs => .ofList (quotedValue cs)
  | 'r' :: cs =>
    let hashes := (cs.takeWhile (· = '#')).length
    let body := cs.drop (hashes + 1)
    match rawTailLength? .text hashes body with
    | some n => .ofList (body.take (n - hashes - 1))
    | none => ""
  | _ => ""

end Graft.Literal

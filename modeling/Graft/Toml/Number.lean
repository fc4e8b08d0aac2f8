import Graft.Toml.Basic
import Graft.Toml.Text

/-!
# Numbers and moments in TOML

A number, a date or a time is a word of its own: no character that could belong to one may follow
it. Digits may have single underscores between them.
-/

namespace Graft.Toml

def isWordChar (c : Char) : Bool :=
  isAscii c && (c.isAlphanum || c = '_' || c = '+' || c = '-' || c = '.' || c = ':')

/-- Reads a word as digits, and drops the underscores. `digitBefore` says whether the character
before is a digit. -/
def digitsOf (isDigit : Char → Bool) (digitBefore : Bool) : List Char → Option (List Char)
  | [] => if digitBefore then some [] else none
  | c :: cs =>
    if c = '_' then if digitBefore then digitsOf isDigit false cs else none
    else if isDigit c then (digitsOf isDigit true cs).map (c :: ·)
    else none

def digits? (isDigit : Char → Bool) (cs : List Char) : Option (List Char) :=
  digitsOf isDigit false cs

def valueOf (base : Nat) (ds : List Char) : Nat :=
  ds.foldl (fun n d => n * base + hexDigitValue d) 0

def unsigned : List Char → Bool × List Char
  | '-' :: cs => (true, cs)
  | '+' :: cs => (false, cs)
  | cs => (false, cs)

/-- Whole decimal digits, which start with a zero only if there is no other. -/
def wholeDigits? (cs : List Char) : Option (List Char) :=
  match digits? Char.isDigit cs with
  | some ('0' :: _ :: _) => none
  | other => other

def inRange (n : Int) : Option Toml :=
  if Int64.minValue.toInt ≤ n && n ≤ Int64.maxValue.toInt then some (.integer n) else none

def basedInteger? (base : Nat) (isDigit : Char → Bool) (cs : List Char) : Option Toml :=
  (digits? isDigit cs).bind fun ds => inRange (valueOf base ds)

def integer? : List Char → Option Toml
  | '0' :: 'x' :: cs => basedInteger? 16 isHexDigit cs
  | '0' :: 'o' :: cs => basedInteger? 8 (fun c => '0' ≤ c && c ≤ '7') cs
  | '0' :: 'b' :: cs => basedInteger? 2 (fun c => c = '0' || c = '1') cs
  | cs =>
    let (negative, cs) := unsigned cs
    (wholeDigits? cs).bind fun ds =>
      inRange (if negative then -(valueOf 10 ds : Int) else valueOf 10 ds)

/-- The number of a mantissa and an exponent. Above all positive numbers of the format there is
none. -/
def floatOf (negative : Bool) (mantissa : List Char) (scale : Int) : Option Toml :=
  match Binary64.ofDecimal negative (valueOf 10 mantissa) scale with
  | .infinite false => none
  | x => some (.float x)

def exponent? (cs : List Char) : Option Int :=
  let (negative, cs) := unsigned cs
  (digits? Char.isDigit cs).map fun ds => if negative then -(valueOf 10 ds : Int) else valueOf 10 ds

def float? (cs : List Char) : Option Toml :=
  let (negative, cs) := unsigned cs
  if cs = ['i', 'n', 'f'] then some (.float (.infinite negative))
  else if cs = ['n', 'a', 'n'] then some (.float .nan)
  else
    let isMark (c : Char) : Bool := c = 'e' || c = 'E'
    let mantissa := cs.takeWhile fun c => !isMark c
    let whole := mantissa.takeWhile (· ≠ '.')
    let places := (mantissa.drop whole.length).drop 1
    let marked := mantissa.length < cs.length
    let pointed := whole.length < mantissa.length
    if !marked && !pointed then none
    else do
      let ds ← wholeDigits? whole
      let ps ← if pointed then digits? Char.isDigit places else some []
      let e ← if marked then exponent? (cs.drop (mantissa.length + 1)) else some 0
      floatOf negative (ds ++ ps) (e - ps.length)

/-! ## Moments -/

def fixedNumber (n : Nat) : Reader Nat := fun cs =>
  let ds := cs.take n
  if ds.length = n && ds.all Char.isDigit then some (valueOf 10 ds, cs.drop n) else none

def twoDigits (least greatest : Nat) : Reader Nat := fun cs =>
  (fixedNumber 2 cs).bind fun (n, rest) =>
    if least ≤ n && n ≤ greatest then some (n, rest) else none

def expectChar (c : Char) : List Char → Option (List Char)
  | d :: cs => if d = c then some cs else none
  | [] => none

def daysOf (year month : Nat) : Nat :=
  if month = 2 then
    if year % 4 = 0 && (year % 100 ≠ 0 || year % 400 = 0) then 29 else 28
  else if month = 4 || month = 6 || month = 9 || month = 11 then 30
  else 31

def dropDate (cs : List Char) : Option (List Char) := do
  let (year, cs) ← fixedNumber 4 cs
  let (month, cs) ← twoDigits 1 12 (← expectChar '-' cs)
  let (_, cs) ← twoDigits 1 (daysOf year month) (← expectChar '-' cs)
  return cs

/-- Drops a time of day; its last minute may have a second more. -/
def dropTime (cs : List Char) : Option (List Char) := do
  let (_, cs) ← twoDigits 0 23 cs
  let (_, cs) ← twoDigits 0 59 (← expectChar ':' cs)
  let (_, cs) ← twoDigits 0 60 (← expectChar ':' cs)
  match cs with
  | '.' :: rest =>
    let fraction := rest.takeWhile Char.isDigit
    if fraction.isEmpty then none else return rest.drop fraction.length
  | _ => return cs

def dropOffset (cs : List Char) : Option (List Char) :=
  match cs with
  | c :: rest =>
    if c = 'Z' || c = 'z' then some rest
    else if c = '+' || c = '-' then do
      let (_, rest) ← twoDigits 0 23 rest
      let (_, rest) ← twoDigits 0 59 (← expectChar ':' rest)
      return rest
    else none
  | [] => none

def dropTimeOffset (cs : List Char) : Option (List Char) :=
  (dropTime cs).bind fun rest => if rest.isEmpty then some [] else dropOffset rest

def momentWords (cs : List Char) : Option (Toml × List Char) :=
  let word := cs.takeWhile isWordChar
  let rest := cs.drop word.length
  match dropDate word with
  | some [] =>
    match rest with
    -- One blank may stand between a date and a time.
    | ' ' :: more =>
      let second := more.takeWhile isWordChar
      if dropTimeOffset second = some [] then some (.moment, more.drop second.length)
      else some (.moment, rest)
    | _ => some (.moment, rest)
  | some (c :: more) =>
    if (c = 'T' || c = 't') && dropTimeOffset more = some [] then some (.moment, rest) else none
  | none => if dropTime word = some [] then some (.moment, rest) else none

def scalar (cs : List Char) : Option (Toml × List Char) :=
  let word := cs.takeWhile isWordChar
  let rest := cs.drop word.length
  if word = ['t', 'r', 'u', 'e'] then some (.boolean true, rest)
  else if word = ['f', 'a', 'l', 's', 'e'] then some (.boolean false, rest)
  else
    match integer? word <|> float? word with
    | some value => some (value, rest)
    | none => momentWords cs

end Graft.Toml

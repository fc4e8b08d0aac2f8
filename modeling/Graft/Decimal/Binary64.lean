/-!
# Binary floating-point numbers as decimals

Numbers of the binary64 format as exact fractions: the one nearest to a decimal, and the shortest
decimal that is nearer to a number than to any other.
-/

namespace Graft

/-- A number of the format. A finite one is `mantissa · 2 ^ exponent`. -/
inductive Binary64 where
  | finite (negative : Bool) (mantissa : Nat) (exponent : Int)
  | infinite (negative : Bool)
  | nan
  deriving DecidableEq, Repr

structure Ratio where
  num : Nat
  den : Nat

namespace Ratio

def scaled (n base : Nat) (e : Int) : Ratio := ⟨n * base.pow e.toNat, base.pow (-e).toNat⟩

def le (a b : Ratio) : Bool := a.num * b.den ≤ b.num * a.den

def lt (a b : Ratio) : Bool := a.num * b.den < b.num * a.den

/-- The nearest whole number; of two equally near ones the even one. -/
def round (r : Ratio) : Nat :=
  let whole := r.num / r.den
  let rest := 2 * (r.num % r.den)
  if r.den < rest || (rest = r.den && whole % 2 = 1) then whole + 1 else whole

def inUnits (r : Ratio) (base : Nat) (e : Int) : Ratio :=
  ⟨r.num * base.pow (-e).toNat, r.den * base.pow e.toNat⟩

/-- The greatest `p` such that `10 ^ p` is at most the fraction, which is not zero. -/
def magnitude (r : Ratio) : Int :=
  if r.den ≤ r.num then (Nat.toDigits 10 (r.num / r.den)).length - 1
  else
    let places := (Nat.toDigits 10 (r.den / r.num)).length
    if r.den ≤ r.num * Nat.pow 10 (places - 1) then 1 - (places : Int) else -(places : Int)

end Ratio

namespace Binary64

def precision : Nat := 53

def leastExponent : Int := -1074

def greatestExponent : Int := 971

def ofMantissa (negative : Bool) (m : Nat) (e : Int) : Binary64 :=
  let (m, e) := if m = Nat.pow 2 precision then (m / 2, e + 1) else (m, e)
  if greatestExponent < e then infinite negative else finite negative m e

/-- The exponent with which a fraction that is not zero has a mantissa of full length, or the
least exponent. -/
def exponentFor (r : Ratio) : Int :=
  let e : Int := (Nat.log2 r.num : Int) - Nat.log2 r.den - (precision - 1 : Nat)
  max leastExponent (if (Ratio.scaled (Nat.pow 2 (precision - 1)) 2 e).le r then e else e - 1)

/-- The number nearest to `digits · 10 ^ scale`; of two equally near ones the one with the even
mantissa. -/
def ofDecimal (negative : Bool) (digits : Nat) (scale : Int) : Binary64 :=
  let length : Int := (Nat.toDigits 10 digits).length
  -- So far out the digits decide nothing.
  if digits = 0 || length + scale < -330 then finite negative 0 leastExponent
  else if 310 < length + scale then infinite negative
  else
    let r := Ratio.scaled digits 10 scale
    let e := exponentFor r
    ofMantissa negative (r.inUnits 2 e).round e

/-- What lies nearer to `m · 2 ^ e` than to any other number, in quarters of `2 ^ e`: from, to, and
whether the ends belong to it. -/
def neighbourhood (m : Nat) (e : Int) : Ratio × Ratio × Bool :=
  -- Below a power of two the numbers lie twice as close.
  let below := if m = Nat.pow 2 (precision - 1) && leastExponent < e then 1 else 2
  (.scaled (4 * m - below) 2 (e - 2), .scaled (4 * m + 2) 2 (e - 2), m % 2 = 0)

def decimalWith? (m : Nat) (e : Int) (places : Nat) : Option (Nat × Int) :=
  let value := Ratio.scaled m 2 e
  let scale := value.magnitude - (places - 1 : Nat)
  let (low, high, closed) := neighbourhood m e
  let inside (d : Nat) : Bool :=
    let x := Ratio.scaled d 10 scale
    if closed then low.le x && x.le high else low.lt x && x.lt high
  let lower := (value.inUnits 10 scale).num / (value.inUnits 10 scale).den
  match inside lower, inside (lower + 1) with
  | false, false => none
  | true, false => some (lower, scale)
  | false, true => some (lower + 1, scale)
  -- Both fit: the nearer one is taken, the lower one of two equally near.
  | true, true =>
    some (if (Ratio.scaled (2 * lower + 1) 10 scale).lt (.scaled (2 * m) 2 e) then lower + 1
      else lower, scale)

/-- The shortest decimal in the neighbourhood of `m · 2 ^ e`. Seventeen digits always suffice. -/
def shortest (m : Nat) (e : Int) : Nat × Int :=
  ((List.range 17).findSome? fun n => decimalWith? m e (n + 1)).getD (0, 0)

def positional (digits : Nat) (scale : Int) : String :=
  let ds := Nat.toDigits 10 digits
  if 0 ≤ scale then .ofList (ds ++ List.replicate scale.toNat '0')
  else
    let places := (-scale).toNat
    let ds := List.replicate (places + 1 - ds.length) '0' ++ ds
    .ofList (ds.take (ds.length - places) ++ '.' :: ds.drop (ds.length - places))

def isFinite : Binary64 → Bool
  | finite .. => true
  | _ => false

def text : Binary64 → String
  | nan => "NaN"
  | infinite negative => (if negative then "-" else "") ++ "inf"
  | finite negative m e =>
    (if negative then "-" else "") ++
      if m = 0 then "0"
      else
        let (digits, scale) := shortest m e
        positional digits scale

/-- The shortest text of a number in which a finite one has a decimal point. -/
def pointedText (x : Binary64) : String :=
  if x.isFinite && !x.text.contains '.' then x.text ++ ".0" else x.text

end Binary64

end Graft

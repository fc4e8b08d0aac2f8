import Graft.Text.CodePoints

/-!
# Classes of characters

The predicates that decide where words, blanks and names begin and end, and blank trimming.
-/

namespace Graft

/-- Blank characters (the Unicode property `White_Space`). -/
def isBlank (c : Char) : Bool :=
  c = ' ' || (9 ≤ c.toNat && c.toNat ≤ 13) || c.toNat = 0x85 || c.toNat = 0xA0 ||
    c.toNat = 0x1680 || (0x2000 ≤ c.toNat && c.toNat ≤ 0x200A) || c.toNat = 0x2028 ||
    c.toNat = 0x2029 || c.toNat = 0x202F || c.toNat = 0x205F || c.toNat = 0x3000

def isAscii (c : Char) : Bool := c.toNat < 128

def isAlphanumeric (c : Char) : Bool :=
  if isAscii c then c.isAlphanum else CodePoints.alphanumeric.contains c

def isLowercase (c : Char) : Bool :=
  if isAscii c then c.isLower else CodePoints.lowercase.contains c

def isIdentStart (c : Char) : Bool :=
  if isAscii c then c.isAlpha || c = '_' else CodePoints.identifierStart.contains c

def isIdentContinue (c : Char) : Bool :=
  if isAscii c then c.isAlphanum || c = '_' else CodePoints.identifierContinue.contains c

def isHexDigit (c : Char) : Bool :=
  c.isDigit || ('a' ≤ c && c ≤ 'f') || ('A' ≤ c && c ≤ 'F')

def hexDigitValue (c : Char) : Nat :=
  if c.isDigit then c.toNat - '0'.toNat
  else if 'a' ≤ c && c ≤ 'f' then c.toNat - 'a'.toNat + 10
  else if 'A' ≤ c && c ≤ 'F' then c.toNat - 'A'.toNat + 10
  else 0

def startsWith (s : String) (cs : List Char) : Bool := s.toList.isPrefixOf cs

def trimBlanks (cs : List Char) : List Char :=
  ((cs.dropWhile isBlank).reverse.dropWhile isBlank).reverse

/-- Lower-cases a character for use in a name of ASCII letters. The two characters outside ASCII
whose lower case holds an ASCII letter have it; every other one stays as it is. -/
def lowercaseAscii (c : Char) : List Char :=
  if c.toNat = 0x212A then ['k']
  else if c.toNat = 0x130 then ['i', Char.ofNat 0x307]
  else [c.toLower]

end Graft

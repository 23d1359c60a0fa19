/-! # Text

Blank characters, the trimming of text and the digits of base sixteen, on characters and lists of
them. -/

namespace PointsTo.Text

def isBlank (c : Char) : Bool :=
  let n := c.toNat
  (0x09 ≤ n && n ≤ 0x0d) || (0x2000 ≤ n && n ≤ 0x200a) ||
    [0x20, 0x85, 0xa0, 0x1680, 0x2028, 0x2029, 0x202f, 0x205f, 0x3000].contains n

/-- Removes the characters at both ends that satisfy a test. -/
def strip (test : Char → Bool) (cs : List Char) : List Char :=
  (((cs.dropWhile test).reverse).dropWhile test).reverse

def trim (cs : List Char) : List Char := strip isBlank cs

def hexDigit? (c : Char) : Option Nat :=
  if c.isDigit then some (c.toNat - '0'.toNat)
  else if 'a' ≤ c && c ≤ 'f' then some (c.toNat - 'a'.toNat + 10)
  else if 'A' ≤ c && c ≤ 'F' then some (c.toNat - 'A'.toNat + 10)
  else none

end PointsTo.Text

import PointsTo.Json

/-! # Numbers in JSON text

The form of a number and its range. The magnitude of a number that is not whole, or not of 64 bits, is a
whole number of 64 bits made of its leading digits, times a power of ten. Both factors are rounded to the
precision of a double before they are multiplied, and a product beyond the finite doubles is out of
range. -/

namespace PointsTo.Json.Number

def digit (c : Char) : Nat := c.toNat - '0'.toNat

def digits (cs : List Char) : Nat := cs.foldl (fun n c => n * 10 + digit c) 0

/-- A literal cut into sign, whole digits, digits after the point and exponent. -/
structure Parts where
  negative : Bool
  whole : List Char
  fraction : Option (List Char)
  exponent : Option (Bool × List Char)

/-- Cuts a literal and checks its form: no leading zero, and a digit wherever one is due. -/
def parts? (cs : List Char) : Option Parts :=
  let (negative, cs) := match cs with
    | '-' :: rest => (true, rest)
    | _ => (false, cs)
  let (whole, cs) := (cs.takeWhile Char.isDigit, cs.dropWhile Char.isDigit)
  let (fraction, cs) := match cs with
    | '.' :: rest => (some (rest.takeWhile Char.isDigit), rest.dropWhile Char.isDigit)
    | _ => (none, cs)
  let (exponent, cs) := match cs with
    | c :: rest =>
      if c == 'e' || c == 'E' then
        let (minus, rest) := match rest with
          | '-' :: r => (true, r)
          | '+' :: r => (false, r)
          | _ => (false, rest)
        (some (minus, rest.takeWhile Char.isDigit), rest.dropWhile Char.isDigit)
      else (none, cs)
    | [] => (none, cs)
  if !cs.isEmpty || whole.isEmpty || (whole.length > 1 && whole.head? == some '0')
      || fraction == some [] || exponent.any (·.2.isEmpty) then none
  else some ⟨negative, whole, fraction, exponent⟩

/-- The first number that needs more than 64 bits. -/
def wordLimit : Nat := 0x10000000000000000

/-- Appends digits to a number as long as it fits 64 bits; the number and the digits left. -/
def gather (n : Nat) : List Char → Nat × List Char
  | [] => (n, [])
  | c :: rest =>
    if n * 10 + digit c < wordLimit then gather (n * 10 + digit c) rest else (n, c :: rest)

/-- The leading digits and the power of ten that they are multiplied with. Whole digits that do not fit
raise the power, and those after the point lower it as far as they fit. -/
def scaled (p : Parts) : Nat × Int :=
  let fraction := p.fraction.getD []
  let (n, above) := gather 0 p.whole
  let (n, below) := gather n fraction
  let written : Int := match p.exponent with
    | none => 0
    | some (minus, ds) => if minus then - (digits ds : Int) else digits ds
  (n, written + above.length - (fraction.length - below.length : Nat))

/-- Rounds to the 53 binary digits of a double, a half to the even neighbour. -/
def round (n : Nat) : Nat :=
  let unit := Nat.pow 2 (n.log2 - 52)
  let q := n / unit
  let twice := 2 * (n % unit)
  if unit < twice || (twice == unit && q % 2 == 1) then (q + 1) * unit else q * unit

/-- The first magnitude that rounds to no finite double. -/
def doubleLimit : Nat := Nat.pow 2 1024 - Nat.pow 2 970

/-- The greatest power of ten among the doubles. -/
def maxPower : Int := 308

def overflows (p : Parts) : Bool :=
  let (n, e) := scaled p
  n != 0 && (maxPower < e || (0 ≤ e && doubleLimit ≤ round n * round (Nat.pow 10 e.toNat)))

/-- The number that a literal stands for, unless it is out of range. A negative zero is no integer. -/
def value? (literal : List Char) (p : Parts) : Option Json :=
  let n := digits p.whole
  let whole := p.fraction.isNone && p.exponent.isNone
  if whole && !p.negative && n < wordLimit then some (.int n)
  else if whole && p.negative && 0 < n && n ≤ 0x8000000000000000 then some (.int (-n))
  else if overflows p then none
  else some (.real (String.ofList literal))

end PointsTo.Json.Number

import PointsTo.Json.Number
import PointsTo.Text
import PointsTo.Toml

/-! # Numbers, truth values and times in TOML documents

The values that are written as a word: letters, digits and a few signs. -/

namespace PointsTo.Toml

def isWordChar (c : Char) : Bool :=
  c.isAlphanum || c == '+' || c == '-' || c == '_' || c == '.' || c == ':'

/-- Digits in a base with single underscores between them, most significant first. -/
def digits? (base : Nat) (cs : List Char) : Option (List Nat) :=
  let groups := (String.ofList cs).splitOn "_"
  if groups.any String.isEmpty then none
  else (cs.filter (· != '_')).mapM fun c => (Text.hexDigit? c).filter (· < base)

def ofDigits (base : Nat) (ds : List Nat) : Nat := ds.foldl (fun n d => n * base + d) 0

def decimal? (cs : List Char) : Option (List Nat) :=
  (digits? 10 cs).filter fun ds => ds.length ≤ 1 || ds.head? != some 0

def signed : List Char → Bool × List Char
  | '-' :: rest => (true, rest)
  | '+' :: rest => (false, rest)
  | cs => (false, cs)

/-- An integer of 64 bits: decimal with or without a sign, or in base sixteen, eight or two. -/
def integer? (cs : List Char) : Option Int := do
  let n : Int ← match cs with
    | '0' :: 'x' :: rest => do some (ofDigits 16 (← digits? 16 rest) : Int)
    | '0' :: 'o' :: rest => do some (ofDigits 8 (← digits? 8 rest) : Int)
    | '0' :: 'b' :: rest => do some (ofDigits 2 (← digits? 2 rest) : Int)
    | _ => do
      let (negative, rest) := signed cs
      let n : Int := ofDigits 10 (← decimal? rest)
      some (if negative then -n else n)
  if -0x8000000000000000 ≤ n && n < 0x8000000000000000 then some n else none

/-- Whether digits times a power of ten lie beyond the finite doubles. Powers far from the limit are
settled by counting digits. -/
def isInfinite (ds : List Nat) (e : Int) : Bool :=
  let ds := ds.dropWhile (· == 0)
  let n := ofDigits 10 ds
  let size : Int := ds.length + e
  if ds.isEmpty || size < 308 then false
  else if 310 < size then true
  else if 0 ≤ e then Json.Number.doubleLimit ≤ n * Nat.pow 10 e.toNat
  else Json.Number.doubleLimit * Nat.pow 10 (-e).toNat ≤ n

def exponent? (cs : List Char) : Option Int := do
  let (negative, rest) := signed cs
  let n : Int := ofDigits 10 (← digits? 10 rest)
  some (if negative then -n else n)

/-- Whether a word is a float: with a fraction, an exponent or both, or a name for what is no number.
A literal above all doubles is none. -/
def isFloat (cs : List Char) : Bool :=
  let (negative, rest) := signed cs
  let isMark := fun c => c == 'e' || c == 'E'
  let mantissa := rest.takeWhile (!isMark ·)
  let whole := mantissa.takeWhile (· != '.')
  let fraction := match mantissa.dropWhile (· != '.') with
    | [] => some none
    | _ :: ds => (digits? 10 ds).map some
  let exponent := match rest.dropWhile (!isMark ·) with
    | [] => some none
    | _ :: ds => (exponent? ds).map some
  if rest == "inf".toList || rest == "nan".toList then true
  else match decimal? whole, fraction, exponent with
    | some _, some none, some none => false
    | some ds, some fraction, some exponent =>
      let fraction := fraction.getD []
      negative || !isInfinite (ds ++ fraction) (exponent.getD 0 - fraction.length)
    | _, _, _ => false

def field? (width : Nat) (cs : List Char) : Option Nat :=
  if cs.length = width && cs.all Char.isDigit then some (Json.Number.digits cs) else none

def daysIn (year month : Nat) : Nat :=
  if month = 2 then
    if year % 4 = 0 && (year % 100 != 0 || year % 400 = 0) then 29 else 28
  else if [4, 6, 9, 11].contains month then 30
  else 31

def isDate (cs : List Char) : Bool :=
  match cs with
  | [y, z, x, w, '-', m, n, '-', d, e] =>
    match field? 4 [y, z, x, w], field? 2 [m, n], field? 2 [d, e] with
    | some year, some month, some day =>
      1 ≤ month && month ≤ 12 && 1 ≤ day && day ≤ daysIn year month
    | _, _, _ => false
  | _ => false

def isHourMinute (cs : List Char) : Bool :=
  match cs with
  | [h, i, ':', m, n] => (field? 2 [h, i]).any (· < 24) && (field? 2 [m, n]).any (· < 60)
  | _ => false

/-- Whether a word is a time of day; a second may be a leap second and have a fraction. -/
def isClock (cs : List Char) : Bool :=
  isHourMinute (cs.take 5) && (cs.drop 5).head? == some ':' && (field? 2 ((cs.drop 6).take 2)).any (· ≤ 60)
    && match cs.drop 8 with
      | [] => true
      | '.' :: ds => !ds.isEmpty && ds.all Char.isDigit
      | _ => false

/-- Whether a word is a time of day with the offset that may follow it. -/
def isZonedClock (cs : List Char) : Bool :=
  let clock := cs.takeWhile fun c => c.isDigit || c == ':' || c == '.'
  isClock clock && match cs.drop clock.length with
    | [] | ['Z'] | ['z'] => true
    | '+' :: offset | '-' :: offset => isHourMinute offset
    | _ => false

/-- Whether a word is a time: a day, a time of day, or both. -/
def isTime (cs : List Char) : Bool :=
  isDate cs || isClock cs || (isDate (cs.take 10) && match cs.drop 10 with
    | 'T' :: rest | 't' :: rest => isZonedClock rest
    | _ => false)

def ofWord? (cs : List Char) : Option Toml :=
  if cs == "true".toList then some (.bool true)
  else if cs == "false".toList then some (.bool false)
  else if isTime cs then some (.time (String.ofList cs))
  else if isFloat cs then some (.float (String.ofList cs))
  else (integer? cs).map .int

/-- A value that is written as a word. A blank may stand between a day and a time of day. -/
def scalar? (cs : List Char) : Option (Toml × List Char) :=
  let word := cs.takeWhile isWordChar
  let rest := cs.dropWhile isWordChar
  match isDate word, rest with
  | true, ' ' :: c :: rest =>
    if c.isDigit then
      let clock := c :: rest.takeWhile isWordChar
      if isZonedClock clock then
        some (.time (String.ofList (word ++ ' ' :: clock)), rest.dropWhile isWordChar)
      else none
    else some (.time (String.ofList word), ' ' :: c :: rest)
  | _, _ => (ofWord? word).map (·, rest)

end PointsTo.Toml

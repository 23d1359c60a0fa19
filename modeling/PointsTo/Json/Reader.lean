import PointsTo.Json.Number
import PointsTo.Text

/-! # Reading JSON text

Text is cut into tokens by a character machine, and tokens are assembled by a stack of open
containers. Both are folds, so reading always ends. The grammar is strict: nothing but blanks may
surround the value, and an unpaired surrogate escape, a number out of range and nesting beyond the
limit are refused. An outline says which values are read; the others are passed over, and only their
form has to be right. -/

namespace PointsTo.Json

inductive Token where
  | openArr | closeArr | openObj | closeObj | colon | comma
  | str (value : String)
  | value (value : Json)
  /-- A string with an unpaired surrogate. -/
  | unpaired
  /-- A number that no double comes near. -/
  | outOfRange

/-- A string under way: its characters in reverse, and whether every surrogate so far has its pair. -/
structure Draft where
  chars : List Char := []
  paired : Bool := true

namespace Draft

def push (d : Draft) (c : Char) : Draft := { d with chars := c :: d.chars }

def unpaired (d : Draft) : Draft := { d with paired := false }

def token (d : Draft) : Token := if d.paired then .str (String.ofList d.chars.reverse) else .unpaired

end Draft

/-- Where the character machine stands. The characters of a bare word are kept in reverse. -/
inductive Scan where
  | idle
  | text (draft : Draft)
  | escape (draft : Draft)
  | hex (left : Nat) (code : Nat) (high : Option Nat) (draft : Draft)
  | lowMark (high : Nat) (draft : Draft)
  | lowLetter (high : Nat) (draft : Draft)
  | bare (acc : List Char)

namespace Scan

def bareToken? (acc : List Char) : Option Token :=
  let cs := acc.reverse
  if cs == "null".toList then some (.value .null)
  else if cs == "true".toList then some (.value (.bool true))
  else if cs == "false".toList then some (.value (.bool false))
  else do
    let p ← Number.parts? cs
    match Number.value? cs p with
    | some j => some (.value j)
    | none => some .outOfRange

def isBare (c : Char) : Bool := c.isAlphanum || c == '-' || c == '+' || c == '.'

def start (c : Char) (out : List Token) : Option (Scan × List Token) :=
  if c == ' ' || c == '\t' || c == '\n' || c == '\r' then some (.idle, out)
  else if c == '[' then some (.idle, .openArr :: out)
  else if c == ']' then some (.idle, .closeArr :: out)
  else if c == '\x7b' then some (.idle, .openObj :: out)
  else if c == '\x7d' then some (.idle, .closeObj :: out)
  else if c == ':' then some (.idle, .colon :: out)
  else if c == ',' then some (.idle, .comma :: out)
  else if c == '"' then some (.text {}, out)
  else if isBare c then some (.bare [c], out)
  else none

/-- A finished escape of four digits: a character, the first half of a pair, or its second half. -/
def unit (code : Nat) (high : Option Nat) (d : Draft) : Scan :=
  let isLow := 0xDC00 ≤ code && code ≤ 0xDFFF
  match high with
  | some h =>
    if isLow then .text (d.push (Char.ofNat (0x10000 + (h - 0xD800) * 0x400 + (code - 0xDC00))))
    else .text d.unpaired
  | none =>
    if 0xD800 ≤ code && code ≤ 0xDBFF then .lowMark code d
    else if isLow then .text d.unpaired
    else .text (d.push (Char.ofNat code))

def inText (c : Char) (d : Draft) (out : List Token) : Option (Scan × List Token) :=
  if c == '"' then some (.idle, d.token :: out)
  else if c == '\\' then some (.escape d, out)
  else if c.toNat < 0x20 then none
  else some (.text (d.push c), out)

def inEscape (c : Char) (d : Draft) : Option Scan :=
  match c with
  | '"' => some (.text (d.push '"'))
  | '\\' => some (.text (d.push '\\'))
  | '/' => some (.text (d.push '/'))
  | 'b' => some (.text (d.push '\x08'))
  | 'f' => some (.text (d.push '\x0c'))
  | 'n' => some (.text (d.push '\n'))
  | 'r' => some (.text (d.push '\r'))
  | 't' => some (.text (d.push '\t'))
  | 'u' => some (.hex 4 0 none d)
  | _ => none

/-- The character machine's step; finished tokens are added to `out`. -/
def step (s : Scan) (c : Char) (out : List Token) : Option (Scan × List Token) :=
  match s with
  | .idle => start c out
  | .text d => inText c d out
  | .escape d => (inEscape c d).map (·, out)
  | .hex left code high d => do
    let code := code * 16 + (← Text.hexDigit? c)
    if left ≤ 1 then some (unit code high d, out) else some (.hex (left - 1) code high d, out)
  | .lowMark high d => if c == '\\' then some (.lowLetter high d, out) else inText c d.unpaired out
  | .lowLetter high d =>
    if c == 'u' then some (.hex 4 0 (some high) d, out) else (inEscape c d.unpaired).map (·, out)
  | .bare acc =>
    if isBare c then some (.bare (c :: acc), out)
    else do start c ((← bareToken? acc) :: out)

def finish (s : Scan) (out : List Token) : Option (List Token) :=
  match s with
  | .idle => some out.reverse
  | .bare acc => do some ((← bareToken? acc) :: out).reverse
  | _ => none

end Scan

def tokens? (text : String) : Option (List Token) := do
  let (s, out) ← text.toList.foldlM (fun (s, out) c => Scan.step s c out) (Scan.idle, [])
  s.finish out

/-- Which values of a document are read. A value that is read has a place, and a value without one is
passed over: its surrogates, the size of its numbers and its nesting do not matter. -/
structure Outline (σ : Type) where
  root : σ
  field : σ → String → Option σ
  item : σ → Option σ

namespace Outline

def whole : Outline Unit := ⟨(), fun _ _ => some (), fun _ => some ()⟩

/-- Everything is read but the unknown fields of the document itself. -/
def record (known : List String) : Outline Bool where
  root := true
  field isRoot key := if isRoot && !known.contains key then none else some false
  item _ := some false

end Outline

inductive Frame (σ : Type) where
  | arr (place : Option σ) (items : List Json)
  | obj (place : Option σ) (fields : List (String × Json)) (key : String)

inductive Expect where
  | value | valueOrClose | key | keyOrClose | colon | separator
  | done (value : Json)

section Assembly

variable {σ : Type} (o : Outline σ) (limit : Nat)

/-- Hands a finished value to the innermost container. -/
def deliver (j : Json) : List (Frame σ) → List (Frame σ) × Expect
  | [] => ([], .done j)
  | .arr place items :: rest => (.arr place (j :: items) :: rest, .separator)
  | .obj place fields key :: rest => (.obj place ((key, j) :: fields) "" :: rest, .separator)

def nextPlace : List (Frame σ) → Option σ
  | [] => some o.root
  | .arr place _ :: _ => place.bind o.item
  | .obj place _ key :: _ => place.bind (o.field · key)

/-- A token where a value may start. The containers around a value that is read are all read
themselves, so their number is its depth. -/
def startValue (stack : List (Frame σ)) (t : Token) : Option (List (Frame σ) × Expect) :=
  let place := nextPlace o stack
  let fits := place.isNone || stack.length < limit
  match t with
  | .value j => some (deliver j stack)
  | .str s => some (deliver (.str s) stack)
  | .unpaired | .outOfRange => if place.isNone then some (deliver .null stack) else none
  | .openArr => if fits then some (.arr place [] :: stack, .valueOrClose) else none
  | .openObj => if fits then some (.obj place [] "" :: stack, .keyOrClose) else none
  | _ => none

def closeTop : List (Frame σ) → Token → Option (List (Frame σ) × Expect)
  | .arr _ items :: rest, .closeArr => some (deliver (.arr items.reverse) rest)
  | .obj _ fields _ :: rest, .closeObj => some (deliver (.obj fields.reverse) rest)
  | _, _ => none

def takeKey : List (Frame σ) → Token → Option (List (Frame σ) × Expect)
  | .obj place fields _ :: rest, .str k => some (.obj place fields k :: rest, .colon)
  | .obj none fields _ :: rest, .unpaired => some (.obj none fields "" :: rest, .colon)
  | _, _ => none

def assemble (stack : List (Frame σ)) (expect : Expect) (t : Token) : Option (List (Frame σ) × Expect) :=
  match expect with
  | .value => startValue o limit stack t
  | .valueOrClose => (closeTop stack t) <|> (startValue o limit stack t)
  | .key => takeKey stack t
  | .keyOrClose => (closeTop stack t) <|> (takeKey stack t)
  | .colon => match t with
    | .colon => some (stack, .value)
    | _ => none
  | .separator => match t with
    | .comma => match stack with
      | .arr _ _ :: _ => some (stack, .value)
      | .obj _ _ _ :: _ => some (stack, .key)
      | [] => none
    | _ => closeTop stack t
  | .done _ => none

/-- The value a text stands for, with the containers that are read nested at most `limit` deep. -/
def parse? (text : String) : Option Json := do
  let ts ← tokens? text
  let (_, expect) ← ts.foldlM (fun (stack, expect) t => assemble o limit stack expect t)
    ([], Expect.value)
  match expect with
  | .done j => some j
  | _ => none

end Assembly

def maxDepth : Nat := 127

end PointsTo.Json

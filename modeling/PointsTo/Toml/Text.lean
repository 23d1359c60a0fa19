import PointsTo.Text

/-! # Text in TOML documents

Blanks, comments, the ends of lines, strings and keys. Every function takes the characters in front of
it and gives what it read together with the characters that follow. -/

namespace PointsTo.Toml

def isBlank (c : Char) : Bool := c == ' ' || c == '\t'

/-- Whether a character may stand for itself in a comment: anything but a control. -/
def isPlain (c : Char) : Bool := c == '\t' || (0x20 ≤ c.toNat && c.toNat != 0x7f)

def skipBlanks (cs : List Char) : List Char := cs.dropWhile isBlank

def newline? : List Char → Option (List Char)
  | '\n' :: rest => some rest
  | '\r' :: '\n' :: rest => some rest
  | _ => none

def skipComment : List Char → List Char
  | '#' :: rest => rest.dropWhile isPlain
  | cs => cs

/-- What follows the end of a line, which may be the end of the document. A comment may stand before
it. -/
def lineEnd? (cs : List Char) : Option (List Char) :=
  match skipComment (skipBlanks cs) with
  | [] => some []
  | cs => newline? cs

def skipLines : List Char → List Char
  | [] => []
  | '\r' :: '\n' :: rest => skipLines rest
  | c :: rest => if isBlank c || c == '\n' then skipLines rest else c :: rest

def codeChar? (n : Nat) (cs : List Char) : Option (Char × List Char) := do
  let ds ← (cs.take n).mapM Text.hexDigit?
  let code := ds.foldl (fun a d => a * 16 + d) 0
  if ds.length = n && (code < 0xD800 || (0xDFFF < code && code < 0x110000)) then
    some (Char.ofNat code, cs.drop n)
  else none

/-- The character that an escape stands for, after the backslash. -/
def escape? : List Char → Option (Char × List Char)
  | 'b' :: rest => some ('\x08', rest)
  | 'f' :: rest => some ('\x0c', rest)
  | 'n' :: rest => some ('\n', rest)
  | 'r' :: rest => some ('\r', rest)
  | 't' :: rest => some ('\t', rest)
  | '"' :: rest => some ('"', rest)
  | '\\' :: rest => some ('\\', rest)
  | 'u' :: rest => codeChar? 4 rest
  | 'U' :: rest => codeChar? 8 rest
  | _ => none

/-- A string on one line with escapes, after its opening quote. Every step takes at least one
character, so the number of characters is fuel enough. -/
def basic? : Nat → List Char → List Char → Option (String × List Char)
  | 0, _, _ => none
  | _, _, [] => none
  | fuel + 1, acc, c :: rest =>
    if c == '"' then some (String.ofList acc.reverse, rest)
    else if c == '\\' then do
      let (e, rest) ← escape? rest
      basic? fuel (e :: acc) rest
    else if isPlain c then basic? fuel (c :: acc) rest
    else none

/-- What follows a backslash, blanks and a line break: the next text, wherever it stands. -/
def continuation? (cs : List Char) : Option (List Char) := (newline? (skipBlanks cs)).map skipLines

/-- A string over several lines with escapes, after its opening quotes. Up to two quotes may stand
before the closing ones, and a backslash at the end of a line joins it with the next text. -/
def basicBlock? : Nat → List Char → List Char → Option (String × List Char)
  | 0, _, _ => none
  | _, acc, '"' :: '"' :: '"' :: '"' :: '"' :: rest => some (String.ofList ('"' :: '"' :: acc).reverse, rest)
  | _, acc, '"' :: '"' :: '"' :: '"' :: rest => some (String.ofList ('"' :: acc).reverse, rest)
  | _, acc, '"' :: '"' :: '"' :: rest => some (String.ofList acc.reverse, rest)
  | fuel + 1, acc, '\\' :: rest =>
    match continuation? rest with
    | some rest => basicBlock? fuel acc rest
    | none => do
      let (e, rest) ← escape? rest
      basicBlock? fuel (e :: acc) rest
  | fuel + 1, acc, cs =>
    match newline? cs, cs with
    | some rest, _ => basicBlock? fuel ('\n' :: acc) rest
    | none, c :: rest => if isPlain c then basicBlock? fuel (c :: acc) rest else none
    | none, [] => none

/-- A string on one line without escapes, after its opening quote. -/
def literal? (cs : List Char) : Option (String × List Char) :=
  let inside := fun c => isPlain c && c != '\x27'
  match cs.dropWhile inside with
  | '\x27' :: rest => some (String.ofList (cs.takeWhile inside), rest)
  | _ => none

/-- A string over several lines without escapes, after its opening quotes. -/
def literalBlock? (acc : List Char) : List Char → Option (String × List Char)
  | '\x27' :: '\x27' :: '\x27' :: '\x27' :: '\x27' :: rest =>
    some (String.ofList ('\x27' :: '\x27' :: acc).reverse, rest)
  | '\x27' :: '\x27' :: '\x27' :: '\x27' :: rest => some (String.ofList ('\x27' :: acc).reverse, rest)
  | '\x27' :: '\x27' :: '\x27' :: rest => some (String.ofList acc.reverse, rest)
  | '\r' :: '\n' :: rest => literalBlock? ('\n' :: acc) rest
  | '\n' :: rest => literalBlock? ('\n' :: acc) rest
  | c :: rest => if isPlain c then literalBlock? (c :: acc) rest else none
  | [] => none

/-- A string of any form; a line break right behind the quotes of a block is dropped. -/
def string? : List Char → Option (String × List Char)
  | '"' :: '"' :: '"' :: rest => basicBlock? (rest.length + 1) [] ((newline? rest).getD rest)
  | '"' :: rest => basic? (rest.length + 1) [] rest
  | '\x27' :: '\x27' :: '\x27' :: rest => literalBlock? [] ((newline? rest).getD rest)
  | '\x27' :: rest => literal? rest
  | _ => none

def isKeyChar (c : Char) : Bool := c.isAlphanum || c == '_' || c == '-'

/-- One part of a key: a bare word, or a string on one line. -/
def keyPart? : List Char → Option (String × List Char)
  | '"' :: rest => basic? (rest.length + 1) [] rest
  | '\x27' :: rest => literal? rest
  | cs =>
    let word := cs.takeWhile isKeyChar
    if word.isEmpty then none else some (String.ofList word, cs.dropWhile isKeyChar)

/-- A key of at most so many parts with dots between them, and the blanks around it. -/
def key? : Nat → List Char → Option (List String × List Char)
  | 0, _ => none
  | limit + 1, cs => do
    let (part, rest) ← keyPart? (skipBlanks cs)
    match skipBlanks rest with
    | '.' :: rest => do
      let (parts, rest) ← key? limit rest
      some (part :: parts, rest)
    | rest => some ([part], rest)

end PointsTo.Toml

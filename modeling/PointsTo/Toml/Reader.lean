import PointsTo.Toml.Scalar
import PointsTo.Toml.Text

/-! # Reading TOML documents

A document is read line by line into a draft, which remembers how each table came about: a table may be
opened by a header only once, and dotted keys extend only tables that dotted keys made. -/

namespace PointsTo.Toml

inductive Origin where
  /-- By a header of its own, or as the document itself. -/
  | header
  /-- As a table around one with a header. -/
  | implied
  /-- By a dotted key. -/
  | dotted
deriving DecidableEq

/-- What stands under a key while a document is read. -/
inductive Draft where
  /-- A value that nothing can be added to. -/
  | closed (value : Toml)
  | table (origin : Origin) (entries : List (String × Draft))
  /-- Tables with headers of their own, the last one first. -/
  | series (tables : List (List (String × Draft)))

namespace Draft

mutual

def freeze : Draft → Toml
  | .closed value => value
  | .table _ entries => .table (freezeAll entries)
  | .series tables => .arr (freezeTables tables).reverse

def freezeAll : List (String × Draft) → List (String × Toml)
  | [] => []
  | (key, d) :: rest => (key, freeze d) :: freezeAll rest

def freezeTables : List (List (String × Draft)) → List Toml
  | [] => []
  | entries :: rest => .table (freezeAll entries) :: freezeTables rest

end

def find? (entries : List (String × Draft)) (key : String) : Option Draft := entries.lookup key

def put (entries : List (String × Draft)) (key : String) (d : Draft) : List (String × Draft) :=
  entries.filter (·.1 != key) ++ [(key, d)]

/-- Changes the entries of the table at the end of a path. A missing table is made with the given
origin. Dotted keys do not pass through a table with a header, nor end anywhere but in a table of their
own. -/
def descend (made : Origin) (change : List (String × Draft) → Option (List (String × Draft))) :
    List String → List (String × Draft) → Option (List (String × Draft))
  | [], entries => change entries
  | key :: path, entries => do
    let ends := made = .dotted && path.isEmpty
    match (find? entries key).getD (.table made []) with
    | .closed _ => none
    | .table origin inner =>
      if made = .dotted && (origin = .header || (ends && origin != .dotted)) then none
      else some (put entries key (.table origin (← descend made change path inner)))
    | .series (inner :: tables) =>
      if ends then none
      else some (put entries key (.series ((← descend made change path inner) :: tables)))
    | .series [] => none

def add (key : String) (value : Toml) (entries : List (String × Draft)) : Option (List (String × Draft)) :=
  if (find? entries key).isSome then none else some (put entries key (.closed value))

def addUnder (key : List String) (value : Toml) (entries : List (String × Draft)) :
    Option (List (String × Draft)) := do
  descend .dotted (add (← key.getLast?) value) key.dropLast entries

def openTable (key : String) (entries : List (String × Draft)) : Option (List (String × Draft)) :=
  match find? entries key with
  | none => some (put entries key (.table .header []))
  | some (.table .implied inner) => some (put entries key (.table .header inner))
  | some _ => none

def openSeries (key : String) (entries : List (String × Draft)) : Option (List (String × Draft)) :=
  match find? entries key with
  | none => some (put entries key (.series [[]]))
  | some (.series tables) => some (put entries key (.series ([] :: tables)))
  | some _ => none

end Draft

/-- Skips blanks, line breaks and comments inside an array. -/
def skipFiller : Nat → List Char → List Char
  | 0, cs => cs
  | fuel + 1, cs =>
    match skipLines cs with
    | '#' :: rest => match newline? (skipComment ('#' :: rest)) with
      | some rest => skipFiller fuel rest
      | none => '#' :: rest
    | cs => cs

mutual

/-- A value with at most `depth` containers around its parts. Between two characters taken there are at
most two calls, so twice the number of characters is fuel enough. -/
def value? : Nat → Nat → List Char → Option (Toml × List Char)
  | 0, _, _ => none
  | fuel + 1, depth, cs =>
    match cs, depth with
    | '[' :: rest, depth + 1 => do
      let (items, rest) ← items? fuel depth rest
      some (.arr items, rest)
    | '\x7b' :: rest, depth + 1 =>
      match skipBlanks rest with
      | '\x7d' :: rest => some (.table [], rest)
      | _ => do
        let (entries, rest) ← pairs? fuel depth [] rest
        some (.table (Draft.freezeAll entries), rest)
    | '"' :: _, _ | '\x27' :: _, _ => (string? cs).map fun (s, rest) => (.str s, rest)
    | cs, _ => scalar? cs

def items? : Nat → Nat → List Char → Option (List Toml × List Char)
  | 0, _, _ => none
  | fuel + 1, depth, cs =>
    match skipFiller cs.length cs with
    | ']' :: rest => some ([], rest)
    | cs => do
      let (item, rest) ← value? fuel depth cs
      match skipFiller rest.length rest with
      | ']' :: rest => some ([item], rest)
      | ',' :: rest => do
        let (items, rest) ← items? fuel depth rest
        some (item :: items, rest)
      | _ => none

def pairs? : Nat → Nat → List (String × Draft) → List Char → Option (List (String × Draft) × List Char)
  | 0, _, _, _ => none
  | fuel + 1, depth, entries, cs => do
    let (key, rest) ← key? maxDepth cs
    match rest with
    | '=' :: rest => do
      let (value, rest) ← value? fuel depth (skipBlanks rest)
      let entries ← Draft.addUnder key value entries
      match skipBlanks rest with
      | '\x7d' :: rest => some (entries, rest)
      | ',' :: rest => pairs? fuel depth entries rest
      | _ => none
    | _ => none

end

/-- A document under way: its entries and the path of the table that is open. -/
structure Document where
  entries : List (String × Draft) := []
  path : List String := []

namespace Document

def add (d : Document) (key : List String) (value : Toml) : Option Document := do
  some { d with entries := ← Draft.descend .implied (Draft.addUnder key value) d.path d.entries }

def enter (d : Document) (change : String → List (String × Draft) → Option (List (String × Draft)))
    (key : List String) : Option Document := do
  some { entries := ← Draft.descend .implied (change (← key.getLast?)) key.dropLast d.entries, path := key }

def entry? (d : Document) (cs : List Char) : Option (Document × List Char) := do
  let (key, rest) ← key? maxDepth cs
  match rest with
  | '=' :: rest => do
    let (value, rest) ← value? (2 * rest.length + 2) maxDepth (skipBlanks rest)
    some (← d.add key value, ← lineEnd? rest)
  | _ => none

/-- A header after its opening brackets, with the end of its line. -/
def header? (d : Document) (change : String → List (String × Draft) → Option (List (String × Draft)))
    (closing : List Char) (cs : List Char) : Option (Document × List Char) := do
  let (key, rest) ← key? maxDepth cs
  if closing.isPrefixOf rest then some (← d.enter change key, ← lineEnd? (rest.drop closing.length))
  else none

/-- Reads a document line by line. Every line but the last has a character, so the number of
characters is fuel enough. -/
def read? : Nat → Document → List Char → Option Document
  | 0, _, _ => none
  | fuel + 1, d, cs =>
    match skipBlanks cs with
    | [] => some d
    | '#' :: rest => do read? fuel d (← lineEnd? ('#' :: rest))
    | '[' :: '[' :: rest => do
      let (d, rest) ← d.header? Draft.openSeries [']', ']'] rest
      read? fuel d rest
    | '[' :: rest => do
      let (d, rest) ← d.header? Draft.openTable [']'] rest
      read? fuel d rest
    | cs => match newline? cs with
      | some rest => read? fuel d rest
      | none => do
        let (d, rest) ← d.entry? cs
        read? fuel d rest

end Document

/-- The entries of a document; a mark of byte order may stand in front. -/
def parse? (text : String) : Option (List (String × Toml)) := do
  let cs := match text.toList with
    | '\ufeff' :: rest => rest
    | cs => cs
  let d ← Document.read? (cs.length + 1) {} cs
  some (Draft.freezeAll d.entries)

end PointsTo.Toml

import PointsTo.Json.Reader
import PointsTo.Tree.Span

/-! # Raw nodes

The form in which a front end hands over a tree: a kind, ordered children, an optional span, and
attributes that mean something only to the kind. A raw node is written as a JSON object whose other
keys are its attributes. -/

namespace PointsTo

structure RawNode where
  kind : String
  children : List RawNode
  span : Option Span
  attrs : Std.ExtTreeMap String Json

namespace Json

def valuesOf (fields : List (String × Json)) (key : String) : List Json :=
  (fields.filter (·.1 == key)).map (·.2)

/-- The value under a key that may stand at most once; a second one is an error. -/
def atMostOne? (fields : List (String × Json)) (key : String) : Option (Option Json) :=
  match valuesOf fields key with
  | [] => some none
  | [j] => some (some j)
  | _ => none

def word32? : Json → Option Nat := natBelow? 0x100000000

end Json

namespace Span

def fieldNames : List String := ["line", "column", "end_line", "end_column"]

/-- Coordinates in order; the last two may be missing. -/
def ofCoordinates? : List Json → Option Span
  | [l, c] => do some ⟨← l.word32?, ← c.word32?, 0, 0⟩
  | [l, c, el] => do some ⟨← l.word32?, ← c.word32?, ← el.word32?, 0⟩
  | [l, c, el, ec] => do some ⟨← l.word32?, ← c.word32?, ← el.word32?, ← ec.word32?⟩
  | _ => none

/-- An object with named coordinates or an array of them. -/
def ofJson? : Json → Option Span
  | .arr items => ofCoordinates? items
  | .obj fields => do
    let line ← (← (← Json.atMostOne? fields "line")).word32?
    let column ← (← (← Json.atMostOne? fields "column")).word32?
    let endLine ← ((← Json.atMostOne? fields "end_line").getD (.int 0)).word32?
    let endColumn ← ((← Json.atMostOne? fields "end_column").getD (.int 0)).word32?
    some ⟨line, column, endLine, endColumn⟩
  | _ => none

def toJson (s : Span) : Json :=
  .obj [("line", .ofNat s.line), ("column", .ofNat s.column), ("end_line", .ofNat s.endLine),
    ("end_column", .ofNat s.endColumn)]

end Span

namespace RawNode

def fieldNames : List String := ["kind", "children", "span"]

/-- Every entry whose key is no field; the last one under a key counts. -/
def attrsOf (fields : List (String × Json)) : Std.ExtTreeMap String Json :=
  fields.foldl (fun m (k, j) => if fieldNames.contains k then m else m.insert k j) ∅

def spanOf? (fields : List (String × Json)) : Option (Option Span) := do
  match ← Json.atMostOne? fields "span" with
  | none | some .null => some none
  | some j => do some (some (← Span.ofJson? j))

mutual

/-- Decodes a node and everything below it. One fault anywhere refuses the whole tree. -/
def ofJson? : Json → Option RawNode
  | .obj fields => do
    let _ ← Json.atMostOne? fields "children"
    let kind ← (← (← Json.atMostOne? fields "kind")).str?
    some ⟨kind, ← childrenOf? fields, ← spanOf? fields, attrsOf fields⟩
  | _ => none

def childrenOf? : List (String × Json) → Option (List RawNode)
  | [] => some []
  | (k, j) :: rest =>
    if k == "children" then
      match j with
      | .arr items => ofItems? items
      | _ => none
    else childrenOf? rest

def ofItems? : List Json → Option (List RawNode)
  | [] => some []
  | j :: rest => do some ((← ofJson? j) :: (← ofItems? rest))

end

mutual

/-- Encodes a node; empty children and a missing span are left out. -/
def toJson : RawNode → Json
  | ⟨kind, children, span, attrs⟩ =>
    .obj ([("kind", .str kind)]
      ++ (if children.isEmpty then [] else [("children", .arr (toItems children))])
      ++ (match span with
        | none => []
        | some s => [("span", s.toJson)])
      ++ attrs.toList)

def toItems : List RawNode → List Json
  | [] => []
  | n :: rest => toJson n :: toItems rest

end

inductive Place where
  | node | children | span | value

/-- In the text of a tree everything is read but the unknown fields of a span. -/
def outline : Json.Outline Place where
  root := .node
  field
    | .node, "children" => some .children
    | .node, "span" => some .span
    | .span, key => if Span.fieldNames.contains key then some .value else none
    | _, _ => some .value
  item
    | .children => some .node
    | _ => some .value

def parse? (text : String) : Option RawNode := do
  ofJson? (← Json.parse? outline Json.maxDepth text)

def attr? (n : RawNode) (key : String) : Option Json := n.attrs[key]?

def attrStr? (n : RawNode) (key : String) : Option String := do (← n.attr? key).str?

def attrBool? (n : RawNode) (key : String) : Option Bool := do (← n.attr? key).bool?

/-- A list of strings, such as the names of a declaration. -/
def attrStrings? (n : RawNode) (key : String) : Option (List String) := do (← n.attr? key).strings?

def ofKind (kind : String) : RawNode := ⟨kind, [], none, ∅⟩

def withChild (n child : RawNode) : RawNode := { n with children := n.children ++ [child] }

def withChildren (n : RawNode) (children : List RawNode) : RawNode :=
  { n with children := n.children ++ children }

def withAttr (n : RawNode) (key : String) (value : Json) : RawNode :=
  { n with attrs := n.attrs.insert key value }

def withSpan (n : RawNode) (span : Span) : RawNode := { n with span := some span }

def atLine (n : RawNode) (line : Nat) : RawNode := n.withSpan ⟨line, 0, line, 0⟩

end RawNode
end PointsTo

import PointsTo.Tree.Raw
import PointsTo.Value.State

/-! # Values as JSON

The form in which abstract values are handed on: a tag is its word or an object with one key, a value is
the list of its tags in order or the word `Top`, and a state is the list of its entries in order. -/

namespace PointsTo

namespace AllocSite

/-- The four coordinates of the span, the scope, the call and the part. -/
def toJson (s : AllocSite) : Json :=
  .arr ([s.span.line, s.span.column, s.span.endLine, s.span.endColumn, s.scope].map Json.ofNat ++
    [.ofOption .ofNat s.context, .ofNat s.part])

def ofJson? : Json → Option AllocSite
  | .arr [line, column, endLine, endColumn, scope, context, part] => do
    let span : Span := ⟨← line.nat?, ← column.nat?, ← endLine.nat?, ← endColumn.nat?⟩
    let site : AllocSite := { span, scope := ← scope.nat?, part := ← part.nat? }
    match context with
    | .null => return site
    | call => return site.inContext (← call.nat?)
  | _ => none

end AllocSite

namespace ObjKind

def toJson : ObjKind → Json
  | .list => .str "List"
  | .tuple => .str "Tuple"
  | .set => .str "Set"
  | .dict => .str "Dict"
  | .inst c => .obj [("Instance", .ofNat c)]
  | .builtin n => .obj [("Builtin", .str n)]

def ofJson? : Json → Option ObjKind
  | .str "List" => some .list
  | .str "Tuple" => some .tuple
  | .str "Set" => some .set
  | .str "Dict" => some .dict
  | .obj [("Instance", c)] => c.nat?.map .inst
  | .obj [("Builtin", .str n)] => some (.builtin n)
  | _ => none

end ObjKind

namespace HeapRef

def toJson (r : HeapRef) : Json := .obj [("site", r.site.toJson), ("kind", r.kind.toJson)]

def ofJson? (j : Json) : Option HeapRef := do
  return ⟨← AllocSite.ofJson? (← j.get? "site"), ← ObjKind.ofJson? (← j.get? "kind")⟩

end HeapRef

namespace Scalar

def all : List Scalar := [.int, .float, .complex, .bool, .str, .bytes, .none, .ellipsis, .unbound]

def ofName? (name : String) : Option Scalar := all.find? (·.name == name)

end Scalar

namespace TypeTag

def toJson : TypeTag → Json
  | .scalar s => .str s.name
  | .module n => .obj [("Module", .str n)]
  | .builtin n => .obj [("Builtin", .str n)]
  | .function n => .obj [("Function", .ofNat n)]
  | .cls c => .obj [("Class", .ofNat c)]
  | .object r => .obj [("Object", r.toJson)]
  | .method receiver n => .obj [("Method", .arr [receiver.toJson, .str n])]

def ofJson? : Json → Option TypeTag
  | .str s => (Scalar.ofName? s).map .scalar
  | .obj [("Module", .str n)] => some (.module n)
  | .obj [("Builtin", .str n)] => some (.builtin n)
  | .obj [("Function", n)] => n.nat?.map .function
  | .obj [("Class", c)] => c.nat?.map .cls
  | .obj [("Object", r)] => (HeapRef.ofJson? r).map .object
  | .obj [("Method", .arr [receiver, .str n])] => (ofJson? receiver).map fun r => .method r n
  | _ => failure

end TypeTag

namespace TypeSet

def toJson : TypeSet → Json
  | .top => .str "Top"
  | .tags s => .ofList TypeTag.toJson s.toList

/-- Tags may come in any order and more than once. -/
def ofJson? : Json → Option TypeSet
  | .str "Top" => some .top
  | .arr items => (items.mapM TypeTag.ofJson?).map .ofList
  | _ => none

end TypeSet

namespace Location

def toJson : Location → Json
  | .var scope name => .obj [("Var", .arr [.ofNat scope, .str name])]
  | .temp n => .obj [("Temp", .ofNat n)]
  | .element s => .obj [("Element", s.toJson)]
  | .key s => .obj [("Key", s.toJson)]
  | .field s name => .obj [("Field", .arr [s.toJson, .str name])]
  | .ret n => .obj [("Return", .ofNat n)]
  | .universal => .str "Universal"

def ofJson? : Json → Option Location
  | .str "Universal" => some .universal
  | .obj [("Var", .arr [scope, .str name])] => scope.nat?.map fun s => .var s name
  | .obj [("Temp", n)] => n.nat?.map .temp
  | .obj [("Element", s)] => (AllocSite.ofJson? s).map .element
  | .obj [("Key", s)] => (AllocSite.ofJson? s).map .key
  | .obj [("Field", .arr [s, .str name])] => (AllocSite.ofJson? s).map fun s => .field s name
  | .obj [("Return", n)] => n.nat?.map .ret
  | _ => none

end Location

namespace AbstractState

def toJson (s : AbstractState) : Json := .ofList (fun (l, v) => .arr [l.toJson, v.toJson]) s.toList

def entryOfJson? : Json → Option (Location × TypeSet)
  | .arr [l, v] => do return (← Location.ofJson? l, ← TypeSet.ofJson? v)
  | _ => none

def ofJson? (j : Json) : Option AbstractState := do return .ofList (← (← j.arr?).mapM entryOfJson?)

end AbstractState
end PointsTo

import PointsTo.Program
import PointsTo.Value.State

/-! # Types as text

Values written the way a reader writes types: `int | str`, `list[int]`, the name of a class. What
containers hold is read from the environment, and from the state of a program point if there is one. A
container inside itself is written `...`, so no object is opened twice on the way inwards. -/

namespace PointsTo

structure Renderer where
  program : Program
  env : AbstractState
  state : AbstractState := .empty

namespace Renderer

variable (r : Renderer)

def read (l : Location) : TypeSet := (r.env.read l).join ((r.state.get? l).getD .bottom)

def container (inside : TypeSet → String) (ref : HeapRef) : String :=
  let contents := r.read ref.elements
  match ref.kind with
  | .inst cls => (r.program.cls cls).name
  | .list => "list[" ++ inside contents ++ "]"
  | .set => "set[" ++ inside contents ++ "]"
  | .tuple => "tuple[" ++ inside contents ++ ", ...]"
  | .dict => "dict[" ++ inside (r.read ref.keys) ++ ", " ++ inside contents ++ "]"
  | .builtin name => if contents.isBottom then name else name ++ "[" ++ inside contents ++ "]"

def object (inside : List AllocSite → TypeSet → String) (opened : List AllocSite) (ref : HeapRef) : String :=
  match ref.kind with
  | .inst cls => (r.program.cls cls).name
  | _ => if opened.contains ref.site then "..." else r.container (inside (ref.site :: opened)) ref

def tag (inside : List AllocSite → TypeSet → String) (opened : List AllocSite) : TypeTag → String
  | .int => "int"
  | .float => "float"
  | .complex => "complex"
  | .bool => "bool"
  | .str => "str"
  | .bytes => "bytes"
  | .none => "None"
  | .ellipsis => "ellipsis"
  | .unbound => "Unbound"
  | .module name => "module[" ++ name ++ "]"
  | .builtin name => "builtin[" ++ name ++ "]"
  | .function node => match r.program.unitOf? node with
    | some u => "def[" ++ (r.program.unit u).name ++ "]"
    | none => "lambda"
  | .cls cls => "type[" ++ (r.program.cls cls).name ++ "]"
  | .method _ name => "method[" ++ name ++ "]"
  | .object ref => r.object inside opened ref

/-- The tags of a value in the order of their texts, each text once. -/
def alternatives (inside : List AllocSite → TypeSet → String) (opened : List AllocSite) (v : TypeSet) : String :=
  if v.isTop then "Any"
  else if v.isBottom then "Never"
  else
    let texts : Std.ExtTreeSet String := .ofList (v.toList.map (r.tag inside opened))
    " | ".intercalate texts.toList

def renderUpTo : Nat → List AllocSite → TypeSet → String
  | 0 => r.alternatives fun _ _ => "..."
  | depth + 1 => r.alternatives (renderUpTo depth)

/-- Writes a value. Only objects with a slot of their own hold anything, so there is no way inwards
longer than the number of slots. -/
def render (v : TypeSet) : String := renderUpTo r (r.env.size + r.state.size + 1) [] v

end Renderer
end PointsTo

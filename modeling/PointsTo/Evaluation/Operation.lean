import PointsTo.Evaluation.Call
import PointsTo.Value.Operator

/-! # Operations on values

Operators, attributes and subscripts. Each works tag by tag; a tag on which the operation fails
contributes nothing. -/

namespace PointsTo

namespace Frame

variable (f : Frame)

def hasUnknownBase (cls : ClassId) : Bool :=
  (f.program.mro cls).any fun c =>
    let info := f.program.cls c
    info.node.children.length - 1 > info.bases.length

/-- The value of an attribute in one class, if the class binds it or anything is stored there. Methods
are bound to the receiver. -/
def attributeIn? (s : AbstractState) (attr : String) (receiver : Option TypeTag) (cls : ClassId) : Option TypeSet :=
  let scope := (f.program.cls cls).scope
  let methods := f.methodsIn cls attr
  let stored := (f.value s (.var scope attr)).without .unbound
  if !(f.program.scopes.scope scope).bindings.contains attr && stored.isBottom then none
  else
    let own : TypeSet := match receiver with
      | some r => if methods.isEmpty then .bottom else .single (.method r attr)
      | none => .ofList (methods.map .function)
    some (own.join (stored.flatMap fun
      | .function d => if methods.contains d then .bottom else .single (.function d)
      | t => .single t))

end Frame

namespace Eval

variable (f : Frame)

section Operators

variable (node : NodeId)

def copyEntries (into source : HeapRef) : Eval Unit := do
  if into.kind.isMapping then writeSlot f into.keys (← readSlot f source.keys)
  writeSlot f into.elements (← readSlot f source.elements)

/-- An operator that a method implements. The reflected method of the right operand is tried when the
left one has none. -/
def binaryMethod (op : BinaryOp) (l r : TypeTag) (cls : ClassId) (method : String) : Eval TypeSet := do
  if l.instanceOf?.isSome && method == op.method then
    match ← callSpecial? f node cls l method { positional := [.single r] }, r.instanceOf? with
    | some v, _ => return v
    | none, some reflected =>
      callSpecial f node reflected r op.reflectedMethod { positional := [.single l] }
    | none, none => return .bottom
  else callSpecial f node cls r method { positional := [.single l] }

def binaryTags (op : BinaryOp) (l r : TypeTag) : Eval TypeSet :=
  match TypeTag.binary op l r with
  | .tags v => pure v
  | .concat kind => do
    let obj := f.alloc node kind
    ([l, r].filterMap TypeTag.object?).forM (copyEntries f obj)
    return .single (.object obj)
  | .repeated source => do fresh f node source.kind (← readSlot f source.elements)
  | .method cls method => binaryMethod f node op l r cls method
  | .raises => pure .bottom

def operands (v : TypeSet) : List TypeTag := v.toList.filter (· != .unbound)

def binary (op : BinaryOp) (left right : TypeSet) : Eval TypeSet :=
  if left.isTop || right.isTop then pure .top
  else joinEach (fun l => joinEach (binaryTags f node op l) (operands right)) (operands left)

def unary (op : UnaryOp) (operand : TypeSet) : Eval TypeSet :=
  if operand.isTop then pure (if op = .not then .single .bool else .top)
  else joinEach (fun t => match TypeTag.unary op t with
    | .tags v => pure v
    | .method cls method => callSpecial f node cls t method {}
    | _ => pure .bottom) (operands operand)

/-- Updates a tag in place, if an augmented assignment does that to it. -/
def updateInPlace? (op : BinaryOp) (operand : TypeSet) (t : TypeTag) : Option (Eval Unit) :=
  match op, t with
  | .add, .object ⟨site, .list⟩ => some do
    writeSlot f (.element site) (← iterate f node operand)
  | .bitOr, .object ⟨site, .set⟩ | .bitAnd, .object ⟨site, .set⟩ | .sub, .object ⟨site, .set⟩
  | .bitXor, .object ⟨site, .set⟩ => some do
    writeSlot f (.element site) (← elements f operand)
  | .bitOr, .object ⟨site, .dict⟩ => some <|
    (operand.objects.filter (·.kind.isMapping)).forM fun source => do
      let keys ← readSlot f source.keys
      let values ← readSlot f source.elements
      writeSlot f (.key site) keys
      writeSlot f (.element site) values
  | _, _ => none

/-- Updates every tag in place that can be, and returns those that cannot. -/
def updateTags (op : BinaryOp) (operand : TypeSet) : List TypeTag → Eval (List TypeTag)
  | [] => pure []
  | t :: rest =>
    match updateInPlace? f node op operand t with
    | some update => do
      update
      updateTags op operand rest
    | none => return t :: (← updateTags op operand rest)

/-- An augmented assignment: what is updated in place stays, and the rest goes through the operator. -/
def augment (op : BinaryOp) (current operand : TypeSet) : Eval TypeSet := do
  if current.isTop || operand.isTop then return .top
  else
    let others ← updateTags f node op operand current.toList
    let kept := current.toList.filter fun t => (updateInPlace? f node op operand t).isSome
    return (TypeSet.ofList kept).join (← binary f node op (.ofList others) operand)

end Operators

section Attributes

variable (node : NodeId)

def classAttr (cls : ClassId) (attr : String) (receiver : Option TypeTag) : Eval TypeSet := do
  match (f.program.mro cls).findSome? (f.attributeIn? (← get).state attr receiver) with
  | some v => return v
  | none => if f.hasUnknownBase cls then giveUp node (.hiddenAttribute attr) else return .bottom

/-- An attribute of a module: a global, another module, or anything if the module is not part of the
program. -/
def moduleAttr (module attr : String) : Eval TypeSet :=
  match f.program.moduleMember? module attr with
  | some (.global l) => return (← readSlot f l).without .unbound
  | some (.submodule name) => pure (.single (.module name))
  | none => giveUp node (.outsideModule module)

/-- An attribute of a tag. Methods of builtin types are bound to their receiver. -/
def tagAttr (attr : String) (t : TypeTag) : Eval TypeSet :=
  match t with
  | .object ⟨site, .inst cls⟩ => do
    let own ← readSlot f (.field site attr)
    return own.join (← classAttr f node cls attr (some t))
  | .object _ | .str | .bytes | .int | .float | .complex | .bool => pure (.single (.method t attr))
  | .cls cls => classAttr f node cls attr none
  | .module module => moduleAttr f node module attr
  | .function _ | .builtin _ | .method _ _ => giveUp node (.hiddenAttribute attr)
  | .none | .ellipsis | .unbound => pure .bottom

def loadAttr (receiver : TypeSet) (attr : String) : Eval TypeSet :=
  if receiver.isTop then pure .top else joinEach (tagAttr f node attr) receiver.toList

def storeAttr (receiver : TypeSet) (attr : String) (v : TypeSet) : Eval Unit :=
  receiver.toList.forM fun
    | .object r => writeSlot f (r.field attr) v
    | .cls cls => writeSlot f (.var (f.program.cls cls).scope attr) v
    | .module module => match f.program.moduleMember? module attr with
      | some (.global l) => writeSlot f l v
      | _ => pure ()
    | _ => pure ()

end Attributes

section Subscripts

variable (node : NodeId) (isSlice : Bool) (index : TypeSet)

def objectItem (r : HeapRef) : Eval TypeSet :=
  match r.kind with
  | .inst cls => callSpecial f node cls (.object r) "__getitem__" { positional := [index] }
  | .dict => readSlot f r.elements
  | .set => pure .bottom
  | kind => do
    let contents ← readSlot f r.elements
    if isSlice then fresh f node kind contents else return contents

/-- A subscript of a tag; classes and builtin types give themselves. -/
def tagItem : TypeTag → Eval TypeSet
  | .object r => objectItem f node isSlice index r
  | .str => pure (.single .str)
  | .bytes => pure (.single (if isSlice then .bytes else .int))
  | .cls cls => pure (.single (.cls cls))
  | .builtin name => pure (.single (.builtin name))
  | _ => pure .bottom

def loadItem (container : TypeSet) : Eval TypeSet :=
  if container.isTop then pure .top else joinEach (tagItem f node isSlice index) container.toList

def storeObjectItem (v : TypeSet) (r : HeapRef) : Eval Unit :=
  match r.kind with
  | .inst cls => do
    discard <| callSpecial? f node cls (.object r) "__setitem__" { positional := [index, v] }
  | .dict => do
    writeSlot f r.keys index
    writeSlot f r.elements v
  | .list | .builtin _ => do writeSlot f r.elements (← if isSlice then iterate f node v else pure v)
  | .tuple | .set => pure ()

def storeItem (container v : TypeSet) : Eval Unit :=
  container.objects.forM (storeObjectItem f node isSlice index v)

end Subscripts

end Eval
end PointsTo

import PointsTo.Value.State

/-! # Methods of builtin containers

Each method knows which slots of its receiver it writes and what its call returns. A method is run
over any heap that can read and weakly update slots, list what iteration yields, and allocate. -/

namespace PointsTo

structure HeapAccess (m : Type → Type) where
  read : Location → m TypeSet
  write : Location → TypeSet → m Unit
  elementsOf : TypeSet → m TypeSet
  /-- A fresh object; the number separates several objects of one call. -/
  allocate : ObjKind → Nat → m HeapRef

/-- The methods of lists, tuples, sets and mappings, those that behave alike taken together. -/
inductive ContainerMethod where
  | append | extend | insert | listPop | listInPlace | sequenceQuery | listCopy
  | add | setUpdate | setPop | setInPlace | setAlgebra | setPredicate
  | dictUpdate | setDefault | dictGet | dictPop | popItem | dictViews | dictClear
deriving DecidableEq, Inhabited, Repr

namespace ContainerMethod

def all : List ContainerMethod :=
  [.append, .extend, .insert, .listPop, .listInPlace, .sequenceQuery, .listCopy, .add, .setUpdate,
    .setPop, .setInPlace, .setAlgebra, .setPredicate, .dictUpdate, .setDefault, .dictGet, .dictPop,
    .popItem, .dictViews, .dictClear]

/-- The names a method answers to; the first one stands for the group. -/
def names : ContainerMethod → List String
  | .append => ["append"]
  | .extend => ["extend"]
  | .insert => ["insert"]
  | .listPop => ["pop"]
  | .listInPlace => ["sort", "remove", "clear", "reverse"]
  | .sequenceQuery => ["index", "count"]
  | .listCopy => ["copy"]
  | .add => ["add"]
  | .setUpdate => ["update"]
  | .setPop => ["pop"]
  | .setInPlace => ["discard", "remove", "clear", "difference_update", "intersection_update"]
  | .setAlgebra =>
    ["union", "copy", "intersection", "difference", "symmetric_difference",
      "symmetric_difference_update"]
  | .setPredicate => ["issubset", "issuperset", "isdisjoint"]
  | .dictUpdate => ["update"]
  | .setDefault => ["setdefault"]
  | .dictGet => ["get"]
  | .dictPop => ["pop"]
  | .popItem => ["popitem"]
  | .dictViews => ["items", "keys", "values", "copy"]
  | .dictClear => ["clear"]

def name (h : ContainerMethod) : String := h.names.headD ""

def kinds : ContainerMethod → List ObjKind
  | .append | .extend | .insert | .listPop | .listInPlace | .listCopy => [.list]
  | .sequenceQuery => [.list, .tuple]
  | .add | .setUpdate | .setPop | .setInPlace | .setAlgebra | .setPredicate => [.set]
  | .dictUpdate | .setDefault | .dictGet | .dictPop | .popItem | .dictViews | .dictClear => [.dict]

def appliesTo (h : ContainerMethod) (kind : ObjKind) (name : String) : Bool :=
  h.names.contains name && h.kinds.contains kind

/-- The first method that accepts the receiver and the name. -/
def lookup? (kind : ObjKind) (name : String) : Option ContainerMethod :=
  all.find? fun h => h.appliesTo kind name

section

variable {m : Type → Type} [Monad m] (heap : HeapAccess m) (receiver : HeapRef)

def noneValue : TypeSet := .single .none

def extendElements : List TypeSet → m Unit
  | [] => pure ()
  | arg :: rest => do
    heap.write receiver.elements (← heap.elementsOf arg)
    extendElements rest

def joinElements (acc : TypeSet) : List TypeSet → m TypeSet
  | [] => pure acc
  | arg :: rest => do joinElements (acc.join (← heap.elementsOf arg)) rest

def fresh (kind : ObjKind) (elements : TypeSet) : m TypeSet := do
  let r ← heap.allocate kind 0
  heap.write r.elements elements
  pure (.single (.object r))

/-- Keys and values that one tag contributes to a mapping: those of a mapping, or the items of an
iterable of pairs for both. -/
def entriesOf (t : TypeTag) : m (TypeSet × TypeSet) :=
  let pairs : m (TypeSet × TypeSet) := do
    let items ← heap.elementsOf (← heap.elementsOf (.single t))
    pure (items, items)
  match t with
  | .object other => if other.kind.isMapping then do
      pure (← heap.read other.keys, ← heap.read other.elements) else pairs
  | _ => pairs

def joinEntries (acc : TypeSet × TypeSet) : List TypeTag → m (TypeSet × TypeSet)
  | [] => pure acc
  | t :: rest => do
    let (keys, values) ← entriesOf heap t
    joinEntries (acc.1.join keys, acc.2.join values) rest

def updateEntries : List TypeSet → m Unit
  | [] => pure ()
  | arg :: rest => do
    let (keys, values) ← joinEntries heap (.bottom, .bottom) arg.toList
    let (keys, values) := if arg.isTop then (.top, .top) else (keys, values)
    heap.write receiver.keys keys
    heap.write receiver.elements values
    updateEntries rest

/-- The set operations that build a new set, or in one case change the receiver. -/
def runAlgebra (name : String) (args : List TypeSet) : m TypeSet := do
  let own ← heap.read receiver.elements
  let grows := ["union", "symmetric_difference", "symmetric_difference_update"].contains name
  let elements ← if grows then joinElements heap own args else pure own
  if name == "symmetric_difference_update" then
    heap.write receiver.elements elements
    pure noneValue
  else fresh heap .set elements

def runViews (name : String) : m TypeSet := do
  let keys ← heap.read receiver.keys
  let values ← heap.read receiver.elements
  if name == "copy" then
    let copy ← heap.allocate .dict 0
    heap.write copy.keys keys
    heap.write copy.elements values
    pure (.single (.object copy))
  else if name == "items" then
    let view ← heap.allocate (.builtin "dict_items") 0
    let pair ← heap.allocate .tuple 1
    heap.write pair.elements (keys.join values)
    heap.write view.elements (.single (.object pair))
    pure (.single (.object view))
  else fresh heap (.builtin ("dict_" ++ name)) (if name == "keys" then keys else values)

def writeSome (l : Location) : Option TypeSet → m Unit
  | some v => heap.write l v
  | none => pure ()

/-- Runs the call of a method by the given name and returns its value. -/
def run (h : ContainerMethod) (name : String) (args : List TypeSet) : m TypeSet :=
  match h with
  | .append | .add => do
    writeSome heap receiver.elements args[0]?
    pure noneValue
  | .extend | .setUpdate => do
    extendElements heap receiver args
    pure noneValue
  | .insert => do
    writeSome heap receiver.elements args[1]?
    pure noneValue
  | .listPop | .setPop => heap.read receiver.elements
  | .listInPlace | .setInPlace | .dictClear => pure noneValue
  | .sequenceQuery => pure (.single .int)
  | .listCopy => do
    let copy ← heap.allocate .list 0
    heap.write copy.elements (← heap.read receiver.elements)
    pure (.single (.object copy))
  | .setAlgebra => runAlgebra heap receiver name args
  | .setPredicate => pure (.single .bool)
  | .dictUpdate => do
    updateEntries heap receiver args
    pure noneValue
  | .setDefault => do
    writeSome heap receiver.keys args[0]?
    heap.write receiver.elements (args[1]?.getD noneValue)
    heap.read receiver.elements
  | .dictGet => do pure ((← heap.read receiver.elements).join (args[1]?.getD noneValue))
  | .dictPop => do pure ((← heap.read receiver.elements).join (args[1]?.getD .bottom))
  | .popItem => do
    let pair ← heap.allocate .tuple 0
    heap.write pair.elements ((← heap.read receiver.keys).join (← heap.read receiver.elements))
    pure (.single (.object pair))
  | .dictViews => runViews heap receiver name

/-- Runs the first method that accepts the call; `none` if there is no such method. -/
def call? (name : String) (args : List TypeSet) : m (Option TypeSet) :=
  match lookup? receiver.kind name with
  | some h => do pure (some (← run heap receiver h name args))
  | none => pure none

end

end ContainerMethod

/-- A heap over one state, whose objects are numbered as they are allocated. -/
structure PlainHeap where
  state : AbstractState := .empty
  allocated : Nat := 0

namespace PlainHeap

/-- What iteration over a value yields, read from a state. -/
def elementsIn (s : AbstractState) (v : TypeSet) : TypeSet :=
  v.flatMap fun
    | .object r => s.read r.items
    | .str => .single .str
    | .bytes => .single .int
    | _ => .bottom

/-- Reads and weak updates on the state; `site` places the objects, counted from 1. -/
def access (site : Nat → AllocSite) : HeapAccess (StateM PlainHeap) where
  read l := do return (← get).state.read l
  write l v := modify fun h => { h with state := h.state.weakUpdate l v }
  elementsOf v := do return elementsIn (← get).state v
  allocate kind part := do
    let n := (← get).allocated + 1
    modify fun h => { h with allocated := n }
    return ⟨(site n).withPart part, kind⟩

end PlainHeap
end PointsTo

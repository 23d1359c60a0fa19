import PointsTo.Evaluation.Operation
import PointsTo.Value.ContainerMethod

/-! # Calls of values

What a call does for each thing its callee may be: functions and classes of the program, builtins,
bound methods and instances. A callee that may be anything may also change whatever its arguments
hold. -/

namespace PointsTo
namespace Eval

variable (f : Frame)

/-- Anything may now be in the objects among the arguments. -/
def unknownCall (call : NodeId) (args : CallArgs) : Eval TypeSet := do
  flag call .unknownCallee
  (args.values.flatMap TypeSet.objects).forM fun r => writeSlot f r.elements .top
  return .top

section Methods

variable (call : NodeId)

def heapAccess : HeapAccess Eval where
  read := readSlot f
  write := writeSlot f
  elementsOf := elements f
  allocate kind part := pure (f.alloc call kind part)

def builtinMethod (r : HeapRef) (name : String) : Eval TypeSet :=
  match r.kind, name with
  | _, "__next__" | _, "send" => readSlot f r.elements
  | _, "__iter__" | _, "__enter__" => pure (.single (.object r))
  | _, "close" | _, "__exit__" => pure (.single .none)
  | .builtin "file", "read" | .builtin "file", "readline" => pure (.single .str)
  | .builtin "file", "readlines" => fresh f call .list (.single .str)
  | .builtin "file", "write" => pure (.single .int)
  | _, _ => giveUp call (.hiddenAttribute name)

def objectMethod (r : HeapRef) (name : String) (args : CallArgs) : Eval TypeSet :=
  match r.kind with
  | .inst cls => callSpecial f call cls (.object r) name args
  | _ => do
    match ← ContainerMethod.call? (heapAccess f call) r name args.positional with
    | some v => return v
    | none => builtinMethod f call r name

def scalarMethod (receiver : TypeTag) (name : String) : Eval TypeSet :=
  match ScalarMethod.lookup? receiver name with
  | some (.returns v) => pure v
  | some (.listOf v) => fresh f call .list v
  | some (.tupleOf v) => fresh f call .tuple v
  | none => giveUp call (.hiddenAttribute name)

def callMethod (receiver : TypeTag) (name : String) (args : CallArgs) : Eval TypeSet :=
  match receiver with
  | .object r => objectMethod f call r name args
  | scalar => scalarMethod f call scalar name

end Methods

section Builtins

variable (call : NodeId)

/-- An element of the first argument; several arguments are the elements themselves. -/
def elementOfFirst (name : String) (args : CallArgs) : Eval TypeSet := do
  let v ← match args.positional with
    | source :: fallback :: _ =>
      if name == "next" then do pure ((← iterate f call source).join fallback)
      else pure (TypeSet.joinAll args.positional)
    | _ => iterate f call (args.first?.getD .bottom)
  return v.join ((args.keyword? "default").getD .bottom)

def sumOf (args : CallArgs) : Eval TypeSet := do
  let v ← iterate f call (args.first?.getD .bottom)
  return (v.flatMap fun t => .single (if t = .bool then .int else t)).join
    (args.positional[1]?.getD (.single .int))

/-- Keys and values that one tag contributes to a new mapping. -/
def entriesOf (t : TypeTag) : Eval (TypeSet × TypeSet) := do
  let pairs : Eval (TypeSet × TypeSet) := do
    let items ← elements f (← iterate f call (.single t))
    return (items, items)
  match t with
  | .object r => if r.kind.isMapping then return (← readSlot f r.keys, ← readSlot f r.elements) else pairs
  | _ => pairs

def joinEntries (acc : TypeSet × TypeSet) : List TypeTag → Eval (TypeSet × TypeSet)
  | [] => pure acc
  | t :: rest => do
    let (keys, values) ← entriesOf f call t
    joinEntries (acc.1.join keys, acc.2.join values) rest

def newDict (args : CallArgs) : Eval TypeSet := do
  let source := args.first?.getD .bottom
  let (keys, values) ← joinEntries f call (.bottom, .bottom) source.toList
  let (keys, values) := if source.isTop then (.top, .top) else (keys, values)
  let names : TypeSet := if args.keywords.isEmpty then .bottom else .single .str
  let dict := f.alloc call .dict
  writeSlot f dict.keys (keys.join names)
  writeSlot f dict.elements (values.join (TypeSet.joinAll (args.keywords.map (·.2))))
  return .single (.object dict)

/-- An iterator over tuples with the given contents. -/
def pairIterator (name : String) (contents : TypeSet) : Eval TypeSet := do
  fresh f call (.builtin name) (← fresh f call .tuple contents 1)

def typeOf : TypeTag → TypeTag
  | .object ⟨_, .inst cls⟩ => .cls cls
  | .int => .builtin "int"
  | .float => .builtin "float"
  | .complex => .builtin "complex"
  | .bool => .builtin "bool"
  | .str => .builtin "str"
  | .bytes => .builtin "bytes"
  | _ => .builtin "type"

def iterateEach : List TypeSet → Eval (List TypeSet)
  | [] => pure []
  | v :: rest => do
    let items ← iterate f call v
    return items :: (← iterateEach rest)

/-- A call of a builtin. Those that take a function call it through `again`. -/
def callBuiltin (again : TypeSet → List TypeSet → Eval TypeSet) (name : String) (args : CallArgs) : Eval TypeSet :=
  match Builtin.call? name with
  | none => pure .bottom
  | some (.returns v) => pure v
  | some .sameAsArgs => pure (TypeSet.joinAll args.positional)
  | some .elementOfFirst => elementOfFirst f call name args
  | some .sum => sumOf f call args
  | some (.collect kind) => do
    fresh f call kind (← if name == "divmod" then pure (TypeSet.joinAll args.positional)
      else iterate f call (args.first?.getD .bottom))
  | some .dict => newDict f call args
  | some .range => fresh f call (.builtin "range") (.single .int)
  | some .enumerate => do
    let items ← iterate f call (args.first?.getD .bottom)
    pairIterator f call "enumerate" (items.join (.single .int))
  | some .zip => do pairIterator f call "zip" (TypeSet.joinAll (← iterateEach f call args.positional))
  | some .map => do
    fresh f call (.builtin "map") (← match args.positional with
      | function :: iterables => do again function (← iterateEach f call iterables)
      | [] => pure .bottom)
  | some .filter => do
    fresh f call (.builtin "filter") (← match args.positional with
      | [test, iterable] => do
        let items ← iterate f call iterable
        if !test.contains .none then discard <| again test [items]
        pure items
      | _ => pure .bottom)
  | some .iter => do fresh f call (.builtin "iterator") (← iterate f call (args.first?.getD .bottom))
  | some (.inst type) => pure (.single (.object (f.alloc call (.builtin type))))
  | some .typeOf => match args.positional with
    | [v] => pure (v.flatMap fun t => .single (typeOf t))
    | _ => giveUp call (.reflection name)
  | some .reflection => giveUp call (.reflection name)

end Builtins

section Callees

/-- How a lambda is called: from a node, with the lambda and its arguments. -/
abbrev LambdaCall := NodeId → Node → CallArgs → Eval TypeSet

variable (lambda : LambdaCall) (call : NodeId)

def callTag (again : TypeSet → List TypeSet → Eval TypeSet) (args : CallArgs) (t : TypeTag) : Eval TypeSet :=
  match t with
  | .function d =>
    if f.program.tree.kind d = .lambda then lambda call (f.program.tree.node d) args
    else callFunction f call d none args
  | .cls cls => do
    discard <| callSpecial? f call cls (f.inst cls) "__init__" args
    return .single (f.inst cls)
  | .builtin name => callBuiltin f call again name args
  | .method receiver name => callMethod f call receiver name args
  | .object ⟨_, .inst cls⟩ => callSpecial f call cls t "__call__" args
  | .module _ => unknownCall f call args
  | _ => pure .bottom

/-- A call of everything a value may be, where builtins call functions through `again`. -/
def callEach (again : TypeSet → List TypeSet → Eval TypeSet) (callee : TypeSet) (args : CallArgs) : Eval TypeSet :=
  if callee.isTop then unknownCall f call args
  else joinEach (callTag f lambda call again args) callee.toList

/-- The same with at most so many positional arguments. A builtin that calls one of its arguments
passes on fewer than it was given. -/
def callUpTo : Nat → TypeSet → List TypeSet → Eval TypeSet
  | 0, callee, positional => callEach f lambda call (fun _ _ => pure .bottom) callee { positional }
  | n + 1, callee, positional => callEach f lambda call (callUpTo n) callee { positional }

def callValue (callee : TypeSet) (args : CallArgs) : Eval TypeSet :=
  callEach f lambda call (callUpTo f lambda call args.positional.length) callee args

end Callees

end Eval
end PointsTo

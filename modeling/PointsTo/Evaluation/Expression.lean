import PointsTo.Evaluation.Callee

/-! # Expressions

Evaluation follows the syntax, operands first. A hoisted expression is not evaluated again: its value
is in its temporary. The implicit loop of a comprehension runs once with weak updates. A lambda runs
where it is called, unless it is running already. -/

namespace PointsTo
namespace Eval

variable (f : Frame)

def recorded (node : NodeId) (act : Eval TypeSet) : Eval TypeSet := do
  let v ← act
  record node v
  return v

structure Mode where
  nested : Bool := false
  /-- Into its temporary, ahead of the expression it is part of. -/
  ahead : Bool := false

namespace Mode

def operand (m : Mode) : Mode := { m with ahead := false }

def body : Mode := { nested := true }

end Mode

/-- Takes the value of a hoisted node from its temporary, unless it is computed just now, and that of
any other node from a computation. -/
def evaluated (m : Mode) (node : NodeId) (act : Eval TypeSet) : Eval TypeSet :=
  recorded node (if !m.ahead && f.graph.isHoisted node then readSlot f (.temp node) else act)

/-- A target that is no pattern is only evaluated. -/
def storeOrEval (target : Node) (asPattern : Eval Unit) (asValue : Eval TypeSet) : Eval Unit :=
  if target.kind.isPattern then asPattern else discard asValue

/-- The elements of a starred operand, or an operand itself. -/
def spreadOr (node : NodeId) (kind : Kind) (inner whole : Eval TypeSet) : Eval TypeSet := do
  if kind = .starred then iterate f node (← inner) else whole

def loadName (node : NodeId) : Eval TypeSet :=
  match f.program.table.get? node with
  | some (.location l) => readSlot f l
  | some (.builtin name) => pure ((Builtin.constant? name).getD (.single (.builtin name)))
  | some (.unresolved name) => giveUp node (.unresolved name)
  | none => pure .top

def yieldValue (v : TypeSet) : Eval TypeSet := do
  if f.unit.isGenerator then
    writeSlot f (f.generatorOf f.unit.node.id f.unit.scope).elements v
  return .single .none

def keepDefault (node : NodeId) (v : TypeSet) : Eval Unit := do
  publish (.temp node) v
  setSlot (.temp node) v

def mappingValues (v : TypeSet) : Eval TypeSet := do
  let s := (← get).state
  return v.flatMap fun
    | .object r => if r.kind.isMapping then f.value s r.elements else .top
    | _ => .top

def freshDict (node : NodeId) (keys values : TypeSet) : Eval TypeSet := do
  let r := f.alloc node .dict
  writeSlot f r.keys keys
  writeSlot f r.elements values
  return .single (.object r)

def partCount (children : List Node) : Nat := (children.filter fun c => c.kind != .comprehension).length

/-- A comprehension: runs its clauses and collects its parts. A mapping of exactly two parts takes them
as key and value. -/
def comprehend (node : NodeId) (kind : ObjKind) (children : List Node) (clauses : Eval Unit)
    (parts : (TypeSet → Eval Unit) → Eval (List TypeSet)) : Eval TypeSet := do
  clauses
  let r := f.alloc node kind
  if kind.isMapping && partCount children == 2 then
    match ← parts fun _ => pure () with
    | [key, v] => do
      writeSlot f r.keys key
      writeSlot f r.elements v
    | _ => pure ()
  else discard <| parts (writeSlot f r.elements)
  return .single (.object r)

/-- Adds an argument with a part of its own: starred, by keyword, or by position. -/
def addArgument (args : CallArgs) (node : NodeId) (kind : Kind) (inner whole : Eval TypeSet) : Eval CallArgs :=
  match kind with
  | .starred => do return args.addSpread (← iterate f node (← inner))
  | .keyword (some name) => do return { args with keywords := args.keywords ++ [(name, ← inner)] }
  | .keyword none => do return args.addSpread (← mappingValues f (← inner))
  | _ => do return args.addPositional (← whole)

variable (lambda : LambdaCall)

mutual

def eval (m : Mode) : Node → Eval TypeSet
  | ⟨id, kind, _, _, children⟩ => evaluated f m id <|
    let o := m.operand
    match kind with
    | .literal l => pure (.single (.ofLiteral l))
    | .name _ => loadName f id
    | .binary op => match children with
      | [l, r] => do
        let left ← eval o l
        let right ← eval o r
        binary f id op left right
      | _ => pure .top
    | .unary op => match children with
      | operand :: _ => do unary f id op (← eval o operand)
      | [] => unary f id op .top
    | .logical _ => do return TypeSet.joinAll (← evalAll o children)
    | .conditional => match children with
      | [test, first, second] => do
        discard <| eval o test
        let v ← eval o first
        return v.join (← eval o second)
      | _ => pure .top
    | .compare _ => do
      discard <| evalAll o children
      return .single .bool
    | .call => match children with
      | callee :: args => do
        let target ← eval o callee
        callValue f lambda id target (← evalArguments o {} args)
      | [] => pure .bottom
    | .attribute attr => match children with
      | receiver :: _ => do loadAttr f id (← eval o receiver) attr
      | [] => pure .top
    | .subscript => match children with
      | [container, index] => do
        let v ← eval o container
        loadItem f id (index.kind = .slice) (← eval o index) v
      | _ => pure .top
    | .slice => do
      discard <| evalAll o children
      return .single (.object (f.alloc id (.builtin "slice")))
    | .list => do fresh f id .list (← evalElements o children)
    | .tuple => do fresh f id .tuple (← evalElements o children)
    | .set => do fresh f id .set (← evalElements o children)
    | .dict => do
      let (keys, values) ← evalEntries o children
      freshDict f id keys values
    | .listComp => comprehend f id .list children (evalClauses children) fun each => evalParts each children
    | .setComp => comprehend f id .set children (evalClauses children) fun each => evalParts each children
    | .dictComp => comprehend f id .dict children (evalClauses children) fun each => evalParts each children
    | .generatorExp =>
      comprehend f id .generator children (evalClauses children) fun each => evalParts each children
    | .joinedStr | .formattedValue => do
      discard <| evalAll o children
      return .single .str
    | .yielding => match children with
      | v :: _ => do yieldValue f (← eval o v)
      | [] => yieldValue f (.single .none)
    | .yieldFrom => match children with
      | source :: _ => do yieldValue f (← iterate f id (← eval o source))
      | [] => pure (.single .none)
    | .await | .starred | .keyword _ => match children with
      | v :: _ => eval o v
      | [] => pure .bottom
    | .namedExpr => match children with
      | [target, source] => do
        let v ← eval o source
        storeOrEval target (store o v target) (eval o target)
        return v
      | _ => pure .top
    | .lambda => do
      evalDefaults o children
      return .single (.function id)
    | .comprehension => pure .bottom
    | .unsupported word => do
      discard <| evalAll o children
      giveUp id (.unsupported word)
    | other => giveUp id (.unsupported other.word)

def evalAll (m : Mode) : List Node → Eval (List TypeSet)
  | [] => pure []
  | n :: rest => do
    let v ← eval m n
    return v :: (← evalAll m rest)

def evalArguments (m : Mode) (args : CallArgs) : List Node → Eval CallArgs
  | [] => pure args
  | ⟨id, kind, span, parent, []⟩ :: rest => do
    evalArguments m (args.addPositional (← eval m ⟨id, kind, span, parent, []⟩)) rest
  | ⟨id, kind, span, parent, inner :: more⟩ :: rest => do
    let args ← addArgument f args id kind (eval m inner) (eval m ⟨id, kind, span, parent, inner :: more⟩)
    evalArguments m args rest

def evalElements (m : Mode) : List Node → Eval TypeSet
  | [] => pure .bottom
  | ⟨id, kind, span, parent, []⟩ :: rest => do
    let v ← eval m ⟨id, kind, span, parent, []⟩
    return v.join (← evalElements m rest)
  | ⟨id, kind, span, parent, inner :: more⟩ :: rest => do
    let v ← spreadOr f id kind (eval m inner) (eval m ⟨id, kind, span, parent, inner :: more⟩)
    return v.join (← evalElements m rest)

def evalEntries (m : Mode) : List Node → Eval (TypeSet × TypeSet)
  | k :: v :: rest => do
    let key ← eval m k
    let value ← eval m v
    let (keys, values) ← evalEntries m rest
    return (key.join keys, value.join values)
  | _ => pure (.bottom, .bottom)

def evalClauses : List Node → Eval Unit
  | [] => pure ()
  | ⟨_, kind, _, _, parts⟩ :: rest => do
    if kind = .comprehension then evalClause parts
    evalClauses rest

/-- Binds the target of a clause to the elements of its iterable and runs its conditions. -/
def evalClause : List Node → Eval Unit
  | target :: iterable :: conditions => do
    let v ← iterate f iterable.id (← eval .body iterable)
    storeOrEval target (store .body v target) (eval .body target)
    discard <| evalAll .body conditions
  | _ => pure ()

/-- The values of the parts that are no clauses; each is passed on as soon as it is known. -/
def evalParts (each : TypeSet → Eval Unit) : List Node → Eval (List TypeSet)
  | [] => pure []
  | n :: rest =>
    if n.kind = .comprehension then evalParts each rest
    else do
      let v ← eval .body n
      each v
      return v :: (← evalParts each rest)

def evalDefaults (m : Mode) : List Node → Eval Unit
  | [] => pure ()
  | ⟨_, _, _, _, params⟩ :: _ => evalParamDefaults m params

def evalParamDefaults (m : Mode) : List Node → Eval Unit
  | [] => pure ()
  | ⟨_, _, _, _, []⟩ :: rest => evalParamDefaults m rest
  | ⟨_, _, _, _, d :: _⟩ :: rest => do
    keepDefault d.id (← eval m d)
    evalParamDefaults m rest

def store (m : Mode) (v : TypeSet) : Node → Eval Unit
  | ⟨id, kind, _, _, children⟩ =>
    match kind with
    | .name _ => do
      record id v
      bindName f m.nested id v
    | .tuple | .list => do storeAll m (← iterate f id v) children
    | .starred => do storeFirst m (← fresh f id .list v) children
    | .attribute attr => match children with
      | receiver :: _ => do storeAttr f (← eval m receiver) attr v
      | [] => pure ()
    | .subscript => match children with
      | [container, index] => do
        let target ← eval m container
        storeItem f id (index.kind = .slice) (← eval m index) target v
      | _ => pure ()
    | _ => pure ()

def storeAll (m : Mode) (v : TypeSet) : List Node → Eval Unit
  | [] => pure ()
  | target :: rest => do
    storeOrEval target (store m v target) (eval m target)
    storeAll m v rest

def storeFirst (m : Mode) (v : TypeSet) : List Node → Eval Unit
  | [] => pure ()
  | target :: _ => storeOrEval target (store m v target) (eval m target)

end

def storeInto (m : Mode) (v : TypeSet) (target : Node) : Eval Unit :=
  storeOrEval target (store f lambda m v target) (eval f lambda m target)

end Eval

namespace Eval

variable (f : Frame)

/-- A call of a lambda while those in `active` run. One that runs already gives what it has returned so
far. No more lambdas can be active than there are nodes, so a depth of that number is never
exceeded. -/
def callLambda : Nat → List NodeId → LambdaCall
  | 0, _ => fun _ lambda _ => readSlot f (.ret lambda.id)
  | depth + 1, active => fun call lambda args => do
    if active.contains lambda.id then readSlot f (.ret lambda.id)
    else
      let scope := (f.program.scopes.scopeOf? lambda.id).getD f.unit.scope
      match lambda.child? 0 with
      | some arguments => bindArguments f scope args true arguments none
      | none => pure ()
      let v ← match lambda.child? 1 with
        | some body => eval f (callLambda depth (lambda.id :: active)) .body body
        | none => pure .bottom
      writeSlot f (.ret lambda.id) v
      contextualize f call scope v

def lambdas : LambdaCall := callLambda f f.program.tree.size []

end Eval
end PointsTo

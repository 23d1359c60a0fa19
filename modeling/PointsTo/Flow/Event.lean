import PointsTo.Flow.Graph
import PointsTo.Program

/-! # Flow events

What a step reads, binds and calls, listed in the order of evaluation: operands before operators and
arguments before the call. The body of a lambda or comprehension is a list of its own inside the list
of the step. -/

namespace PointsTo

/-- One thing that happens to storage or control while code runs. -/
inductive FlowEvent where
  | use (location : Location)
  /-- A location receives a value made of the reads so far. -/
  | define (location : Location) (node : NodeId)
  /-- An evaluation ends whose value is not kept. -/
  | settle (node : NodeId)
  | call (unit : UnitId)
  | escape (unit : UnitId)
  | unresolved (node : NodeId) (name : String)
  | body (node : NodeId) (events : List FlowEvent)
deriving Inhabited

namespace FlowEvent

mutual

def flatten : FlowEvent → List FlowEvent
  | .body node events => .body node events :: flattenAll events
  | .use l => [.use l]
  | .define l node => [.define l node]
  | .settle node => [.settle node]
  | .call u => [.call u]
  | .escape u => [.escape u]
  | .unresolved node name => [.unresolved node name]

def flattenAll : List FlowEvent → List FlowEvent
  | [] => []
  | e :: rest => flatten e ++ flattenAll rest

end

def use? : FlowEvent → Option Location
  | .use l => some l
  | _ => none

def define? : FlowEvent → Option Location
  | .define l _ => some l
  | _ => none

def call? : FlowEvent → Option UnitId
  | .call u => some u
  | _ => none

def escape? : FlowEvent → Option UnitId
  | .escape u => some u
  | _ => none

def unresolved? : FlowEvent → Option (NodeId × String)
  | .unresolved node name => some (node, name)
  | _ => none

inductive Access where
  | load
  | compute
  | store
  | callee
deriving DecidableEq, Inhabited, Repr

section Evaluation

variable (p : Declarations) (g : FlowGraph)

def nameUse (node : NodeId) : List FlowEvent :=
  match p.table.get? node with
  | some (.location l) => [.use l]
  | some (.unresolved name) => [.unresolved node name, .use .universal]
  | some (.builtin _) | none => []

def nameDef (node : NodeId) : List FlowEvent :=
  match p.table.location? node with
  | some l => [.define l node]
  | none => []

def methodsNamed (attr : String) : List UnitId :=
  (p.units.toList.filter fun u =>
    u.methodOf.isSome && ("." ++ attr).toList.isSuffixOf u.name.toList).map (·.id)

/-- The constructors that run when a class is called. -/
def constructorsOf (u : UnitInfo) : List UnitId :=
  if u.kind == .cls then
    (p.units.toList.filter fun v => v.methodOf.isSome && v.methodOf == p.classOf? u.node.id &&
      ".__init__".toList.isSuffixOf v.name.toList).map (·.id)
  else []

/-- The units that run when any of the given ones is called. -/
def calledThrough (units : List UnitId) : List FlowEvent :=
  units.flatMap fun u => .call u :: (constructorsOf p (p.unit u)).map .call

def boundTo? : Option Location → List UnitId
  | some (.var scope name) => p.unitsBoundIn scope name
  | _ => []

def callees (callee : Node) : List FlowEvent :=
  match callee.kind with
  | .name name => calledThrough p (p.unitsBoundTo (p.table.scopeOf callee.id) name)
  | .attribute attr =>
    (methodsNamed p attr).map .call ++ calledThrough p (boundTo? p (p.moduleAttribute? callee))
  | _ => []

def globalUse (node : Node) : List FlowEvent :=
  match p.moduleAttribute? node with
  | some l => (boundTo? p (some l)).map .escape ++ [.use l]
  | none => []

def globalDef (node : Node) : List FlowEvent :=
  match p.moduleAttribute? node with
  | some l => [.define l node.id]
  | none => []

def lambdaParams : List Node → List FlowEvent
  | [] => []
  | arguments :: _ => arguments.children.flatMap fun param => nameDef p param.id

mutual

def visit (access : Access) : Node → List FlowEvent
  | ⟨id, kind, span, parent, children⟩ =>
    let node : Node := ⟨id, kind, span, parent, children⟩
    if access ≠ .compute ∧ g.isHoisted id ∧ ¬(access = .store ∧ kind.isPattern) then
      [.use (.temp id)]
    else match access, kind with
      | .store, .name _ => nameDef p id
      | .store, .tuple => visitAll .store children
      | .store, .list => visitAll .store children
      | .store, .starred => visitFirst .store children
      | .store, .attribute _ => visitAll .load children ++ globalDef p node
      | .callee, .name _ => nameUse p id
      | .callee, .attribute _ => visitAll .load children
      | _, .name name => nameUse p id ++ (p.unitsBoundTo (p.table.scopeOf id) name).map .escape
      | _, .attribute attr =>
        (methodsNamed p attr).map .escape ++ visitAll .load children ++ globalUse p node
      | _, .lambda =>
        visitDefaults children ++ [.body id (lambdaParams p children ++ visitLambda id children)]
      | _, .listComp =>
        visitFirstIterable children ++ [.body id (visitClauses true children ++ visitElements children)]
      | _, .setComp =>
        visitFirstIterable children ++ [.body id (visitClauses true children ++ visitElements children)]
      | _, .dictComp =>
        visitFirstIterable children ++ [.body id (visitClauses true children ++ visitElements children)]
      | _, .generatorExp =>
        visitFirstIterable children ++ [.body id (visitClauses true children ++ visitElements children)]
      | _, .namedExpr => match children with
        | [target, value] => visit .load value ++ nameDef p target.id
        | _ => []
      | _, .call => match children with
        | [] => []
        | callee :: args => callees p callee ++ visit .callee callee ++ visitAll .load args
      | _, _ => visitAll .load children

def visitAll (access : Access) : List Node → List FlowEvent
  | [] => []
  | n :: rest => visit access n ++ visitAll access rest

def visitFirst (access : Access) : List Node → List FlowEvent
  | [] => []
  | n :: _ => visit access n

def visitDefaults : List Node → List FlowEvent
  | [] => []
  | ⟨_, _, _, _, params⟩ :: _ => visitGrandchildren params

def visitGrandchildren : List Node → List FlowEvent
  | [] => []
  | ⟨_, _, _, _, children⟩ :: rest => visitAll .load children ++ visitGrandchildren rest

def visitLambda (id : NodeId) : List Node → List FlowEvent
  | _ :: value :: _ => visit .load value ++ [.define (.ret id) id]
  | _ => []

/-- The iterable of the first clause, which belongs outside. -/
def visitFirstIterable : List Node → List FlowEvent
  | [] => []
  | ⟨_, kind, _, _, parts⟩ :: rest =>
    if kind = .comprehension then visitSecond parts else visitFirstIterable rest

def visitSecond : List Node → List FlowEvent
  | _ :: n :: _ => visit .load n
  | _ => []

/-- The clauses of a comprehension as they run inside. -/
def visitClauses (first : Bool) : List Node → List FlowEvent
  | [] => []
  | ⟨id, kind, _, _, parts⟩ :: rest =>
    if kind = .comprehension then visitParts first parts ++ .settle id :: visitClauses false rest
    else visitClauses first rest

/-- Iterable, target and conditions of a clause. -/
def visitParts (first : Bool) : List Node → List FlowEvent
  | [] => []
  | [target] => visit .store target
  | target :: iterable :: conditions =>
    (if first then [] else visit .load iterable) ++ visit .store target ++ visitAll .load conditions

def visitElements : List Node → List FlowEvent
  | [] => []
  | ⟨id, kind, span, parent, children⟩ :: rest =>
    if kind = .comprehension then visitElements rest
    else visit .load ⟨id, kind, span, parent, children⟩ ++ visitElements rest

end

def ofDefinition (children : List Node) : List FlowEvent :=
  children.flatMap fun child => match child.kind with
    | .block => []
    | .arguments => visitGrandchildren p g child.children
    | _ => visit p g .load child

/-- An import runs modules, reads their globals and binds names. -/
def ofImport (stmt : Node) : List FlowEvent :=
  (p.unitsRunBy stmt).map .call ++ stmt.children.flatMap fun item =>
    (match p.importedGlobal? item with
      | some l => [.use l]
      | none => []) ++ nameDef p item.id

/-- An augmented assignment reads a name before its operand; anything else only evaluates the parts
of the target. -/
def ofAugmented (target value : Node) : List FlowEvent :=
  match target.kind with
  | .name _ => nameUse p target.id ++ visit p g .load value ++ nameDef p target.id
  | _ => visit p g .store target ++ visit p g .load value

variable (u : UnitInfo)

def ofStatement (stmt : Node) : List FlowEvent :=
  match stmt.kind with
  | .assign => match stmt.children.getLast? with
    | some value => visit p g .load value ++ visitAll p g .store stmt.children.dropLast
    | none => []
  | .augAssign _ => match stmt.children with
    | [target, value] => ofAugmented p g target value
    | _ => []
  | .annAssign _ => match stmt.children with
    | [target, value] => visit p g .load value ++ visit p g .store target
    | _ => []
  | .delete => visitAll p g .store stmt.children
  | .ret => visitAll p g .load stmt.children ++ [.define (.ret u.node.id) stmt.id]
  | .functionDef _ | .classDef _ => ofDefinition p g stmt.children ++ nameDef p stmt.id
  | .importModules | .importFrom _ => ofImport p stmt
  | .globalNames _ | .nonlocalNames _ | .pass | .breakLoop | .continueLoop => []
  | .exprStmt | .raise | .unsupported _ => visitAll p g .load stmt.children
  | _ => visit p g .load stmt

def ofStep : Step → List FlowEvent
  | .parameters arguments => arguments.children.flatMap fun param => nameDef p param.id
  | .exec stmt => ofStatement p g u stmt
  | .eval expr => visit p g .compute expr ++ [.define (.temp expr.id) expr.id]
  | .bind into value => [.use (.temp value.id), .define (.temp into.id) into.id]
  | .test condition => visit p g .load condition
  | .iterate target iterable => .use (.temp iterable.id) :: visit p g .store target
  | .handle handler =>
    (match handler.children with
      | caught :: _ :: _ => visit p g .load caught
      | _ => []) ++
    (match handler.kind with
      | .handler (some _) => nameDef p handler.id
      | _ => [])
  | .enter item => visitFirst p g .load item.children ++ visitFirst p g .store (item.children.drop 1)
  | .returnNone => [.define (.ret u.node.id) u.node.id]

def ofBlock (b : Block) : List FlowEvent :=
  b.steps.flatMap fun s => ofStep p g u s ++ [.settle ((s.node?.getD u.node).id)]

end Evaluation

end FlowEvent
end PointsTo

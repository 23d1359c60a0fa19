import PointsTo.Evaluation.Expression
import PointsTo.Evaluation.Hint

/-! # Steps and blocks

A block runs its steps in order. Every step ends but one: a handler looks for exceptions through tuples
of tuples, and a tuple that contains itself gives that search no end. -/

namespace PointsTo
namespace Eval

variable (f : Frame)

section Parameters

def isOpen : Bool := f.facts.openUnits.contains f.unit.id

def positionalParam (l : Location) (param : Node) : Eval TypeSet := do
  let passed := if isOpen f then .top else (f.env.get? l).getD .bottom
  match param.children with
  | d :: _ => return passed.join (← readSlot f (.temp d.id))
  | [] => return passed

def restParam (span : Span) : Eval TypeSet := do
  let r : HeapRef := ⟨{ span, scope := f.unit.scope }, .tuple⟩
  if isOpen f then writeSlot f r.elements .top
  return .single (.object r)

def keywordsParam (span : Span) : Eval TypeSet := do
  let r : HeapRef := ⟨{ span, scope := f.unit.scope }, .dict⟩
  writeSlot f r.keys (.single .str)
  if isOpen f then writeSlot f r.elements .top
  return .single (.object r)

/-- What a parameter holds, and the number of the next container in a hint. The first parameter of a
method is the receiver; a hint decides over callers. -/
def paramValue (isFirst : Bool) (part : Nat) (l : Location) (param : Node) (hint : Option String)
    (kind : ParamKind) : Eval (TypeSet × Nat) :=
  match (if isFirst && kind == .positional then f.unit.methodOf else none), hint, kind with
  | some cls, _, _ => pure (.single (f.inst cls), part)
  | none, some text, _ => hintValue f param.span part (Hint.ofString text)
  | none, none, .positional => do return (← positionalParam f l param, part)
  | none, none, .varArgs => do return (← restParam f param.span, part)
  | none, none, .kwArgs => do return (← keywordsParam f param.span, part)

def enterParams (isFirst : Bool) (part : Nat) : List Node → Eval Unit
  | [] => pure ()
  | param :: rest =>
    match param.kind with
    | .param name hint kind => do
      let l : Location := .var f.unit.scope name
      let (v, part) ← paramValue f isFirst part l param hint kind
      record param.id v
      noteDefinition f l
      publish l v
      setSlot l v
      enterParams false part rest
    | _ => enterParams false part rest

end Parameters

section Statements

def evaluate (n : Node) : Eval TypeSet := eval f (lambdas f) {} n

def evaluateAll (ns : List Node) : Eval Unit := discard <| evalAll f (lambdas f) {} ns

def storeTo (v : TypeSet) (target : Node) : Eval Unit := storeInto f (lambdas f) {} v target

/-- Unbinds a name; of any other target only the parts are evaluated. -/
def delete (target : Node) : Eval Unit :=
  match target.kind with
  | .name _ => bindName f false target.id .unbound
  | _ => evaluateAll f target.children

def augmentName (stmt : NodeId) (op : BinaryOp) (target value : Node) : Eval Unit :=
  match f.program.table.location? target.id with
  | some l => do
    let current ← readSlot f l
    record target.id current
    let operand ← evaluate f value
    assign f false l (← augment f stmt op current operand)
  | none => pure ()

def augmentAttr (stmt : NodeId) (op : BinaryOp) (target : Node) (attr : String) (value : Node) : Eval Unit :=
  match target.children with
  | receiver :: _ => do
    let r ← evaluate f receiver
    let current ← loadAttr f target.id r attr
    let operand ← evaluate f value
    storeAttr f r attr (← augment f stmt op current operand)
  | [] => pure ()

def augmentItem (stmt : NodeId) (op : BinaryOp) (target value : Node) : Eval Unit :=
  match target.children with
  | [container, index] => do
    let isSlice := decide (index.kind = .slice)
    let c ← evaluate f container
    let i ← evaluate f index
    let current ← loadItem f target.id isSlice i c
    let operand ← evaluate f value
    storeItem f target.id isSlice i c (← augment f stmt op current operand)
  | _ => pure ()

def augmented (stmt : NodeId) (op : BinaryOp) (target value : Node) : Eval Unit :=
  match target.kind with
  | .name _ => augmentName f stmt op target value
  | .attribute attr => augmentAttr f stmt op target attr value
  | .subscript => augmentItem f stmt op target value
  | _ => discard <| evaluate f value

def importMember (module : String) (item : Node) : Eval Unit :=
  match item.kind with
  | .alias name _ =>
    if name = "*" then pure ()
    else match f.program.moduleMember? module name with
      | some (.global l) => do bindName f false item.id ((← readSlot f l).without .unbound)
      | some (.submodule other) => bindName f false item.id (.single (.module other))
      | none => bindName f false item.id (.single (.module (module ++ "." ++ name)))
  | _ => pure ()

def exec (stmt : Node) : Eval Unit :=
  match stmt.kind with
  | .assign => match stmt.children.getLast? with
    | some value => do
      let v ← evaluate f value
      stmt.children.dropLast.forM (storeTo f v)
    | none => pure ()
  | .augAssign op => match stmt.children with
    | [target, value] => augmented f stmt.id op target value
    | _ => pure ()
  | .annAssign _ => match stmt.children with
    | [target, value] => do storeTo f (← evaluate f value) target
    | _ => pure ()
  | .delete => stmt.children.forM (delete f)
  | .ret => do
    writeSlot f (.ret f.unit.node.id) (← match stmt.children with
      | value :: _ => evaluate f value
      | [] => pure (.single .none))
  | .functionDef _ => do
    match stmt.childOfKind? "Arguments" with
    | some arguments => evalParamDefaults f (lambdas f) {} arguments.children
    | none => pure ()
    bindName f false stmt.id (.single (.function stmt.id))
  | .classDef _ => do
    evaluateAll f (stmt.children.drop 1)
    bindName f false stmt.id (match f.program.classOf? stmt.id with
      | some cls => .single (.cls cls)
      | none => .top)
  | .importModules => stmt.children.forM fun item => match f.program.importedModule? item with
    | some module => bindName f false item.id (.single (.module module))
    | none => pure ()
  | .importFrom module => stmt.children.forM (importMember f module)
  | .exprStmt | .raise | .assertion => evaluateAll f stmt.children
  | .unsupported word => do
    flag stmt.id (.unsupported word)
    evaluateAll f stmt.children
  | _ => pure ()

def entered (item : NodeId) (manager : TypeTag) : Eval TypeSet :=
  match manager.instanceOf? with
  | some cls => do
    return (← callSpecial? f item cls manager "__enter__" {}).getD (.single manager)
  | none => pure (.single manager)

def enterItem (item : Node) : Eval Unit :=
  match item.children with
  | [] => pure ()
  | context :: targets => do
    let manager ← evaluate f context
    let bound ← joinEach (entered f item.id) manager.toList
    match targets with
    | target :: _ => storeTo f (if manager.isTop then .top else bound) target
    | [] => pure ()

def bindCaught (handler : Node) (caught : TypeSet) : Eval Unit :=
  match handler.kind with
  | .handler (some _) => do
    record handler.id caught
    bindName f false handler.id caught
  | _ => pure ()

def runStep : Step → Eval Unit
  | .parameters arguments => enterParams f true 0 arguments.children
  | .exec stmt => exec f stmt
  | .eval expr => do setSlot (.temp expr.id) (← eval f (lambdas f) { ahead := true } expr)
  | .bind into value => do setSlot (.temp into.id) (← readSlot f (.temp value.id))
  | .test condition => discard <| evaluate f condition
  | .iterate target iterable => do
    let source ← readSlot f (.temp iterable.id)
    storeTo f (← iterate f iterable.id source) target
  | .handle _ => pure ()
  | .enter item => enterItem f item
  | .returnNone => writeSlot f (.ret f.unit.node.id) (.single .none)

end Statements

end Eval

namespace Frame

variable (f : Frame)

section Exceptions

variable (s : AbstractState) (handler : NodeId)

/-- The instances of the exception that one tag names; a tuple names those of its members. -/
def caughtTag (members : TypeSet → Option TypeSet) : TypeTag → Option TypeSet
  | .cls cls => some (.single (f.inst cls))
  | .builtin name => some (.single (.object (f.alloc handler (.builtin name))))
  | .object ⟨site, .tuple⟩ => members (f.value s (.element site))
  | _ => some .top

/-- The instances of the exceptions that a handler names, through tuples no deeper than the given
number. -/
def caughtBy : Nat → TypeSet → Option TypeSet
  | 0, _ => none
  | depth + 1, types =>
    if types.isTop then some .top
    else (types.toList.mapM (f.caughtTag s handler (caughtBy depth))).map TypeSet.joinAll

/-- The instances of the exceptions that a handler names; nothing if a tuple contains itself. Tuples
nest no deeper than there are slots to hold them. -/
def caught (types : TypeSet) : Option TypeSet := f.caughtBy s handler (s.size + f.env.size + 2) types

end Exceptions

def handle (handler : Node) (m : Machine) : Option Machine :=
  match handler.children with
  | named :: _ :: _ =>
    let (types, m) := (Eval.evaluate f named).run m
    (f.caught m.state handler.id types).map fun v => ((Eval.bindCaught f handler v).run m).2
  | _ => some ((Eval.bindCaught f handler .top).run m).2

/-- Runs a step; nothing if it does not end. -/
def step (m : Machine) : Step → Option Machine
  | .handle handler => f.handle handler m
  | s => some ((Eval.runStep f s).run m).2

def runBlock (m : Machine) : Option Machine := f.block.steps.foldlM f.step m

def apply (b : Block) (m : Machine) : Option Machine := { f with block := b }.runBlock m

def transfer (b : Block) (s : AbstractState) : Option AbstractState :=
  (f.apply b { state := s }).map (·.state)

end Frame
end PointsTo

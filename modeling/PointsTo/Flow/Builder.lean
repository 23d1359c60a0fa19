import PointsTo.Flow.Graph
import PointsTo.Flow.Shape
import PointsTo.Program

/-! # Building flow graphs

Lowers the body of a unit into basic blocks. Inside a guarded block every statement gets a block of
its own, so that handlers see the state between any two statements, and a jump out of a region with a
last part passes through that part. Short-circuit and conditional expressions that may have effects
become branches, and what stands to their left is evaluated into temporaries first. -/

namespace PointsTo

namespace Node

mutual

/-- Whether evaluation may do more than produce a value. The body of a lambda does not run where the
lambda is written. -/
def hasEffect : Node → Bool
  | ⟨_, kind, _, _, children⟩ => kind.hasSideEffect || (kind != .lambda && anyEffect children)

def anyEffect : List Node → Bool
  | [] => false
  | n :: rest => hasEffect n || anyEffect rest

end

def isShortCircuit : Kind → Bool
  | .logical _ | .conditional => true
  | _ => false

def isExpandable (n : Node) : Bool := isShortCircuit n.kind && n.hasEffect

mutual

/-- Whether an expression to be expanded stands here, outside any nested scope. -/
def needsExpansion : Node → Bool
  | ⟨id, kind, span, parent, children⟩ =>
    kind != .lambda && !kind.isComprehension &&
      (isExpandable ⟨id, kind, span, parent, children⟩ || anyExpansion children)

def anyExpansion : List Node → Bool
  | [] => false
  | n :: rest => needsExpansion n || anyExpansion rest

end

end Node

structure LoopFrame where
  continueBlock : BlockId
  breakBlock : BlockId
  /-- How many regions were open when the loop started. -/
  regionDepth : Nat

inductive Region where
  /-- Exceptions go to the dispatch of the handlers. -/
  | handlers (dispatch : BlockId)
  /-- Everything a last part guards: jumps out go to its entry and on to where they were bound. -/
  | last (entry : BlockId) (pending : List (BlockId × Nat × EdgeKind))

def Region.guard? : Region → Option BlockId
  | .handlers _ => none
  | .last entry _ => some entry

/-- The state of a lowering. Loops and regions are listed innermost first. -/
structure Builder where
  graph : FlowGraph := .initial
  current : BlockId := 0
  loops : List LoopFrame := []
  regions : List Region := []

abbrev Build := StateT Builder (Except Fault)

namespace Builder

def malformed {α : Type} (span : Span) (reason : String) : Build α :=
  throw (.malformedTree span reason)

def modifyGraph (f : FlowGraph → FlowGraph) : Build Unit := modify fun b => { b with graph := f b.graph }

def setCurrent (id : BlockId) : Build Unit := modify fun b => { b with current := id }

def exceptionTarget (b : Builder) : BlockId :=
  match b.regions with
  | .handlers dispatch :: _ => dispatch
  | .last entry _ :: _ => entry
  | [] => b.graph.raiseExit

/-- A block at the given depth. Every block made inside a region may raise. -/
def newBlockAt (loopDepth : Nat) : Build BlockId := do
  let b ← get
  let (id, g) := b.graph.addBlock loopDepth (b.regions.filterMap Region.guard?)
  let g := if b.regions.isEmpty then g else g.addEdge id b.exceptionTarget .exception
  set { b with graph := g }
  return id

def newBlock : Build BlockId := do newBlockAt (← get).loops.length

def push (s : Step) : Build Unit := do
  let b ← get
  modifyGraph fun g => g.addStep b.current s

def markHoisted (n : Node) : Build Unit :=
  modifyGraph fun g => { g with hoisted := g.hoisted.insert n.id }

def hoist (n : Node) : Build Unit := do
  push (.eval n)
  markHoisted n

def hoistOnce (n : Node) : Build Unit := do
  if !(← get).graph.isHoisted n.id then hoist n

/-- Ends the current block, if it is still open, with a jump along an edge of the given kind. -/
def jumpBy (kind : EdgeKind) (target : BlockId) : Build Unit := do
  let b ← get
  if (b.graph.block b.current).terminator.isNone then
    modifyGraph fun g => (g.setTerminator b.current (.goto target)).addEdge b.current target kind

def jump (target : BlockId) : Build Unit := jumpBy .unconditional target

def addEdge (source target : BlockId) (kind : EdgeKind) : Build Unit :=
  modifyGraph fun g => g.addEdge source target kind

def fork (t : Terminator) (thenBlock elseBlock : BlockId) : Build Unit := do
  let b ← get
  modifyGraph fun g => ((g.setTerminator b.current t).addEdge b.current thenBlock .whenTrue).addEdge
    b.current elseBlock .whenFalse

/-- Notes a jump with the innermost last part among the first `n` regions and returns its entry. -/
def deferTo (n : Nat) (jump : BlockId × Nat × EdgeKind) : List Region → Option (BlockId × List Region)
  | [] => none
  | r :: rest =>
    match n, r with
    | 0, _ => none
    | _, .last entry pending => some (entry, .last entry (pending ++ [jump]) :: rest)
    | n + 1, r => (deferTo n jump rest).map fun (entry, rest) => (entry, r :: rest)

/-- Leaves for `dest` through every last part opened after the first `limit` regions. -/
def route (source dest : BlockId) (limit : Nat) (kind : EdgeKind) : Build Unit := do
  let b ← get
  match deferTo (b.regions.length - limit) (dest, limit, kind) b.regions with
  | some (entry, regions) =>
    set { b with regions, graph := b.graph.addEdge source entry .unconditional }
  | none => set { b with graph := b.graph.addEdge source dest kind }

/-- Goes on in a fresh block that nothing leads to. -/
def startDead : Build Unit := do setCurrent (← newBlock)

mutual

def lowerExpr : Node → Build Unit
  | ⟨id, kind, span, parent, children⟩ => do
    let node : Node := ⟨id, kind, span, parent, children⟩
    if node.needsExpansion then
      if node.isExpandable then
        match kind with
        | .logical op => do
          let merge ← newBlock
          lowerOperands node op merge children
          setCurrent merge
          markHoisted node
        | _ => match children with
          | [test, body, orElse] => do
            lowerExpr test
            push (.test test)
            let thenBlock ← newBlock
            let elseBlock ← newBlock
            let merge ← newBlock
            fork (.branch test thenBlock elseBlock) thenBlock elseBlock
            setCurrent thenBlock
            lowerExpr body
            hoistOnce body
            push (.bind node body)
            jump merge
            setCurrent elseBlock
            lowerExpr orElse
            hoistOnce orElse
            push (.bind node orElse)
            jump merge
            setCurrent merge
            markHoisted node
          | _ => malformed span "conditional expression needs three operands"
      else lowerSequence [] children

/-- The operands of a short-circuit expression: each is settled into the expression's temporary, and all
but the last branch to the end. -/
def lowerOperands (node : Node) (op : LogicalOp) (merge : BlockId) : List Node → Build Unit
  | [] => return
  | value :: rest => do
    lowerExpr value
    hoistOnce value
    push (.bind node value)
    if rest.isEmpty then jump merge
    else
      let next ← newBlock
      match op with
      | .and => fork (.branch value next merge) next merge
      | .or => fork (.branch value merge next) merge next
      setCurrent next
      lowerOperands node op merge rest

/-- Operands evaluated from left to right. Before one that branches, every operand to its left that waits
is evaluated into a temporary. -/
def lowerSequence (waiting : List Node) : List Node → Build Unit
  | [] => return
  | n :: rest => do
    if n.needsExpansion then
      waiting.forM hoist
      lowerExpr n
      lowerSequence (if (← get).graph.isHoisted n.id then [] else [n]) rest
    else lowerSequence (waiting ++ [n]) rest

end

def execAfter (node : Node) (operands : List Node) : Build Unit := do
  lowerSequence [] operands
  push (.exec node)

def returnFrom (node : Node) : Build Unit := do
  execAfter node node.children
  let b ← get
  modifyGraph fun g => g.setTerminator b.current .ret
  route b.current b.graph.exit 0 .unconditional
  startDead

def raiseFrom (node : Node) : Build Unit := do
  execAfter node node.children
  let b ← get
  modifyGraph fun g => (g.setTerminator b.current .raise).addEdge b.current b.exceptionTarget .exception
  startDead

def leaveLoop (node : Node) (isBreak : Bool) : Build Unit := do
  let b ← get
  match b.loops with
  | [] => malformed node.span ("`" ++ (if isBreak then "break" else "continue") ++ "` outside loop")
  | frame :: _ =>
    let (dest, kind) :=
      if isBreak then (frame.breakBlock, EdgeKind.unconditional) else (frame.continueBlock, .loopBack)
    modifyGraph fun g => g.setTerminator b.current (.goto dest)
    route b.current dest frame.regionDepth kind
    startDead

def buildIf (test : Node) (body orElse : Build Unit) : Build Unit := do
  lowerExpr test
  push (.test test)
  let thenBlock ← newBlock
  let elseBlock ← newBlock
  let merge ← newBlock
  fork (.branch test thenBlock elseBlock) thenBlock elseBlock
  setCurrent thenBlock
  body
  jump merge
  setCurrent elseBlock
  orElse
  jump merge
  setCurrent merge

def openLoop (header exit : BlockId) : Build Unit :=
  modify fun b => { b with loops := ⟨header, exit, b.regions.length⟩ :: b.loops }

def closeLoop : Build Unit := modify fun b => { b with loops := b.loops.tail }

/-- What follows a loop: its alternative, if there is one, and then the exit. -/
def finishLoop (exit : BlockId) (elseBlock : Option BlockId) (orElse : Build Unit) : Build Unit := do
  if let some elseBlock := elseBlock then
    setCurrent elseBlock
    orElse
    jump exit
  setCurrent exit

/-- The exit of a loop, the block of its alternative, and its header, which is entered. -/
def startLoop (hasElse : Bool) : Build (BlockId × Option BlockId × BlockId) := do
  let exit ← newBlock
  let elseBlock ← if hasElse then some <$> newBlock else pure none
  let header ← newBlockAt ((← get).loops.length + 1)
  jump header
  return (exit, elseBlock, header)

def buildWhile (node test : Node) (body : Build Unit) (orElse : Option (Build Unit)) : Build Unit := do
  let (exit, elseBlock, header) ← startLoop orElse.isSome
  openLoop header exit
  setCurrent header
  lowerExpr test
  push (.test test)
  let bodyBlock ← newBlock
  let leave := elseBlock.getD exit
  fork (.loop node bodyBlock leave) bodyBlock leave
  setCurrent bodyBlock
  body
  jumpBy .loopBack header
  closeLoop
  finishLoop exit elseBlock (orElse.getD (pure ()))

/-- A loop over an iterable, evaluated once. The target is bound only on paths into the body. -/
def buildFor (node target iterable : Node) (body : Build Unit) (orElse : Option (Build Unit)) : Build Unit := do
  lowerExpr iterable
  hoistOnce iterable
  let (exit, elseBlock, header) ← startLoop orElse.isSome
  openLoop header exit
  let bodyBlock ← newBlock
  let leave := elseBlock.getD exit
  setCurrent header
  fork (.loop node bodyBlock leave) bodyBlock leave
  setCurrent bodyBlock
  push (.iterate target iterable)
  body
  jumpBy .loopBack header
  closeLoop
  finishLoop exit elseBlock (orElse.getD (pure ()))

def openRegion (region : BlockId → Region) : Build BlockId := do
  let id ← newBlock
  modify fun b => { b with regions := region id :: b.regions }
  return id

def closeRegion : Build Unit := modify fun b => { b with regions := b.regions.tail }

/-- The last part of a guarded block: it goes on to every place that a jump through it was bound for, to
the next handler outwards, and to what follows. -/
def buildLast (after : BlockId) (last : Build Unit) : Build Unit := do
  match (← get).regions with
  | .last entry pending :: outer =>
    modify fun b => { b with regions := outer }
    setCurrent entry
    last
    let b ← get
    addEdge b.current b.exceptionTarget .exception
    pending.forM fun (dest, limit, kind) => route b.current dest limit kind
    jump after
  | _ => return

/-- A guarded block. An empty block at its start hands the state before the first statement to the
handlers. -/
def buildTry (body orElse : Build Unit) (handlers : Option (BlockId → BlockId → Build Unit))
    (catchesAll : Bool) (last : Option (Build Unit)) : Build Unit := do
  let after ← newBlock
  let join ← if last.isSome then openRegion (.last · []) else pure after
  let dispatch ← if handlers.isSome then some <$> openRegion .handlers else pure none
  let start ← newBlock
  jump start
  setCurrent start
  let first ← newBlock
  jump first
  setCurrent first
  body
  if dispatch.isSome then closeRegion
  orElse
  jump join
  if let (some dispatch, some handlers) := (dispatch, handlers) then
    handlers dispatch join
    if !catchesAll then addEdge dispatch (← get).exceptionTarget .exception
  if let some last := last then buildLast after last
  setCurrent after

def buildHandler (handler : Node) (dispatch join : BlockId) (body : Build Unit) : Build Unit := do
  let block ← newBlock
  addEdge dispatch block .unconditional
  setCurrent block
  push (.handle handler)
  body
  jump join

/-- An assertion: a branch whose one side evaluates the message and raises. -/
def buildAssert (test : Node) (message : Option Node) : Build Unit := do
  lowerExpr test
  push (.test test)
  let failBlock ← newBlock
  let after ← newBlock
  fork (.branch test after failBlock) after failBlock
  setCurrent failBlock
  if let some message := message then
    lowerExpr message
    hoistOnce message
  modifyGraph fun g => g.setTerminator failBlock .raise
  let b ← get
  addEdge b.current b.exceptionTarget .exception
  setCurrent after

/-- Inside a region a statement goes into a block of its own. -/
def separate : Build Unit := do
  let b ← get
  if !b.regions.isEmpty && !(b.graph.block b.current).steps.isEmpty then
    let next ← newBlock
    jump next
    setCurrent next

def isHandler (n : Node) : Bool :=
  match n.kind with
  | .handler _ => true
  | _ => false

def isFragment : Kind → Bool
  | .program | .module | .block | .last | .arguments | .param _ _ _ | .handler _ | .withItem
  | .alias _ _ | .comprehension | .keyword _ => true
  | _ => false

def testShape : String := "expected a test, a body and an optional else block"

mutual

def buildStmt : Node → Build Unit
  | ⟨id, kind, span, parent, children⟩ => do
    let node : Node := ⟨id, kind, span, parent, children⟩
    separate
    match kind with
    | .ifElse => match children with
      | [test, body] => buildIf test (buildBlock body) (pure ())
      | [test, body, orElse] => buildIf test (buildBlock body) (buildBlock orElse)
      | _ => malformed span testShape
    | .whileLoop => match children with
      | [test, body] => buildWhile node test (buildBlock body) none
      | [test, body, orElse] => buildWhile node test (buildBlock body) (some (buildBlock orElse))
      | _ => malformed span testShape
    | .forLoop => match children with
      | [target, iterable, body] => buildFor node target iterable (buildBlock body) none
      | target :: iterable :: body :: orElse :: _ =>
        buildFor node target iterable (buildBlock body) (some (buildBlock orElse))
      | _ => malformed span "`for` needs a target, an iterable and a body"
    | .tryBlock => match children with
      | body :: rest =>
        buildTry (buildBlock body) (buildFirst .block rest)
          (if rest.any isHandler then some fun dispatch join => buildHandlers dispatch join rest
            else none)
          ((rest.filter isHandler).any (·.children.length < 2))
          (if rest.any (·.kind == .last) then some (buildFirst .last rest) else none)
      | [] => malformed span "`try` without a body"
    | .withBlock => buildItems children
    | .assertion => match children with
      | test :: rest => buildAssert test rest.head?
      | [] => malformed span "`assert` without a test"
    | .ret => returnFrom node
    | .raise => raiseFrom node
    | .breakLoop => leaveLoop node true
    | .continueLoop => leaveLoop node false
    | .assign => execAfter node (children.getLast?.toList ++ children.dropLast)
    | .augAssign _ | .annAssign _ => execAfter node children[1]?.toList
    | .exprStmt => execAfter node children
    | .malformed word defect => throw (Node.defectFault span word defect)
    | kind =>
      if isFragment kind then malformed span ("`" ++ kind.word ++ "` cannot appear as a statement")
      else push (.exec node)

def buildBody : List Node → Build Unit
  | [] => return
  | n :: rest => do
    buildStmt n
    buildBody rest

def buildBlock : Node → Build Unit
  | ⟨_, _, _, _, stmts⟩ => buildBody stmts

def buildFirst (wanted : Kind) : List Node → Build Unit
  | [] => return
  | ⟨_, kind, _, _, stmts⟩ :: rest => if kind = wanted then buildBody stmts else buildFirst wanted rest

def buildHandlers (dispatch join : BlockId) : List Node → Build Unit
  | [] => return
  | ⟨id, kind, span, parent, children⟩ :: rest => do
    let node : Node := ⟨id, kind, span, parent, children⟩
    if isHandler node then buildHandler node dispatch join (buildFinal children)
    buildHandlers dispatch join rest

def buildFinal : List Node → Build Unit
  | [] => return
  | [n] => buildBlock n
  | _ :: rest => buildFinal rest

def buildItems : List Node → Build Unit
  | [] => return
  | ⟨id, kind, span, parent, children⟩ :: rest => do
    let node : Node := ⟨id, kind, span, parent, children⟩
    match kind with
    | .withItem => do
      lowerSequence [] children.head?.toList
      push (.enter node)
    | .block => buildBody children
    | _ => malformed span "`with` expects items followed by a block"
    buildItems rest

end

/-- The steps of a unit: parameters first and an implicit return last, both for functions only. -/
def buildUnit (unit : UnitInfo) (body : List Node) : Build Unit := do
  if unit.kind == .function then
    if let some arguments := unit.node.childOfKind? "Arguments" then push (.parameters arguments)
  buildBody body
  if unit.kind == .function then push .returnNone
  jump (← get).graph.exit

end Builder

def FlowGraph.ofUnit (policy : UnsupportedPolicy) (unit : UnitInfo) : Except Fault FlowGraph :=
  match unit.body with
  | none => .error (.malformedTree unit.node.span ("`" ++ unit.name ++ "` has no body block"))
  | some body => do
    Node.checkAll policy body
    let (_, b) ← (Builder.buildUnit unit body).run {}
    return b.graph.finish

end PointsTo

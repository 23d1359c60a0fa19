import PointsTo.Tree.Node

/-! # Flow graphs

Basic blocks of steps joined by edges. A block lists the edges into it and out of it; `addEdge` keeps
the two lists in step and adds no edge twice. The depth-first walk from the entry gives the blocks in
postorder together with the edges that lead back to a block whose visit has not ended. -/

namespace PointsTo

inductive EdgeKind where
  | unconditional | whenTrue | whenFalse | loopBack | exception
deriving DecidableEq, Inhabited, Repr

def EdgeKind.name : EdgeKind → String
  | .unconditional => "Unconditional"
  | .whenTrue => "True"
  | .whenFalse => "False"
  | .loopBack => "LoopBack"
  | .exception => "Exception"

structure Edge where
  source : BlockId
  target : BlockId
  kind : EdgeKind
deriving DecidableEq, Inhabited, Repr

inductive Terminator where
  | goto (target : BlockId)
  | branch (condition : Node) (thenBlock elseBlock : BlockId)
  /-- A loop header that decides between another round and the exit. -/
  | loop (node : Node) (bodyBlock exitBlock : BlockId)
  | ret
  | raise
deriving Inhabited

inductive Step where
  | parameters (arguments : Node)
  | exec (stmt : Node)
  | eval (expr : Node)
  | bind (into value : Node)
  | test (condition : Node)
  | iterate (target iterable : Node)
  | handle (handler : Node)
  | enter (item : Node)
  | returnNone
deriving Inhabited

def Step.node? : Step → Option Node
  | .parameters n | .exec n | .eval n | .test n | .handle n | .enter n => some n
  | .bind into _ => some into
  | .iterate target _ => some target
  | .returnNone => none

structure Block where
  id : BlockId
  steps : List Step := []
  terminator : Option Terminator := none
  predecessors : List Edge := []
  successors : List Edge := []
  loopDepth : Nat
  unreachable : Bool := false
  /-- The entries of the last parts that guard the block, innermost first: those of the regions that were
  open when it was made. -/
  guards : List BlockId := []
deriving Inhabited

def Block.hasCode (b : Block) : Bool := b.steps.any (·.node?.isSome)

structure FlowGraph where
  blocks : Array Block
  entry : BlockId
  /-- Where the unit ends normally. -/
  exit : BlockId
  /-- Where exceptions go that nobody handles. -/
  raiseExit : BlockId
  /-- Expressions evaluated ahead of their parent into temporaries. -/
  hoisted : Std.ExtTreeSet NodeId
  /-- Edges that lead back to a block which does not dominate their source. -/
  irreducible : List (BlockId × BlockId)

namespace FlowGraph

def initial : FlowGraph :=
  ⟨#[{ id := 0, loopDepth := 0 }, { id := 1, loopDepth := 0 }, { id := 2, loopDepth := 0 }], 0, 1, 2,
    ∅, []⟩

instance : Inhabited FlowGraph := ⟨initial⟩

def size (g : FlowGraph) : Nat := g.blocks.size

def block (g : FlowGraph) (id : BlockId) : Block := g.blocks[id]?.getD { id, loopDepth := 0 }

def successors (g : FlowGraph) (id : BlockId) : List BlockId := (g.block id).successors.map (·.target)

def predecessors (g : FlowGraph) (id : BlockId) : List BlockId := (g.block id).predecessors.map (·.source)

def isHoisted (g : FlowGraph) (node : NodeId) : Bool := g.hoisted.contains node

def addBlock (g : FlowGraph) (loopDepth : Nat) (guards : List BlockId := []) : BlockId × FlowGraph :=
  (g.size, { g with blocks := g.blocks.push { id := g.size, loopDepth, guards } })

def modifyBlock (g : FlowGraph) (id : BlockId) (f : Block → Block) : FlowGraph :=
  { g with blocks := g.blocks.modify id f }

def addEdge (g : FlowGraph) (source target : BlockId) (kind : EdgeKind) : FlowGraph :=
  let e : Edge := ⟨source, target, kind⟩
  if (g.block source).successors.contains e then g
  else (g.modifyBlock source fun b => { b with successors := b.successors ++ [e] }).modifyBlock target
    fun b => { b with predecessors := b.predecessors ++ [e] }

def setTerminator (g : FlowGraph) (id : BlockId) (t : Terminator) : FlowGraph :=
  g.modifyBlock id fun b => { b with terminator := some t }

def addStep (g : FlowGraph) (id : BlockId) (s : Step) : FlowGraph :=
  g.modifyBlock id fun b => { b with steps := b.steps ++ [s] }

def edgeCount (g : FlowGraph) : Nat := (g.blocks.toList.flatMap fun b => b.successors).length

/-- A depth-first walk: the blocks under visit with the edges they have yet to follow, the blocks seen,
those whose visit has ended, latest first, and the edges found to lead back. -/
structure Walk where
  stack : List (BlockId × List Edge)
  seen : Std.ExtTreeSet BlockId
  order : List BlockId
  retreating : List Edge

namespace Walk

def start (edges : BlockId → List Edge) (b : BlockId) : Walk :=
  ⟨[(b, edges b)], Std.ExtTreeSet.ofList [b], [], []⟩

/-- Follows the next edge of the innermost visit, or ends that visit. -/
def step (edges : BlockId → List Edge) (w : Walk) : Walk :=
  match w.stack with
  | [] => w
  | (b, []) :: rest => { w with stack := rest, order := b :: w.order }
  | (b, e :: es) :: rest =>
    let stack := (b, es) :: rest
    if w.seen.contains e.target then
      if stack.any (·.1 == e.target) then { w with stack, retreating := w.retreating ++ [e] }
      else { w with stack }
    else
      { w with stack := (e.target, edges e.target) :: stack, seen := w.seen.insert e.target }

def run (edges : BlockId → List Edge) : Nat → Walk → Walk
  | 0, w => w
  | fuel + 1, w => run edges fuel (w.step edges)

end Walk

/-- Enough steps for any walk: one per edge and one per block. -/
def walkFuel (g : FlowGraph) : Nat := g.edgeCount + g.size

def walk (g : FlowGraph) : Walk :=
  let edges := fun b => (g.block b).successors
  (Walk.start edges g.entry).run edges g.walkFuel

/-- The reachable blocks, each before its successors as far as cycles allow. -/
def reversePostorder (g : FlowGraph) : List BlockId := g.walk.order

def postorder (g : FlowGraph) : List BlockId := g.reversePostorder.reverse

/-- The blocks reachable from the entry without passing through `avoided`. -/
def reachableAvoiding (g : FlowGraph) (avoided : BlockId) : Std.ExtTreeSet BlockId :=
  if g.entry == avoided then ∅
  else
    let edges := fun b => (g.block b).successors.filter (·.target != avoided)
    ((Walk.start edges g.entry).run edges g.walkFuel).seen

/-- Whether every path from the entry to `b` passes through `a`. -/
def dominates (g : FlowGraph) (a b : BlockId) : Bool := !(g.reachableAvoiding a).contains b

/-- The edges back to blocks that do not dominate their sources, as `dominates` tells. -/
def irreducibleBy (g : FlowGraph) (dominates : BlockId → BlockId → Bool) : List (BlockId × BlockId) :=
  (g.walk.retreating.filter fun e => !dominates e.target e.source).map fun e => (e.source, e.target)

/-- Marks the blocks that cannot be reached and finds the edges back that make the graph
irreducible. -/
def finish (g : FlowGraph) : FlowGraph :=
  let w := g.walk
  { g with
    blocks := g.blocks.map fun b => { b with unreachable := !w.seen.contains b.id }
    irreducible := g.irreducibleBy g.dominates }

/-- The first node of every dead region: of the dead blocks with code, those that no other such block
leads to. -/
def unreachableStatements (g : FlowGraph) : List Node :=
  let dead := fun b : Block => b.unreachable && b.hasCode
  (g.blocks.toList.filter fun b => dead b && !b.predecessors.any fun e => dead (g.block e.source)).filterMap
    fun b => b.steps.findSome? Step.node?

end FlowGraph
end PointsTo

import PointsTo.Flow.Graph
import PointsTo.Settings

/-! # Forward dataflow over a flow graph

The input of a block joins what its visited predecessors put out. Along an exception edge the
predecessor may have raised before it finished, so its input is joined too. Blocks wait on a worklist;
one whose output changes puts its successors there. A solve ends when nothing waits, or when its budget
of visits or its time is spent. A transfer that gives nothing is one whose evaluation does not end, and
then neither does the solve. -/

namespace PointsTo

structure Analysis (F : Type) where
  initial : F
  join : List F → F
  transfer : Block → F → Option F

inductive SolveStatus where
  | converged
  | unconverged
  | timeout
deriving DecidableEq, Inhabited, Repr

def SolveStatus.word : SolveStatus → String
  | .converged => "converged"
  | .unconverged => "unconverged"
  | .timeout => "timeout"

structure Solution (F : Type) where
  inFacts : Std.ExtTreeMap BlockId F
  outFacts : Std.ExtTreeMap BlockId F
  visits : Nat
  status : SolveStatus

/-- Limits of a solve, and the order in which waiting blocks are visited. -/
structure Solver where
  order : WorklistOrder := .reversePostorder
  maxIterations : Nat := 10000
  maxDurationMs : Option Nat := none
  /-- The milliseconds that have passed before the next visit, by the visits so far. -/
  elapsedMs : Nat → Nat := fun _ => 0

namespace Solver

def ofSettings (s : Settings) (turn : Turn) (unit : UnitId) : Solver :=
  ⟨s.order, s.maxIterations, s.maxDurationMs, s.clock turn unit⟩

/-- Whether the time is spent after so many visits. -/
def timeUp (s : Solver) (visits : Nat) : Bool := s.maxDurationMs.any (· ≤ s.elapsedMs visits)

end Solver

/-- Blocks that wait for a visit, the next one first and none twice. -/
structure Worklist where
  order : WorklistOrder
  rank : Array Nat
  waiting : List BlockId

namespace Worklist

/-- Positions in reverse postorder; blocks out of reach come last. -/
def ranks (g : FlowGraph) : Array Nat :=
  let rpo := g.reversePostorder
  g.blocks.map fun b => rpo.idxOf b.id

def empty (order : WorklistOrder) (g : FlowGraph) : Worklist := ⟨order, ranks g, []⟩

def precedes (w : Worklist) (a b : BlockId) : Bool :=
  let ra := w.rank[a]?.getD w.rank.size
  let rb := w.rank[b]?.getD w.rank.size
  ra < rb || (ra == rb && a < b)

def insertRanked (w : Worklist) (b : BlockId) : List BlockId → List BlockId
  | [] => [b]
  | c :: rest => if w.precedes b c then b :: c :: rest else c :: w.insertRanked b rest

/-- Lets a block wait, unless it waits already. -/
def push (w : Worklist) (b : BlockId) : Worklist :=
  if w.waiting.contains b then w
  else { w with waiting := match w.order with
    | .fifo => w.waiting ++ [b]
    | .lifo => b :: w.waiting
    | .reversePostorder => w.insertRanked b w.waiting }

def pushAll (w : Worklist) (bs : List BlockId) : Worklist := bs.foldl push w

end Worklist

structure Progress (F : Type) where
  inFacts : Std.ExtTreeMap BlockId F
  outFacts : Std.ExtTreeMap BlockId F
  visits : Nat
  worklist : Worklist

def Progress.finish {F : Type} (p : Progress F) (status : SolveStatus) : Solution F :=
  ⟨p.inFacts, p.outFacts, p.visits, status⟩

namespace Solver

variable {F : Type} (s : Solver) (a : Analysis F) (g : FlowGraph)

def edgeFacts (inFacts outFacts : Std.ExtTreeMap BlockId F) (e : Edge) : List F :=
  outFacts[e.source]?.toList ++ (if e.kind = .exception then inFacts[e.source]?.toList else [])

def inputs (inFacts outFacts : Std.ExtTreeMap BlockId F) (b : BlockId) : List F :=
  (if b = g.entry then [a.initial] else [])
    ++ (g.block b).predecessors.flatMap (edgeFacts inFacts outFacts)

variable [DecidableEq F]

/-- Visits a block: its facts are computed anew, and a changed output lets the successors wait. -/
def visit (p : Progress F) (b : BlockId) (rest : List BlockId) : Option (Progress F) := do
  let input := a.join (inputs a g p.inFacts p.outFacts b)
  let output ← a.transfer (g.block b) input
  let worklist := { p.worklist with waiting := rest }
  let inFacts := p.inFacts.insert b input
  let visits := p.visits + 1
  if p.outFacts[b]? = some output then some { p with inFacts, visits, worklist }
  else some ⟨inFacts, p.outFacts.insert b output, visits, worklist.pushAll (g.successors b)⟩

def run : Nat → Progress F → Option (Solution F)
  | budget, p =>
    match p.worklist.waiting with
    | [] => some (p.finish .converged)
    | b :: rest =>
      match budget with
      | 0 => some (p.finish .unconverged)
      | budget + 1 =>
        if s.timeUp p.visits then some (p.finish .timeout)
        else (visit a g p b rest).bind (run budget)

def runFrom (inFacts outFacts : Std.ExtTreeMap BlockId F) (pending : List BlockId) : Option (Solution F) :=
  run s a g s.maxIterations ⟨inFacts, outFacts, 0, (Worklist.empty s.order g).pushAll pending⟩

def solve : Option (Solution F) := runFrom s a g ∅ ∅ [g.entry]

/-- The entry, the blocks that have facts, and their successors, in ascending order. -/
def seeds (outFacts : Std.ExtTreeMap BlockId F) : List BlockId :=
  (g.entry :: outFacts.keys.flatMap fun b => b :: g.successors b).mergeSort.eraseDups

/-- Goes on from the facts of an earlier solve, each block with facts and each successor of one being
visited again. -/
def resume (seed : Solution F) : Option (Solution F) :=
  runFrom s a g seed.inFacts seed.outFacts (seeds g seed.outFacts)

end Solver

namespace Analysis

/-- The blocks that may have run before a point. -/
def visited : Analysis (Std.ExtTreeSet BlockId) where
  initial := ∅
  join facts := facts.foldl (· ∪ ·) ∅
  transfer b fact := some (fact.insert b.id)

/-- The most blocks run on any path, up to a cap. -/
def counter (cap : Nat) : Analysis Nat where
  initial := 0
  join facts := facts.foldl max 0
  transfer _ fact := some (min (fact + 1) cap)

end Analysis
end PointsTo

import PointsTo.Evaluation.Step
import PointsTo.Preparation
import PointsTo.Solver

/-! # Inference for one unit

The states of a unit are solved over its flow graph against what all units have published. Afterwards
every reached block runs once more on its final input, and what it does then is recorded: the values of
expressions, why some of them may be anything, and the writes that other units can see. -/

namespace PointsTo

structure InferredTypes where
  unit : UnitId
  entryStates : Std.ExtTreeMap BlockId AbstractState
  exitStates : Std.ExtTreeMap BlockId AbstractState
  exprTypes : Std.ExtTreeMap NodeId TypeSet
  flags : Std.ExtTreeSet Flag
  effects : AbstractState
  status : SolveStatus
  visits : Nat

namespace InferredTypes

variable (t : InferredTypes)

/-- The state that reaches the normal exit, if any path leads there. -/
def exitState? (g : FlowGraph) : Option AbstractState := t.entryStates[g.exit]?

def valueAtExit (g : FlowGraph) (l : Location) : TypeSet :=
  ((t.exitState? g).map fun s => s.read l).getD .bottom

def isComplete : Bool := t.status == .converged

/-- The block states as a solution to go on from. -/
def solution : Solution AbstractState := ⟨t.entryStates, t.exitStates, t.visits, t.status⟩

end InferredTypes

namespace Frame

variable (f : Frame)

def joinStates : List AbstractState → AbstractState
  | [] => .empty
  | first :: rest => rest.foldl AbstractState.join first

/-- The propagation of states through the blocks of a unit. -/
def propagation : Analysis AbstractState := ⟨.empty, joinStates, f.transfer⟩

def replayBlock (inputs : Std.ExtTreeMap BlockId AbstractState) (r : Recorder) (b : BlockId) : Option Recorder :=
  match inputs[b]? with
  | some s => (f.apply (f.graph.block b) ⟨s, some r⟩).bind (·.recorder)
  | none => some r

def replay (inputs : Std.ExtTreeMap BlockId AbstractState) : Option Recorder :=
  f.graph.reversePostorder.foldlM (f.replayBlock inputs) {}

def conclude (s : Solution AbstractState) : Option InferredTypes := do
  let r ← f.replay s.inFacts
  return ⟨f.unit.id, s.inFacts, s.outFacts, r.exprTypes, r.flags, r.effects, s.status, s.visits⟩

end Frame

namespace PreparedUnit

variable (p : Program) (facts : ProgramFacts) (solver : Solver) (u : PreparedUnit) (env : AbstractState)

def frame : Frame := ⟨p, facts, p.settings.granularity, u.graph, u.info, env, default⟩

/-- Infers the types of a unit against what the units have published so far. -/
def infer : Option InferredTypes := do
  let f := u.frame p facts env
  f.conclude (← solver.solve f.propagation u.graph)

/-- Infers again, from the block states of an earlier result. -/
def resume (previous : InferredTypes) : Option InferredTypes := do
  let f := u.frame p facts env
  f.conclude (← solver.resume f.propagation u.graph previous.solution)

end PreparedUnit
end PointsTo

import PointsTo.Inference

/-! # Analysis of a whole program

Units exchange what they know through an environment: results, arguments, slots of objects and shared
variables. Waves are solved in turn, the components of a wave each against the same environment, and a
component that depends on itself until its own effects stop growing. Rounds over all waves repeat until
the environment no longer changes. -/

namespace PointsTo

structure Pass where
  turn : Turn
  /-- The environment together with the effects of the component. -/
  env : AbstractState
  effects : AbstractState
  changed : Bool := false
  types : List InferredTypes := []

def Pass.next (a : Pass) : Pass :=
  { a with turn := ⟨a.turn.round, a.turn.pass + 1⟩, changed := false, types := [] }

structure ComponentResult where
  types : List InferredTypes
  effects : AbstractState
  stable : Bool

structure Round where
  number : Nat
  env : AbstractState
  results : Std.ExtTreeMap UnitId InferredTypes
  changed : Bool := false
  unstable : List (List UnitId) := []

structure Outcomes where
  env : AbstractState
  results : Std.ExtTreeMap UnitId InferredTypes
  /-- The components that did not stabilize in the last round. -/
  unstable : List (List UnitId)
  rounds : Nat
  converged : Bool

def Outcomes.next (o : Outcomes) : Round := { number := o.rounds, env := o.env, results := o.results }

namespace Preparation

variable (t : Preparation)

def passUnit (a : Pass) (u : PreparedUnit) : Option Pass := do
  let types ← u.infer t.program t.facts (.ofSettings t.program.settings a.turn u.info.id) a.env
  return {
    turn := a.turn
    env := a.env.accumulate types.effects
    effects := a.effects.accumulate types.effects
    changed := a.changed || a.env.accumulateGrows types.effects
    types := a.types ++ [types] }

/-- Whether the units of a component depend on themselves. -/
def isRecursive (component : List UnitId) : Bool :=
  component.length > 1 || component.any fun u => (t.dependencies.dependencies u).contains u

/-- Passes over a component until its effects stop growing, at most so many times. -/
def passes (recursive : Bool) (units : List PreparedUnit) : Nat → Pass → Option ComponentResult
  | 0, a => some ⟨a.types, a.effects, !recursive⟩
  | n + 1, a => do
    let a ← units.foldlM t.passUnit a.next
    if recursive && !a.changed then return ⟨a.types, a.effects, true⟩
    else passes recursive units n a

def solveComponent (r : Round) (component : List UnitId) : Option ComponentResult :=
  let recursive := t.isRecursive component
  t.passes recursive (component.filterMap t.unit?)
    (if recursive then max 1 t.program.settings.maxRounds else 1)
    { turn := ⟨r.number, 0⟩, env := r.env, effects := .empty }

def merge (r : Round) (component : List UnitId × ComponentResult) : Round :=
  let result := component.2
  { number := r.number
    env := r.env.accumulate result.effects
    changed := r.changed || r.env.accumulateGrows result.effects
    unstable := if result.stable then r.unstable else r.unstable ++ [component.1]
    results := result.types.foldl (fun m types => m.insert types.unit types) r.results }

/-- Solves the components of a wave against the same environment and takes up their results. -/
def runWave (r : Round) (wave : List (List UnitId)) : Option Round := do
  let solved ← wave.mapM (t.solveComponent r)
  return (wave.zip solved).foldl merge r

def runRound (schedule : List (List (List UnitId))) (o : Outcomes) : Option Round :=
  schedule.foldlM t.runWave o.next

/-- Rounds until nothing changes, at most so many. -/
def runRounds (schedule : List (List (List UnitId))) : Nat → Outcomes → Option Outcomes
  | 0, o => some o
  | n + 1, o => do
    let r ← t.runRound schedule o
    let next : Outcomes := ⟨r.env, r.results, r.unstable, o.rounds + 1, !r.changed⟩
    if r.changed then runRounds schedule n next else return next

end Preparation

structure ProgramAnalysis where
  preparation : Preparation
  env : AbstractState
  results : Std.ExtTreeMap UnitId InferredTypes
  diagnostics : List Diagnostic
  rounds : Nat
  converged : Bool

namespace ProgramAnalysis

section Reports

variable (p : Program)

def unstableReport (component : List UnitId) : Diagnostic :=
  .ofTopic .unconverged none ("recursive group " ++
    ", ".intercalate (component.map fun u => (p.unit u).name) ++
    " did not stabilize within " ++ toString p.settings.maxRounds ++ " rounds")

def statusFault? (name : String) (t : InferredTypes) : Option Fault :=
  match t.status with
  | .converged => none
  | .unconverged => some (.unconverged name t.visits)
  | .timeout => some (.timeout name t.visits)

/-- The unsupported construct that a flag stands for. -/
def flagFault? (flag : Flag) : Option Fault :=
  match flag.reason with
  | .unsupported kind => some (.unsupported kind (p.tree.span flag.node))
  | _ => none

def unitReport (t : InferredTypes) : List Diagnostic :=
  let name := (p.unit t.unit).name
  ((statusFault? name t).toList ++ t.flags.toList.filterMap (flagFault? p)).map fun fault =>
    (Diagnostic.ofFault fault).inUnit name

def outcomeReport (o : Outcomes) : List Diagnostic :=
  (if o.converged then [] else [.ofFault (.unconverged "<program>" o.rounds)]) ++
    (o.unstable.mergeSort fun a b => a.headD 0 ≤ b.headD 0).map (unstableReport p) ++
    o.results.toList.flatMap fun (_, t) => unitReport p t

end Reports

/-- Analyses a program; nothing if the evaluation of some handler does not end. -/
def ofProgram (p : Program) : Option ProgramAnalysis := do
  let t := Preparation.ofProgram p
  let o ← t.runRounds t.dependencies.schedule p.settings.maxRounds ⟨.empty, ∅, [], 0, false⟩
  return ⟨t, o.env, o.results, t.diagnostics ++ outcomeReport p o, o.rounds, o.converged⟩

variable (a : ProgramAnalysis)

def program : Program := a.preparation.program

def types? (u : UnitId) : Option InferredTypes := a.results[u]?

end ProgramAnalysis
end PointsTo

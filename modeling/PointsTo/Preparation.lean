import PointsTo.Dependency
import PointsTo.Flow.Builder
import PointsTo.Flow.Render

/-! # Preparation

Everything that is worked out once, before any value is followed: the flow graph and flow facts of
every unit, the facts of the whole program, and the dependencies between units. A unit without a flow
graph is set aside and the others do not notice. -/

namespace PointsTo

structure PreparedUnit where
  info : UnitInfo
  graph : FlowGraph
  flow : UnitFlow

namespace PreparedUnit

def ofUnit (p : Program) (u : UnitInfo) : Except Fault PreparedUnit := do
  let graph ← FlowGraph.ofUnit p.settings.unsupported u
  return ⟨u, graph, UnitFlow.ofUnit p graph u⟩

def unreachable (u : PreparedUnit) : List Diagnostic :=
  u.graph.unreachableStatements.map fun node =>
    Diagnostic.ofTopic .unreachable (some node.span) "unreachable code"

def irreducible (u : PreparedUnit) : List Diagnostic :=
  u.graph.irreducible.map fun (source, target) =>
    Diagnostic.ofTopic .irreducible none ("edge " ++ FlowGraph.blockName source ++ " -> " ++
      FlowGraph.blockName target ++ " enters a loop other than through its header")

def unresolved (p : Program) (u : PreparedUnit) : List Diagnostic :=
  u.flow.unresolved.map fun (node, name) =>
    Diagnostic.ofFault (.unresolved name (p.tree.span node))

end PreparedUnit

structure Preparation where
  program : Program
  /-- Every unit, or why it cannot be analysed. -/
  units : List (UnitInfo × Except Fault PreparedUnit)
  facts : ProgramFacts
  dependencies : DependencyGraph

namespace Preparation

def prepared? : UnitInfo × Except Fault PreparedUnit → Option PreparedUnit
  | (_, .ok u) => some u
  | (_, .error _) => none

def ofProgram (p : Program) : Preparation :=
  let units := p.units.toList.map fun u => (u, PreparedUnit.ofUnit p u)
  let flows := (units.filterMap prepared?).map (·.flow)
  let failed := (units.filter fun u => (prepared? u).isNone).map (·.1.id)
  { program := p
    units
    facts := .ofFlows p flows failed
    dependencies := .ofFlows p flows }

/-- What preparing a unit has to report: why it failed, or its dead code and its loose names. -/
def diagnosticsOf (p : Program) : UnitInfo × Except Fault PreparedUnit → List Diagnostic
  | (info, .error f) => [(Diagnostic.ofFault f).inUnit info.name]
  | (info, .ok u) => (u.unreachable ++ u.irreducible ++ u.unresolved p).map (·.inUnit info.name)

def diagnostics (t : Preparation) : List Diagnostic :=
  t.program.diagnostics ++ t.units.flatMap (diagnosticsOf t.program)

def unit? (t : Preparation) (id : UnitId) : Option PreparedUnit := t.units[id]?.bind prepared?

end Preparation
end PointsTo

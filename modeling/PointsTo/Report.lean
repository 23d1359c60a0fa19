import PointsTo.ProgramAnalysis
import PointsTo.Rendering

/-! # Reports

The answer of an analysis: what can be asked of it by name or by place, and a summary of all units with
every type written out. -/

namespace PointsTo
namespace ProgramAnalysis

/-- Checks the settings and analyses a tree. Nothing comes back if the analysis does not end. -/
def run (tree : SyntaxTree) (settings : Settings) : Except Fault (Option ProgramAnalysis) := do
  settings.check
  return ofProgram (Program.ofTree tree settings)

variable (a : ProgramAnalysis)

def hasErrors : Bool := a.diagnostics.any (·.severity == .error)

def solved? (name : String) : Option (InferredTypes × FlowGraph) := do
  let u ← a.program.unitNamed? name
  return (← a.types? u.id, (← a.preparation.unit? u.id).graph)

def failed? (name : String) : Option Bool :=
  (a.program.unitNamed? name).map fun u => (a.preparation.unit? u.id).isNone

def typeOfNode? (node : NodeId) : Option TypeSet :=
  match a.results.toList.filterMap fun (_, t) => t.exprTypes[node]? with
  | [] => none
  | vs => some (TypeSet.joinAll vs)

/-- The value of the outermost node with a span. -/
def typeAt? (span : Span) : Option TypeSet := (a.program.tree.nodeAt? span).bind a.typeOfNode?

/-- Everything that a variable of a unit may hold over a whole run. -/
def variableType? (unit name : String) : Option TypeSet := do
  a.env.get? (.var (← a.program.unitNamed? unit).scope name)

def exitState? (unit : String) : Option AbstractState := do
  let (t, g) ← a.solved? unit
  t.exitState? g

/-- What a variable of a unit holds where the unit ends. -/
def valueAtExit? (unit name : String) : Option TypeSet := do
  let u ← a.program.unitNamed? unit
  return (← a.exitState? unit).read (.var u.scope name)

def blockStates? (unit : String) (block : BlockId) : Option (AbstractState × AbstractState) := do
  let (t, _) ← a.solved? unit
  return (← t.entryStates[block]?, ← t.exitStates[block]?)

def renderer : Renderer := { program := a.program, env := a.env }

def render (v : TypeSet) : String := a.renderer.render v

/-- Every name bound in a unit with what it holds where the unit ends, if it can end. -/
def exitTypes? (u : UnitInfo) : Option (List (String × String)) := do
  let t ← a.types? u.id
  let s ← t.exitState? (← a.preparation.unit? u.id).graph
  let r : Renderer := { a.renderer with state := s }
  return (a.program.scopes.scope u.scope).bindings.map fun name => (name, r.render (s.read (.var u.scope name)))

end ProgramAnalysis

structure ExpressionReport where
  span : Span
  kind : String
  type : String
deriving DecidableEq, Inhabited

structure UnitReport where
  name : String
  kind : UnitKind
  failed : Bool
  status : Option SolveStatus
  visits : Nat
  bindings : List (String × String)
  returns : Option String
  expressions : List ExpressionReport
deriving Inhabited

structure Report where
  converged : Bool
  rounds : Nat
  units : List UnitReport
  diagnostics : List Diagnostic
deriving Inhabited

namespace ExpressionReport

def le (a b : ExpressionReport) : Bool :=
  ((compare a.span b.span).then <| (compare a.kind b.kind).then (compare a.type b.type)).isLE

def toJson (e : ExpressionReport) : Json :=
  .obj [("span", e.span.toJson), ("kind", .str e.kind), ("type", .str e.type)]

end ExpressionReport

namespace UnitReport

variable (a : ProgramAnalysis) (u : UnitInfo)

/-- The variables that have ever held anything, in the order of their names. -/
def variablesOf : List (String × String) :=
  let bound := (a.program.scopes.scope u.scope).bindings.filterMap fun name =>
    (a.env.get? (.var u.scope name)).map fun v => (name, a.render v)
  (Std.ExtTreeMap.ofList bound).toList

def expressionsOf (t : InferredTypes) : List ExpressionReport :=
  (t.exprTypes.toList.map fun (node, v) =>
    (⟨a.program.tree.span node, (a.program.tree.kind node).word, a.render v⟩ : ExpressionReport)).mergeSort
    ExpressionReport.le

def ofUnit : UnitReport :=
  let types := a.types? u.id
  { name := u.name
    kind := u.kind
    failed := (a.preparation.unit? u.id).isNone
    status := types.map (·.status)
    visits := (types.map (·.visits)).getD 0
    bindings := variablesOf a u
    returns := if u.kind == .function then some (a.render (a.env.read (.ret u.node.id))) else none
    expressions := (types.map (expressionsOf a)).getD [] }

def toJson (r : UnitReport) : Json :=
  .obj ([("name", .str r.name), ("kind", .str r.kind.word), ("failed", .bool r.failed)]
    ++ (r.status.map fun s => ("status", Json.str s.word)).toList
    ++ [("iterations", .ofNat r.visits), ("variables", .obj (r.bindings.map fun (x, t) => (x, Json.str t)))]
    ++ (r.returns.map fun t => ("returns", Json.str t)).toList
    ++ [("expressions", .ofList ExpressionReport.toJson r.expressions)])

end UnitReport

namespace Report

def ofAnalysis (a : ProgramAnalysis) : Report :=
  { converged := a.converged
    rounds := a.rounds
    units := a.program.units.toList.map (UnitReport.ofUnit a)
    diagnostics := a.diagnostics }

def toJson (r : Report) : Json :=
  .obj [("converged", .bool r.converged), ("rounds", .ofNat r.rounds),
    ("units", .ofList UnitReport.toJson r.units), ("diagnostics", .ofList Diagnostic.toJson r.diagnostics)]

end Report
end PointsTo

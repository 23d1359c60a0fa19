import PointsTo.Flow.Event

/-! # Flow facts

The definitions and uses of a unit, block by block, and what the rest of the program learns from
them: which units it calls, which it lets escape, and which variables it shares with other units. -/

namespace PointsTo

/-- One evaluation: a location is assigned from the uses, or the value is dropped. -/
structure FlowFact where
  target : Option Location
  uses : List Location
  node : NodeId
deriving DecidableEq, Inhabited, Repr

structure NestedFlow where
  node : NodeId
  scope : ScopeId
  facts : List FlowFact
  /-- Variables of enclosing scopes that the body reads, each once. -/
  captured : List Location
deriving DecidableEq, Inhabited, Repr

/-- Facts found so far, with the uses since the last of them. -/
structure Gathered where
  facts : List FlowFact := []
  uses : List Location := []
  nested : List NestedFlow := []
deriving DecidableEq, Inhabited, Repr

namespace Gathered

def define (a : Gathered) (l : Location) (node : NodeId) : Gathered :=
  { a with facts := a.facts ++ [⟨some l, a.uses, node⟩], uses := [] }

def settle (a : Gathered) (node : NodeId) : Gathered :=
  if a.uses.isEmpty then a else { a with facts := a.facts ++ [⟨none, a.uses, node⟩], uses := [] }

variable (scopes : ScopeTree) (home : ScopeId)

/-- The variables used by facts that live outside a scope, each once and in order. -/
def capturedBy (scope : ScopeId) (facts : List FlowFact) : List Location :=
  ((facts.flatMap (·.uses)).filter fun
    | .var owner _ => !scopes.isWithin owner scope
    | _ => false).foldl addNew []

/-- Takes up the facts of a body: they stand on their own, and the enclosing code uses what they
capture. -/
def enclose (a : Gathered) (node : NodeId) (inner : Gathered) : Gathered :=
  let scope := (scopes.scopeOf? node).getD home
  let facts := (inner.settle node).facts
  let captured := capturedBy scopes scope facts
  { a with
    uses := a.uses ++ captured
    nested := a.nested ++ inner.nested ++ [⟨node, scope, facts, captured⟩] }

mutual

def add (a : Gathered) : FlowEvent → Gathered
  | .use l => { a with uses := a.uses ++ [l] }
  | .define l node => a.define l node
  | .settle node => a.settle node
  | .body node events => a.enclose scopes home node (addAll {} events)
  | .call _ | .escape _ | .unresolved _ _ => a

def addAll (a : Gathered) : List FlowEvent → Gathered
  | [] => a
  | e :: rest => addAll (add a e) rest

end

/-- The facts of a block; its nested flows are kept apart. -/
def addBlock (acc : List (List FlowFact) × List NestedFlow) (events : List FlowEvent) :
    List (List FlowFact) × List NestedFlow :=
  let a := addAll scopes home {} events
  (acc.1 ++ [a.facts], acc.2 ++ a.nested)

end Gathered

structure UnitFlow where
  unit : UnitId
  scope : ScopeId
  blocks : List (List FlowFact)
  nested : List NestedFlow
  callees : Std.ExtTreeSet UnitId
  escaping : Std.ExtTreeSet UnitId
  freeReads : Std.ExtTreeSet Location
  writes : Std.ExtTreeSet Location
  unresolved : List (NodeId × String)

namespace UnitFlow

def isVariable : Location → Bool
  | .var _ _ => true
  | _ => false

/-- Whether a location is a variable of another unit than the one with the given scope. -/
def isForeign (scopes : ScopeTree) (home : ScopeId) : Location → Bool
  | .var scope _ => scopes.unitScope scope != home
  | _ => false

def ofUnit (p : Declarations) (g : FlowGraph) (u : UnitInfo) : UnitFlow :=
  let events := g.blocks.toList.map (FlowEvent.ofBlock p g u)
  let (blocks, nested) := events.foldl (Gathered.addBlock p.scopes u.scope) ([], [])
  let all := FlowEvent.flattenAll events.flatten
  { unit := u.id
    scope := u.scope
    blocks
    nested
    callees := .ofList (all.filterMap FlowEvent.call?)
    escaping := .ofList (all.filterMap FlowEvent.escape?)
    freeReads := .ofList ((all.filterMap FlowEvent.use?).filter (isForeign p.scopes u.scope))
    writes := .ofList ((all.filterMap FlowEvent.define?).filter isVariable)
    unresolved := all.filterMap FlowEvent.unresolved? }

def facts (f : UnitFlow) : List FlowFact := f.blocks.flatten ++ f.nested.flatMap (·.facts)

end UnitFlow

/-- What the analysis of one unit needs to know of all the others. -/
structure ProgramFacts where
  /-- Variables assigned by another unit than the one they belong to. -/
  foreignWrites : Std.ExtTreeSet Location
  /-- Functions that may be called from places that cannot be seen. -/
  openUnits : Std.ExtTreeSet UnitId
  failed : Std.ExtTreeSet UnitId

namespace ProgramFacts

instance : Inhabited ProgramFacts := ⟨⟨∅, ∅, ∅⟩⟩

/-- The facts of a program, from the flows of its units and the units that have none. -/
def ofFlows (p : Declarations) (flows : List UnitFlow) (failed : List UnitId) : ProgramFacts :=
  let called : Std.ExtTreeSet UnitId := .ofList (flows.flatMap (·.callees.toList))
  let escaping : Std.ExtTreeSet UnitId := .ofList (flows.flatMap (·.escaping.toList))
  { foreignWrites := .ofList (flows.flatMap fun f =>
      f.writes.toList.filter (UnitFlow.isForeign p.scopes f.scope))
    openUnits := .ofList ((p.units.toList.filter fun u =>
      u.kind == .function && (!called.contains u.id || escaping.contains u.id)).map (·.id))
    failed := .ofList failed }

end ProgramFacts
end PointsTo

import PointsTo.Flow.Facts

/-! # Dependencies between units

A unit depends on the units it may call and on the owners of the variables it reads. Units that depend
on each other form a component and are solved together. Components are scheduled in waves. They are
taken in an order in which each comes after those it depends on, so that one pass over them finds the
wave of each. Of several such orders any will do. -/

namespace PointsTo

/-- The units that have a flow, in order, with the units each depends on. -/
structure DependencyGraph where
  units : List UnitId
  edges : Std.ExtTreeMap UnitId (List UnitId)

namespace DependencyGraph

def owners (p : Declarations) (f : UnitFlow) : List UnitId :=
  f.freeReads.toList.filterMap fun
    | .var scope _ => p.unitForScope? scope
    | _ => none

/-- The units a flow depends on, among those given and each once. -/
def dependenciesOf (p : Declarations) (units : List UnitId) (f : UnitFlow) : List UnitId :=
  ((f.callees.toList ++ owners p f).filter units.contains).foldl addNew []

def ofFlows (p : Declarations) (flows : List UnitFlow) : DependencyGraph :=
  let units := flows.map (·.unit)
  { units
    edges := flows.foldl (fun m f => m.insert f.unit (dependenciesOf p units f)) ∅ }

variable (g : DependencyGraph)

def dependencies (u : UnitId) : List UnitId := g.edges[u]?.getD []

def edgeCount : Nat := (g.units.flatMap g.dependencies).length

/-- Collects what can be reached from the units on a stack. -/
def collect : Nat → List UnitId → List UnitId → List UnitId
  | 0, _, met => met
  | _, [], met => met
  | fuel + 1, u :: stack, met =>
    if met.contains u then collect fuel stack met
    else collect fuel (g.dependencies u ++ stack) (met ++ [u])

def reachable (u : UnitId) : List UnitId := collect g (1 + g.edgeCount) [u] []

section Components

variable (reaches : UnitId → UnitId → Bool)

/-- The units that reach the given one and that it reaches, in order. -/
def members (u : UnitId) : List UnitId := g.units.filter fun v => reaches u v && reaches v u

def reach (u : UnitId) : Nat := (g.units.filter (reaches u)).length

/-- The first unit of each component. Those that reach fewer units come first, and so everything that
a component depends on comes before it. -/
def heads : List UnitId :=
  (List.range (g.units.length + 1)).flatMap fun n => g.units.filter fun u =>
    g.reach reaches u == n && (g.members reaches u).head? == some u

end Components

/-- The components, each after those it depends on. -/
def components : List (List UnitId) :=
  let reached : Std.ExtTreeMap UnitId (List UnitId) :=
    g.units.foldl (fun m u => m.insert u (g.reachable u)) ∅
  let reaches (u v : UnitId) : Bool := (reached[u]?.getD []).contains v
  (g.heads reaches).map (g.members reaches)

section Waves

/-- The items of a list in ascending order. -/
def ascending {α : Type} [Ord α] [Std.TransOrd α] (items : List α) : List α :=
  (Std.ExtTreeSet.ofList items).toList

variable (components : List (List UnitId))

def places : Std.ExtTreeMap UnitId Nat :=
  .ofList (components.zipIdx.flatMap fun (c, i) => c.map fun u => (u, i))

/-- The level of the component that comes after some others, given the levels of these: it lies above
all that the component depends on. -/
def levelAfter (levels : List Nat) (component : List UnitId) : Nat :=
  let needed := (component.flatMap g.dependencies).filterMap ((places components)[·]?)
  (needed.filter (· ≠ levels.length)).foldl (fun level place => max level (levels[place]?.getD 0 + 1)) 0

/-- The levels of the components, in one pass over them. -/
def levels : List Nat :=
  components.foldl (fun levels c => levels ++ [g.levelAfter components levels c]) []

/-- The schedule of components that come in some order: a wave for each level. -/
def scheduleOf : List (List (List UnitId)) :=
  let levels := g.levels components
  let waves := (components.zip levels).foldl
    (fun waves (c, level) => waves.modify level (· ++ [ascending c]))
    (List.replicate ((levels.max?.map (· + 1)).getD 0) [])
  waves.map ascending

end Waves

def schedule : List (List (List UnitId)) := g.scheduleOf g.components

end DependencyGraph
end PointsTo

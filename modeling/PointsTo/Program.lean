import PointsTo.Hierarchy
import PointsTo.Scope.Import
import PointsTo.Settings

/-! # Programs

A tree with everything that is known of it before any flow is followed: its scopes and names, the
units that are analysed one by one, and its classes with their lookup order. -/

namespace PointsTo

inductive UnitKind where
  | module | function | cls
deriving DecidableEq, Inhabited, Repr

namespace UnitKind

def name : UnitKind → String
  | .module => "Module"
  | .function => "Function"
  | .cls => "Class"

def word : UnitKind → String
  | .module => "module"
  | .function => "function"
  | .cls => "class"

def ofScope? : ScopeKind → Option UnitKind
  | .module => some .module
  | .function => some .function
  | .cls => some .cls
  | .lambda | .comprehension => none

end UnitKind

structure UnitInfo where
  id : UnitId
  kind : UnitKind
  node : Node
  scope : ScopeId
  /-- Dotted name, without the name of a single module. -/
  name : String
  /-- The statements; a definition without a block has none. -/
  body : Option (List Node)
  parent : Option UnitId
  methodOf : Option ClassId := none
  isGenerator : Bool
deriving Inhabited

structure ClassInfo where
  id : ClassId
  name : String
  node : Node
  scope : ScopeId
  unit : UnitId
  bases : List ClassId := []
  /-- The class and everything it inherits from, in lookup order. -/
  mro : List ClassId
  /-- The object that stands for every instance. -/
  instanceSite : AllocSite
deriving Inhabited

/-- What a tree declares, whatever the settings are. -/
structure Declarations extends Names where
  units : Array UnitInfo
  classes : Array ClassInfo
  unitByScope : Std.ExtTreeMap ScopeId UnitId
  classByNode : Std.ExtTreeMap NodeId ClassId

structure Program extends Declarations where
  settings : Settings
  diagnostics : List Diagnostic

instance : Coe Program Declarations := ⟨Program.toDeclarations⟩

namespace Program

section Units

variable (scopes : ScopeTree)

def unitName (parent : Option UnitInfo) (name : String) : String :=
  match parent with
  | none => name
  | some p => if p.kind == .module && p.name == SyntaxTree.mainModule then name else p.name ++ "." ++ name

def unitBody (kind : UnitKind) (node : Node) : Option (List Node) :=
  match kind with
  | .module => some node.children
  | _ => (node.childOfKind? "Block").map (·.children)

def addUnit (acc : Array UnitInfo × Std.ExtTreeMap ScopeId UnitId) (s : Scope) :
    Array UnitInfo × Std.ExtTreeMap ScopeId UnitId :=
  match UnitKind.ofScope? s.kind with
  | none => acc
  | some kind =>
    let (units, byScope) := acc
    let parent := s.parent.bind fun p => byScope[scopes.unitScope p]?
    (units.push {
      id := units.size
      kind
      node := s.node
      scope := s.id
      name := unitName (parent.bind fun (p : UnitId) => units[p]?) s.name
      body := unitBody kind s.node
      parent
      isGenerator := s.hasYield && kind == .function }, byScope.insert s.id units.size)

def findUnits : Array UnitInfo × Std.ExtTreeMap ScopeId UnitId :=
  scopes.scopes.foldl (addUnit scopes) (#[], ∅)

end Units

section Classes

variable (n : Names)

def addClass (acc : Array ClassInfo × Std.ExtTreeMap NodeId ClassId) (u : UnitInfo) :
    Array ClassInfo × Std.ExtTreeMap NodeId ClassId :=
  if u.kind != .cls then acc
  else
    let (classes, byNode) := acc
    (classes.push {
      id := classes.size
      name := (n.scopes.scope u.scope).name
      node := u.node
      scope := u.scope
      unit := u.id
      mro := [classes.size]
      instanceSite := { span := u.node.span, scope := u.scope } }, byNode.insert u.node.id classes.size)

/-- The class a base expression names: a name that stands for exactly one definition, of a class. -/
def baseClass? (byNode : Std.ExtTreeMap NodeId ClassId) (scope : ScopeId) (base : Node) : Option ClassId := do
  let .name name := base.kind | none
  let owner ← (n.scopes.resolve scope name).scope?
  match n.definitionsThroughImports owner name with
  | [definition] => byNode[definition]?
  | _ => none

def basesOf (byNode : Std.ExtTreeMap NodeId ClassId) (c : ClassInfo) : List ClassId :=
  (c.node.children.drop 1).filterMap (baseClass? n byNode ((n.scopes.scope c.scope).parent.getD 0))

def conflict (c : ClassInfo) : Diagnostic :=
  (Diagnostic.ofTopic .mroConflict (some c.node.span)
    ("cannot linearize bases of `" ++ c.name ++ "`; falling back to depth-first order")).inUnit c.name

/-- The class whose body defines a function directly. -/
def definingClass? (byNode : Std.ExtTreeMap NodeId ClassId) (u : UnitInfo) : Option ClassId := do
  if u.kind != .function then none
  else
    let parent := n.scopes.scope (← (n.scopes.scope u.scope).parent)
    if parent.kind == .cls then byNode[parent.node.id]? else none

end Classes

def ofTree (tree : SyntaxTree) (settings : Settings) : Program :=
  let n := Names.ofTree tree
  let (units, unitByScope) := findUnits n.scopes
  let (classes, classByNode) := units.foldl (addClass n) (#[], ∅)
  let classes := classes.map fun c => { c with bases := basesOf n classByNode c }
  let hierarchy : Hierarchy := classes.map (·.bases)
  { n with
    settings
    units := units.map fun u => { u with methodOf := definingClass? n classByNode u }
    classes := classes.map fun c => { c with mro := hierarchy.resolutionOrder c.id }
    unitByScope
    classByNode
    diagnostics := (classes.toList.filter fun c => (hierarchy.linearize? c.id).isNone).map conflict }

end Program

namespace Declarations

variable (p : Declarations)

def unit (id : UnitId) : UnitInfo := p.units[id]?.getD default

/-- The class of that number. There is none beyond the table: to look one up there is a mistake that ends a run, and
here an empty class stands in for it. -/
def cls (id : ClassId) : ClassInfo := p.classes[id]?.getD default

def mro (id : ClassId) : List ClassId := (p.cls id).mro

def classOf? (node : NodeId) : Option ClassId := p.classByNode[node]?

def unitNamed? (name : String) : Option UnitInfo := p.units.toList.find? (·.name == name)

def moduleUnits : List UnitInfo := p.units.toList.filter (·.kind == .module)

/-- The unit whose body evaluates code of a scope. -/
def unitForScope? (scope : ScopeId) : Option UnitId := p.unitByScope[p.scopes.unitScope scope]?

def unitOf? (node : NodeId) : Option UnitId :=
  (p.scopes.scopeOf? node).bind fun (s : ScopeId) => p.unitByScope[s]?

def isGenerator (callee : NodeId) : Bool := ((p.unitOf? callee).map fun u => (p.unit u).isGenerator).getD false

def unitsRunBy (stmt : Node) : List UnitId :=
  (p.modulesRunBy stmt).filterMap fun (s : ScopeId) => p.unitByScope[s]?

/-- The units that a name bound in a scope may stand for. -/
def unitsBoundIn (owner : ScopeId) (name : String) : List UnitId :=
  (p.definitionsThroughImports owner name).filterMap p.unitOf?

/-- The units that a name seen from a scope may stand for. -/
def unitsBoundTo (scope : ScopeId) (name : String) : List UnitId :=
  match (p.scopes.resolve scope name).scope? with
  | some owner => p.unitsBoundIn owner name
  | none => []

end Declarations
end PointsTo

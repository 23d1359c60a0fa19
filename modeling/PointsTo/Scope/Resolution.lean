import PointsTo.Scope

/-! # Name resolution

Where a name leads, seen from a scope. -/

namespace PointsTo

inductive Resolution where
  | here (scope : ScopeId)
  | enclosing (scope : ScopeId)
  /-- Bound at the top of the given module. -/
  | global (scope : ScopeId)
  | builtin
  | unresolved
deriving DecidableEq, Inhabited, Repr

namespace Resolution

def scope? : Resolution → Option ScopeId
  | .here s | .enclosing s | .global s => some s
  | .builtin | .unresolved => none

end Resolution

namespace ScopeTree

def resolveGlobal (t : ScopeTree) (module : ScopeId) (name : String) : Resolution :=
  if (t.scope module).bindings.contains name then .global module
  else if Builtin.isBuiltin name then .builtin
  else .unresolved

/-- The proper ancestors in which a name may be found: those below the module, classes apart. -/
def functionAncestors (t : ScopeTree) (id : ScopeId) : List ScopeId :=
  (((t.ancestry id).drop 1).takeWhile fun s => (t.scope s).kind != .module).filter
    fun s => (t.scope s).kind != .cls

/-- A name declared nonlocal belongs to the nearest enclosing function that binds it. -/
def resolveNonlocal (t : ScopeTree) (id : ScopeId) (name : String) : Resolution :=
  match (t.functionAncestors id).find? fun s => (t.scope s).bindings.contains name with
  | some s => .enclosing s
  | none => .unresolved

/-- Walks outwards until a scope binds the name or declares where it belongs. -/
def resolveOuter (t : ScopeTree) (module : ScopeId) (name : String) : List ScopeId → Resolution
  | [] => t.resolveGlobal module name
  | s :: rest =>
    let outer := t.scope s
    if outer.globals.contains name then t.resolveGlobal module name
    else if outer.bindings.contains name then .enclosing s
    else if outer.nonlocals.contains name then t.resolveNonlocal s name
    else t.resolveOuter module name rest

def resolve (t : ScopeTree) (id : ScopeId) (name : String) : Resolution :=
  let here := t.scope id
  if here.globals.contains name then t.resolveGlobal here.module name
  else if here.nonlocals.contains name then t.resolveNonlocal id name
  else if here.bindings.contains name then
    if here.kind == .module then .global id else .here id
  else t.resolveOuter here.module name (t.functionAncestors id)

def location? (t : ScopeTree) (id : ScopeId) (name : String) : Option Location :=
  (t.resolve id name).scope?.map fun s => .var s name

end ScopeTree

inductive Referent where
  | location (location : Location)
  | builtin (name : String)
  | unresolved (name : String)
deriving DecidableEq, Inhabited, Repr

namespace Referent

/-- The location a read goes to; a name that leads nowhere may be anything, and a builtin has none. -/
def location? : Referent → Option Location
  | .location l => some l
  | .unresolved _ => some .universal
  | .builtin _ => none

end Referent

def ScopeTree.referent (t : ScopeTree) (id : ScopeId) (name : String) : Referent :=
  match t.resolve id name with
  | .here s | .enclosing s | .global s => .location (.var s name)
  | .builtin => .builtin name
  | .unresolved => .unresolved name

/-- The referent of every node that bears a name, and the scope in which each node is evaluated. -/
structure NameTable where
  referents : Std.ExtTreeMap NodeId Referent
  evaluatedIn : Std.ExtTreeMap NodeId ScopeId

namespace NameTable

def empty : NameTable := ⟨∅, ∅⟩

def get? (t : NameTable) (node : NodeId) : Option Referent := t.referents[node]?

def location? (t : NameTable) (node : NodeId) : Option Location := (t.get? node).bind Referent.location?

/-- The scope in which a node is evaluated; the first scope for a node that is not evaluated. -/
def scopeOf (t : NameTable) (node : NodeId) : ScopeId := t.evaluatedIn[node]?.getD 0

def place (t : NameTable) (node : NodeId) (scope : ScopeId) : NameTable :=
  { t with evaluatedIn := t.evaluatedIn.insert node scope }

section Building

variable (scopes : ScopeTree)

def record (node : NodeId) (scope : ScopeId) (name : String) (t : NameTable) : NameTable :=
  { t with referents := t.referents.insert node (scopes.referent scope name) }

def recordBound (node : NodeId) (kind : Kind) (scope : ScopeId) (t : NameTable) : NameTable :=
  match kind.boundName with
  | some name => record scopes node scope name t
  | none => t

mutual

def visit (scope : ScopeId) : Node → NameTable → NameTable
  | ⟨id, kind, _, _, children⟩, t =>
    let t := t.place id scope
    match kind, scopes.scopeOf? id with
    | .functionDef name, some inner => visitDefinition scope inner children (record scopes id scope name t)
    | .classDef name, some inner => visitDefinition scope inner children (record scopes id scope name t)
    | .lambda, some inner => visitLambda scope inner children t
    | .listComp, some inner => visitClauses scope inner true children t
    | .setComp, some inner => visitClauses scope inner true children t
    | .dictComp, some inner => visitClauses scope inner true children t
    | .generatorExp, some inner => visitClauses scope inner true children t
    | .name name, _ => record scopes id scope name t
    | .handler (some name), _ => visitAll scope children (record scopes id scope name t)
    | .alias _ _, _ => recordBound scopes id kind scope t
    | _, _ => visitAll scope children t

def visitAll (scope : ScopeId) : List Node → NameTable → NameTable
  | [], t => t
  | n :: rest, t => visitAll scope rest (visit scope n t)

/-- Blocks are evaluated inside, parameters are bound inside, and the rest belongs outside. -/
def visitDefinition (scope inner : ScopeId) : List Node → NameTable → NameTable
  | [], t => t
  | ⟨id, kind, span, parent, children⟩ :: rest, t =>
    visitDefinition scope inner rest
      (if kind = .arguments then visitParams scope inner children t
      else visit (if kind = .block then inner else scope) ⟨id, kind, span, parent, children⟩ t)

/-- Parameters belong inside and their defaults outside. -/
def visitParams (scope inner : ScopeId) : List Node → NameTable → NameTable
  | [], t => t
  | ⟨id, kind, _, _, children⟩ :: rest, t =>
    visitParams scope inner rest
      (visitAll scope children (recordBound scopes id kind inner (t.place id inner)))

def visitLambda (scope inner : ScopeId) : List Node → NameTable → NameTable
  | [], t => t
  | [⟨_, _, _, _, params⟩], t => visitParams scope inner params t
  | ⟨_, _, _, _, params⟩ :: body :: _, t => visit inner body (visitParams scope inner params t)

/-- Everything is evaluated inside but the first iterable. -/
def visitClauses (scope inner : ScopeId) (first : Bool) : List Node → NameTable → NameTable
  | [], t => t
  | ⟨id, kind, span, parent, children⟩ :: rest, t =>
    if kind = .comprehension then
      let t := t.place id inner
      visitClauses scope inner false rest
        (if first then visitFirst scope inner children t else visitAll inner children t)
    else visitClauses scope inner first rest (visit inner ⟨id, kind, span, parent, children⟩ t)

def visitFirst (scope inner : ScopeId) : List Node → NameTable → NameTable
  | [], t => t
  | [target], t => visit inner target t
  | target :: iterable :: rest, t => visitAll inner rest (visit scope iterable (visit inner target t))

end

def ofTree (tree : SyntaxTree) : NameTable :=
  tree.modules.foldl (fun t (_, root) => match scopes.scopeOf? root.id with
    | some scope => visit scopes scope root t
    | none => t) empty

end Building

end NameTable
end PointsTo

import PointsTo.Tree.Node
import PointsTo.Value.Builtin
import PointsTo.Value.Location

/-! # Lexical scopes

One walk over a tree records every scope (module, function, class, lambda, comprehension), the names
bound in it and what it declares global or nonlocal. A name is then resolved against the chain of
scopes without regard to control flow: here, in enclosing functions with class bodies skipped, in the
module, among the builtins. -/

namespace PointsTo

inductive ScopeKind where
  | module | function | cls | lambda | comprehension
deriving DecidableEq, Inhabited, Repr

namespace ScopeKind

/-- Scopes whose body is analysed as a unit of its own. -/
def isUnit : ScopeKind → Bool
  | .module | .function | .cls => true
  | _ => false

def name : ScopeKind → String
  | .module => "Module"
  | .function => "Function"
  | .cls => "Class"
  | .lambda => "Lambda"
  | .comprehension => "Comprehension"

end ScopeKind

/-- A lexical scope. Names stand in the order of their first binding. -/
structure Scope where
  id : ScopeId
  kind : ScopeKind
  node : Node
  parent : Option ScopeId
  name : String
  bindings : List String := []
  definitions : List (String × List NodeId) := []
  imports : List (String × List Node) := []
  globals : List String := []
  nonlocals : List String := []
  hasYield : Bool := false
  /-- The closest enclosing scope that is a unit. -/
  unitScope : ScopeId
  module : ScopeId
deriving Inhabited

def addNew {α : Type} [BEq α] (xs : List α) (x : α) : List α := if xs.contains x then xs else xs ++ [x]

theorem mem_foldl_addNew {α : Type} [BEq α] [LawfulBEq α] {xs acc : List α} {x : α} :
    x ∈ xs.foldl addNew acc ↔ x ∈ acc ∨ x ∈ xs := by
  induction xs generalizing acc with
  | nil => simp
  | cons y xs ih =>
    rw [List.foldl_cons, ih, addNew]
    split <;> grind

theorem nodup_foldl_addNew {α : Type} [BEq α] [LawfulBEq α] {xs acc : List α} (h : acc.Nodup) :
    (xs.foldl addNew acc).Nodup := by
  refine List.foldlRecOn xs addNew h fun acc hacc x _ => ?_
  unfold addNew
  split
  · exact hacc
  · rw [List.nodup_append]
    grind

def addUnder {α : Type} (entries : List (String × List α)) (key : String) (value : α) : List (String × List α) :=
  if entries.any (·.1 == key) then
    entries.map fun (k, vs) => if k == key then (k, vs ++ [value]) else (k, vs)
  else entries ++ [(key, [value])]

def valuesUnder {α : Type} (entries : List (String × List α)) (key : String) : List α :=
  ((entries.find? (·.1 == key)).map (·.2)).getD []

/-- All scopes of a tree, a parent before its children. A node that opened several scopes is looked up
as the last of them. -/
structure ScopeTree where
  scopes : Array Scope
  opened : Std.ExtTreeMap NodeId ScopeId

namespace ScopeTree

def empty : ScopeTree := ⟨#[], ∅⟩

def scope (t : ScopeTree) (id : ScopeId) : Scope := t.scopes[id]?.getD default

def scopeOf? (t : ScopeTree) (node : NodeId) : Option ScopeId := t.opened[node]?

def size (t : ScopeTree) : Nat := t.scopes.size

def moduleOf (t : ScopeTree) (id : ScopeId) : ScopeId := (t.scope id).module

def unitScope (t : ScopeTree) (id : ScopeId) : ScopeId := (t.scope id).unitScope

def moduleNamed? (t : ScopeTree) (name : String) : Option ScopeId :=
  (t.scopes.toList.find? fun s => s.kind == .module && s.name == name).map (·.id)

def definitions (t : ScopeTree) (id : ScopeId) (name : String) : List NodeId :=
  valuesUnder (t.scope id).definitions name

def imports (t : ScopeTree) (id : ScopeId) (name : String) : List Node :=
  valuesUnder (t.scope id).imports name

/-- The scope and its ancestors, innermost first; `fuel` bounds their number. -/
def chain (t : ScopeTree) : Nat → ScopeId → List ScopeId
  | 0, _ => []
  | fuel + 1, id => id :: match (t.scope id).parent with
    | some p => t.chain fuel p
    | none => []

def ancestry (t : ScopeTree) (id : ScopeId) : List ScopeId := t.chain t.size id

/-- Whether `inner` is `outer` or nested somewhere inside it. -/
def isWithin (t : ScopeTree) (inner outer : ScopeId) : Bool := (t.ancestry inner).contains outer

section Building

def openScope (t : ScopeTree) (kind : ScopeKind) (node : Node) (parent : Option ScopeId)
    (name : String) : ScopeId × ScopeTree :=
  let id := t.size
  let unitScope := if kind.isUnit then id else (parent.map t.unitScope).getD id
  let module := (parent.map t.moduleOf).getD id
  (id, ⟨t.scopes.push { id, kind, node, parent, name, unitScope, module }, t.opened.insert node.id id⟩)

def modifyScope (t : ScopeTree) (id : ScopeId) (f : Scope → Scope) : ScopeTree :=
  { t with scopes := t.scopes.modify id f }

/-- The scope that a binding in `id` goes to: none for a nonlocal name, the module for a global one. -/
def bindingScope? (t : ScopeTree) (id : ScopeId) (name : String) : Option ScopeId :=
  let here := t.scope id
  if here.nonlocals.contains name then none
  else if here.globals.contains name then some here.module
  else some id

def bind (t : ScopeTree) (id : ScopeId) (name : String) : ScopeTree :=
  match t.bindingScope? id name with
  | none => t
  | some target => t.modifyScope target fun s => { s with bindings := addNew s.bindings name }

def bindDefinition (t : ScopeTree) (id : ScopeId) (name : String) (node : NodeId) : ScopeTree :=
  match t.bindingScope? id name with
  | none => t
  | some target => t.modifyScope target fun s =>
    { s with bindings := addNew s.bindings name, definitions := addUnder s.definitions name node }

def bindImport (t : ScopeTree) (id : ScopeId) (name : String) (item : Node) : ScopeTree :=
  match t.bindingScope? id name with
  | none => t
  | some target => t.modifyScope target fun s =>
    { s with bindings := addNew s.bindings name, imports := addUnder s.imports name item }

mutual

def bindTarget (id : ScopeId) : Node → ScopeTree → ScopeTree
  | ⟨_, kind, _, _, children⟩, t =>
    match kind with
    | .name name => t.bind id name
    | .tuple | .list => bindTargets id children t
    | .starred => bindFirst id children t
    | _ => t

def bindTargets (id : ScopeId) : List Node → ScopeTree → ScopeTree
  | [], t => t
  | n :: rest, t => bindTargets id rest (bindTarget id n t)

def bindFirst (id : ScopeId) : List Node → ScopeTree → ScopeTree
  | [], t => t
  | n :: _, t => bindTarget id n t

end

def bindParams (id : ScopeId) (children : List Node) (t : ScopeTree) : ScopeTree :=
  match children.find? (·.kind == .arguments) with
  | none => t
  | some args => args.children.foldl (fun t p => match p.kind with
    | .param name _ _ => t.bind id name
    | _ => t) t

def bindImports (id : ScopeId) (items : List Node) (t : ScopeTree) : ScopeTree :=
  items.foldl (fun t item => match item.boundName with
    | some name => t.bindImport id name item
    | none => t) t

/-- The scope that owns what a comprehension lets out: the first ancestor that is none. -/
def outsideComprehensions (t : ScopeTree) (id : ScopeId) : ScopeId :=
  ((t.ancestry id).find? fun s => (t.scope s).kind != .comprehension).getD id

/-- What a statement or expression itself binds in its scope, its children apart. -/
def bindOwn (id : ScopeId) (kind : Kind) (children : List Node) (t : ScopeTree) : ScopeTree :=
  match kind with
  | .assign => bindTargets id children.dropLast t
  | .augAssign _ | .forLoop => bindFirst id children t
  | .annAssign _ => if children.length > 1 then bindFirst id children t else t
  | .withItem => bindFirst id (children.drop 1) t
  | .delete => bindTargets id children t
  | .namedExpr => bindFirst (t.outsideComprehensions id) children t
  | .handler (some name) => t.bind id name
  | .yielding | .yieldFrom =>
    t.modifyScope (t.outsideComprehensions id) fun s => { s with hasYield := true }
  | _ => t

mutual

/-- Records what a node and everything below it bind and open in the scope `id`. -/
def visit (id : ScopeId) : Node → ScopeTree → ScopeTree
  | ⟨nid, kind, span, parent, children⟩, t =>
    let node : Node := ⟨nid, kind, span, parent, children⟩
    match kind with
    | .functionDef name =>
      let t := visitDefaults id children (t.bindDefinition id name nid)
      let (inner, t) := t.openScope .function node (some id) name
      visitBody inner children (bindParams inner children t)
    | .classDef name =>
      let t := visitTail id children (t.bindDefinition id name nid)
      let (inner, t) := t.openScope .cls node (some id) name
      visitBody inner children t
    | .lambda =>
      let t := visitDefaults id children t
      let (inner, t) := t.openScope .lambda node (some id) "<lambda>"
      visitSecond inner children (bindParams inner children t)
    | .listComp | .setComp | .dictComp | .generatorExp =>
      let t := visitFirstIterable id children t
      let (inner, t) := t.openScope .comprehension node (some id) "<comprehension>"
      visitElements inner children (visitClauses inner true children t)
    | .importModules | .importFrom _ => bindImports id children t
    | .globalNames names =>
      t.modifyScope id fun s => { s with globals := names.foldl addNew s.globals }
    | .nonlocalNames names =>
      t.modifyScope id fun s => { s with nonlocals := names.foldl addNew s.nonlocals }
    | _ => visitAll id children (bindOwn id kind children t)

def visitAll (id : ScopeId) : List Node → ScopeTree → ScopeTree
  | [], t => t
  | n :: rest, t => visitAll id rest (visit id n t)

def visitTail (id : ScopeId) : List Node → ScopeTree → ScopeTree
  | [], t => t
  | _ :: rest, t => visitAll id rest t

def visitSecond (id : ScopeId) : List Node → ScopeTree → ScopeTree
  | _ :: n :: _, t => visit id n t
  | _, t => t

/-- The defaults of the first argument list, which belong to the scope around the definition. -/
def visitDefaults (id : ScopeId) : List Node → ScopeTree → ScopeTree
  | [], t => t
  | ⟨_, kind, _, _, params⟩ :: rest, t =>
    if kind = .arguments then visitGrandchildren id params t else visitDefaults id rest t

def visitGrandchildren (id : ScopeId) : List Node → ScopeTree → ScopeTree
  | [], t => t
  | ⟨_, _, _, _, children⟩ :: rest, t => visitGrandchildren id rest (visitAll id children t)

def visitBody (id : ScopeId) : List Node → ScopeTree → ScopeTree
  | [], t => t
  | ⟨_, kind, _, _, stmts⟩ :: rest, t =>
    if kind = .block then visitAll id stmts t else visitBody id rest t

/-- The iterable of the first clause, which belongs to the scope around the comprehension. -/
def visitFirstIterable (id : ScopeId) : List Node → ScopeTree → ScopeTree
  | [], t => t
  | ⟨_, kind, _, _, parts⟩ :: rest, t =>
    if kind = .comprehension then visitSecond id parts t else visitFirstIterable id rest t

/-- The clauses: targets are bound, and all but the first iterable is visited. -/
def visitClauses (id : ScopeId) (first : Bool) : List Node → ScopeTree → ScopeTree
  | [], t => t
  | ⟨_, kind, _, _, parts⟩ :: rest, t =>
    if kind = .comprehension then
      let t := bindFirst id parts t
      visitClauses id false rest (if first then visitConditions id parts t else visitTail id parts t)
    else visitClauses id first rest t

def visitConditions (id : ScopeId) : List Node → ScopeTree → ScopeTree
  | _ :: _ :: rest, t => visitAll id rest t
  | _, t => t

def visitElements (id : ScopeId) : List Node → ScopeTree → ScopeTree
  | [], t => t
  | ⟨nid, kind, span, parent, children⟩ :: rest, t =>
    visitElements id rest
      (if kind = .comprehension then t else visit id ⟨nid, kind, span, parent, children⟩ t)

end

def addModule (t : ScopeTree) (name : String) (root : Node) : ScopeTree :=
  let (id, t) := t.openScope .module root none name
  visitAll id root.children t

def ofTree (tree : SyntaxTree) : ScopeTree :=
  tree.modules.foldl (fun t (name, root) => t.addModule name root) empty

end Building

end ScopeTree
end PointsTo

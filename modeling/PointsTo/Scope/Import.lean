import PointsTo.Scope.Resolution

/-! # Names across modules

What an import binds when the imported module is part of the program, and which definitions a name
stands for when imports are followed. -/

namespace PointsTo

structure Names where
  tree : SyntaxTree
  scopes : ScopeTree
  table : NameTable

/-- What an attribute of a module of the program names. -/
inductive ModuleMember where
  | submodule (name : String)
  | global (location : Location)
deriving DecidableEq, Inhabited, Repr

namespace ModuleMember

def global? : ModuleMember → Option Location
  | .global l => some l
  | .submodule _ => none

end ModuleMember

namespace Names

def ofTree (tree : SyntaxTree) : Names :=
  let scopes := ScopeTree.ofTree tree
  ⟨tree, scopes, NameTable.ofTree scopes tree⟩

variable (n : Names)

/-- A name the module binds, or else a submodule, or else a global that is not bound. Nothing if the
module is not part of the program. -/
def moduleMember? (module attr : String) : Option ModuleMember :=
  let owner := n.scopes.moduleNamed? module
  let dotted := module ++ "." ++ attr
  match owner with
  | some scope =>
    if (n.scopes.scope scope).bindings.contains attr then some (.global (.var scope attr))
    else if (n.scopes.moduleNamed? dotted).isSome then some (.submodule dotted)
    else some (.global (.var scope attr))
  | none => if (n.scopes.moduleNamed? dotted).isSome then some (.submodule dotted) else none

def parentKind? (node : Node) : Option Kind := node.parent.map n.tree.kind

/-- The module that an import alias binds its name to: the first part of a plain dotted name, the
whole of a renamed one, and the member as a module for an import out of a module. -/
def importedModule? (item : Node) : Option String :=
  match item.kind, n.parentKind? item with
  | .alias name asName, some .importModules =>
    some (if asName.isSome then name else Kind.firstPart name)
  | .alias name _, some (.importFrom module) => some (module ++ "." ++ name)
  | _, _ => none

def importedGlobal? (item : Node) : Option Location :=
  match item.kind, n.parentKind? item with
  | .alias name _, some (.importFrom module) => (n.moduleMember? module name).bind ModuleMember.global?
  | _, _ => none

/-- The dotted prefixes of a name from the part that has been read, which is kept backwards. -/
def prefixesFrom (read : List Char) : List Char → List String
  | [] => [String.ofList read.reverse]
  | '.' :: rest =>
    String.ofList read.reverse :: prefixesFrom (if read.isEmpty then [] else '.' :: read) rest
  | c :: rest => prefixesFrom (c :: read) rest

/-- Every dotted prefix of a name, shortest first. Nothing precedes an empty first part. -/
def prefixes (name : String) : List String := prefixesFrom [] name.toList

def loadedBy (stmt : Node) : List String :=
  match stmt.kind with
  | .importModules => stmt.children.filterMap fun item => match item.kind with
    | .alias name _ => some name
    | _ => none
  | .importFrom module => module :: stmt.children.filterMap n.importedModule?
  | _ => []

/-- The scopes of the modules whose bodies run when an import statement runs, each once. -/
def modulesRunBy (stmt : Node) : List ScopeId :=
  (((n.loadedBy stmt).flatMap prefixes).filterMap n.scopes.moduleNamed?).foldl addNew []

/-- The global that an attribute reads through a name bound only by an import of its module. -/
def moduleAttribute? (node : Node) : Option Location := do
  let .attribute attr := node.kind | none
  let receiver ← node.child? 0
  let .name name := receiver.kind | none
  let owner ← (n.scopes.resolve (n.table.scopeOf receiver.id) name).scope?
  if !(n.scopes.definitions owner name).isEmpty then none
  else match n.scopes.imports owner name with
    | [item] => (← n.moduleMember? (← n.importedModule? item) attr).global?
    | _ => none

/-- The variables that the aliases binding a name copy. -/
def importedVariables (scope : ScopeId) (name : String) : List (ScopeId × String) :=
  (n.scopes.imports scope name).filterMap fun item => match n.importedGlobal? item with
    | some (.var s x) => some (s, x)
    | _ => none

/-- Collects definitions from the variables on a stack, following imports to variables not yet
seen. -/
def collectDefinitions : Nat → List (ScopeId × String) → List (ScopeId × String) → List NodeId → List NodeId
  | 0, _, _, found => found
  | _, [], _, found => found
  | fuel + 1, (scope, name) :: stack, seen, found =>
    if seen.contains (scope, name) then collectDefinitions fuel stack seen found
    else collectDefinitions fuel ((n.importedVariables scope name).reverse ++ stack)
      ((scope, name) :: seen) (found ++ n.scopes.definitions scope name)

def importCount : Nat :=
  (n.scopes.scopes.toList.flatMap fun s => s.imports.flatMap fun e => e.2).length

/-- The definitions that a name bound in a scope stands for, through any chain of imports. -/
def definitionsThroughImports (owner : ScopeId) (name : String) : List NodeId :=
  collectDefinitions n (1 + n.importCount) [(owner, name)] [] []

end Names
end PointsTo

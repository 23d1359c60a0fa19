import PointsTo.Settings
import PointsTo.Tree.Node

/-! # Shapes

Whether the nodes a unit evaluates itself have the children their kinds call for. Bodies of nested
functions and classes belong to units of their own; their defaults and bases are checked here. -/

namespace PointsTo

namespace Node

def allNamed (nodes : List Node) (word : String) : Bool := nodes.all (·.kind.word == word)

def isBlockAt (children : List Node) (i : Nat) : Bool := (children[i]?.map isBlock).getD false

def wellShaped (kind : Kind) (children : List Node) : Bool :=
  let n := children.length
  match kind with
  | .ifElse | .whileLoop => (n == 2 || (n == 3 && isBlockAt children 2)) && isBlockAt children 1
  | .forLoop => (n == 3 || (n == 4 && isBlockAt children 3)) && isBlockAt children 2
  | .tryBlock => isBlockAt children 0
  | .handler _ => (n == 1 || n == 2) && isBlockAt children (n - 1)
  | .withBlock => n ≥ 2 && isBlockAt children (n - 1) && allNamed children.dropLast "WithItem"
  | .withItem | .annAssign _ | .assertion => n == 1 || n == 2
  | .assign | .logical _ => n ≥ 2
  | .augAssign _ | .subscript | .binary _ => n == 2
  | .ret | .yielding | .param _ _ _ => n ≤ 1
  | .raise => n ≤ 2
  | .delete | .call | .formattedValue => n ≥ 1
  | .attribute _ | .unary _ | .keyword _ | .starred | .yieldFrom | .await => n == 1
  | .compare ops => !ops.isEmpty && n == ops.length + 1
  | .namedExpr => n == 2 && (children[0]?.map fun c => c.kind.word == "Name").getD false
  | .conditional => n == 3
  | .lambda => n == 2 && (children[0]?.map fun c => c.kind.word == "Arguments").getD false
  | .listComp | .setComp | .generatorExp => n ≥ 2 && allNamed (children.drop 1) "Comprehension"
  | .dictComp => n ≥ 3 && allNamed (children.drop 2) "Comprehension"
  | .comprehension => n ≥ 2
  | .dict => n % 2 == 0
  | .slice => n ≤ 3
  | .arguments => allNamed children "Param"
  | .importModules | .importFrom _ => allNamed children "Alias"
  | .name _ | .literal _ | .breakLoop | .continueLoop | .pass | .globalNames _ | .nonlocalNames _
  | .alias _ _ => n == 0
  | .program => allNamed children "Module"
  | _ => true

def defectFault (span : Span) (kind : String) (defect : Defect) : Fault :=
  .malformedTree span ("`" ++ kind ++ "`: " ++ defect.message)

def checkOne (policy : UnsupportedPolicy) (kind : Kind) (span : Span) (children : List Node) : Except Fault Unit :=
  match kind with
  | .malformed word defect => .error (defectFault span word defect)
  | .unsupported word => if policy = .failUnit then .error (.unsupported word span) else .ok ()
  | kind =>
    if wellShaped kind children then .ok ()
    else .error (.malformedTree span
      ("`" ++ kind.word ++ "` has an unexpected shape (" ++ toString children.length ++ " children)"))

mutual

/-- Checks a node and what the same unit evaluates below it, in preorder. -/
def check (policy : UnsupportedPolicy) : Node → Except Fault Unit
  | ⟨_, kind, span, _, children⟩ => do
    checkOne policy kind span children
    match kind with
    | .functionDef _ | .classDef _ => checkOutside policy children
    | _ => checkAll policy children

def checkAll (policy : UnsupportedPolicy) : List Node → Except Fault Unit
  | [] => .ok ()
  | n :: rest => do
    check policy n
    checkAll policy rest

/-- All but blocks. -/
def checkOutside (policy : UnsupportedPolicy) : List Node → Except Fault Unit
  | [] => .ok ()
  | ⟨id, kind, span, parent, children⟩ :: rest => do
    if kind = .block then checkOutside policy rest
    else
      check policy ⟨id, kind, span, parent, children⟩
      checkOutside policy rest

end

end Node
end PointsTo

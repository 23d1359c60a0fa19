import PointsTo.Evaluation.Step

/-! # Marks of definitions

The syntax decides which variables of its own a unit defines while it evaluates, and in which order. The
marks of an expression, a statement or a block list them as evaluation comes across them, together with
the attributes that are stored to. -/

namespace PointsTo

/-- Whether a location is a variable or the result of the unit itself. -/
def UnitInfo.defines (u : UnitInfo) : Location → Bool
  | .var scope _ => scope == u.scope
  | .ret node => node == u.node.id
  | _ => false

/-- Whether an argument of the kind only says how its part is passed. -/
def Kind.isWrapper : Kind → Bool
  | .starred | .keyword _ => true
  | _ => false

/-- What the syntax says about definitions. -/
inductive Mark where
  /-- A location of the unit is defined. -/
  | define (l : Location)
  /-- An attribute is stored to, whatever that defines. -/
  | store (attr : String)

namespace Mark

def define? : Mark → Option Location
  | .define l => some l
  | .store _ => none

def locations (ms : List Mark) : List Location := ms.filterMap define?

@[simp] theorem locations_nil : locations [] = [] := rfl

@[simp] theorem locations_append (ms ms' : List Mark) :
    locations (ms ++ ms') = locations ms ++ locations ms' := List.filterMap_append

@[simp] theorem locations_store (attr : String) : locations [.store attr] = [] := rfl

variable (p : Declarations) (g : FlowGraph) (u : UnitInfo)

def ofWrite (l : Location) : List Mark := if u.defines l then [.define l] else []

def ofName (node : NodeId) : List Mark :=
  match p.table.location? node with
  | some l => if u.defines l then [.define l] else []
  | none => []

mutual

/-- The marks of an expression; what is hoisted has been evaluated already, unless it is computed just
now. -/
def ofExpr (ahead : Bool) : Node → List Mark
  | ⟨id, kind, _, _, children⟩ =>
    if !ahead && g.isHoisted id then []
    else match kind with
      | .binary _ | .subscript => match children with
        | [l, r] => ofExpr false l ++ ofExpr false r
        | _ => []
      | .conditional => match children with
        | [test, first, second] => ofExpr false test ++ (ofExpr false first ++ ofExpr false second)
        | _ => []
      | .unary _ | .attribute _ | .yielding | .yieldFrom | .await | .starred | .keyword _ => ofFirst children
      | .logical _ | .compare _ | .slice | .joinedStr | .formattedValue | .unsupported _ => ofExprs children
      | .call => match children with
        | callee :: args => ofExpr false callee ++ ofArguments args
        | [] => []
      | .list | .tuple | .set => ofElements children
      | .dict => ofEntries children
      | .listComp | .setComp | .dictComp | .generatorExp => ofClauses children ++ ofParts children
      | .namedExpr => match children with
        | [target, source] =>
          ofExpr false source ++ if target.kind.isPattern then ofPattern target else ofExpr false target
        | _ => []
      | .lambda => ofDefaults children
      | _ => []

def ofExprs : List Node → List Mark
  | [] => []
  | n :: rest => ofExpr false n ++ ofExprs rest

def ofFirst : List Node → List Mark
  | [] => []
  | n :: _ => ofExpr false n

/-- The marks of arguments; of one that is starred or given by keyword only the part inside counts. -/
def ofArguments : List Node → List Mark
  | [] => []
  | ⟨id, kind, span, parent, []⟩ :: rest => ofExpr false ⟨id, kind, span, parent, []⟩ ++ ofArguments rest
  | ⟨id, kind, span, parent, inner :: more⟩ :: rest =>
    (if kind.isWrapper then ofExpr false inner
      else ofExpr false ⟨id, kind, span, parent, inner :: more⟩) ++ ofArguments rest

def ofElements : List Node → List Mark
  | [] => []
  | ⟨id, kind, span, parent, []⟩ :: rest => ofExpr false ⟨id, kind, span, parent, []⟩ ++ ofElements rest
  | ⟨id, kind, span, parent, inner :: more⟩ :: rest =>
    (if kind = .starred then ofExpr false inner
      else ofExpr false ⟨id, kind, span, parent, inner :: more⟩) ++ ofElements rest

def ofEntries : List Node → List Mark
  | k :: v :: rest => ofExpr false k ++ (ofExpr false v ++ ofEntries rest)
  | _ => []

def ofClauses : List Node → List Mark
  | [] => []
  | ⟨_, kind, _, _, parts⟩ :: rest => (if kind = .comprehension then ofClause parts else []) ++ ofClauses rest

def ofClause : List Node → List Mark
  | target :: iterable :: conditions =>
    ofExpr false iterable ++
      ((if target.kind.isPattern then ofPattern target else ofExpr false target) ++ ofExprs conditions)
  | _ => []

def ofParts : List Node → List Mark
  | [] => []
  | n :: rest => if n.kind = .comprehension then ofParts rest else ofExpr false n ++ ofParts rest

def ofDefaults : List Node → List Mark
  | [] => []
  | ⟨_, _, _, _, params⟩ :: _ => ofParamDefaults params

def ofParamDefaults : List Node → List Mark
  | [] => []
  | ⟨_, _, _, _, []⟩ :: rest => ofParamDefaults rest
  | ⟨_, _, _, _, d :: _⟩ :: rest => ofExpr false d ++ ofParamDefaults rest

def ofPattern : Node → List Mark
  | ⟨id, kind, _, _, children⟩ =>
    match kind with
    | .name _ => ofName p u id
    | .tuple | .list => ofPatterns children
    | .starred => ofFirstPattern children
    | .attribute attr => match children with
      | receiver :: _ => ofExpr false receiver ++ [.store attr]
      | [] => []
    | .subscript => match children with
      | [container, index] => ofExpr false container ++ ofExpr false index
      | _ => []
    | _ => []

def ofPatterns : List Node → List Mark
  | [] => []
  | target :: rest =>
    (if target.kind.isPattern then ofPattern target else ofExpr false target) ++ ofPatterns rest

def ofFirstPattern : List Node → List Mark
  | [] => []
  | target :: _ => if target.kind.isPattern then ofPattern target else ofExpr false target

end

/-- The marks of a target; one that is no pattern is only evaluated. -/
def ofTarget (target : Node) : List Mark :=
  if target.kind.isPattern then ofPattern p g u target else ofExpr p g u false target

/-- The marks of a deletion: of any other target than a name only the parts are evaluated. -/
def ofDeletion (target : Node) : List Mark :=
  match target.kind with
  | .name _ => ofName p u target.id
  | _ => ofExprs p g u target.children

def ofAugmented (target value : Node) : List Mark :=
  match target.kind with
  | .name _ => match p.table.location? target.id with
    | some _ => ofExpr p g u false value ++ ofName p u target.id
    | none => []
  | .attribute attr => match target.children with
    | receiver :: _ => ofExpr p g u false receiver ++ (ofExpr p g u false value ++ [.store attr])
    | [] => []
  | .subscript => match target.children with
    | [container, index] =>
      ofExpr p g u false container ++ (ofExpr p g u false index ++ ofExpr p g u false value)
    | _ => []
  | _ => ofExpr p g u false value

def ofImported (item : Node) : List Mark :=
  match p.importedModule? item with
  | some _ => ofName p u item.id
  | none => []

def ofMember (item : Node) : List Mark :=
  match item.kind with
  | .alias name _ => if name = "*" then [] else ofName p u item.id
  | _ => []

def result : Mark := .define (.ret u.node.id)

def ofStatement (stmt : Node) : List Mark :=
  match stmt.kind with
  | .assign => match stmt.children.getLast? with
    | some value => ofExpr p g u false value ++ stmt.children.dropLast.flatMap (ofTarget p g u)
    | none => []
  | .augAssign _ => match stmt.children with
    | [target, value] => ofAugmented p g u target value
    | _ => []
  | .annAssign _ => match stmt.children with
    | [target, value] => ofExpr p g u false value ++ ofTarget p g u target
    | _ => []
  | .delete => stmt.children.flatMap (ofDeletion p g u)
  | .ret => ofFirst p g u stmt.children ++ [result u]
  | .functionDef _ => (match stmt.childOfKind? "Arguments" with
    | some arguments => ofParamDefaults p g u arguments.children
    | none => []) ++ ofName p u stmt.id
  | .classDef _ => ofExprs p g u (stmt.children.drop 1) ++ ofName p u stmt.id
  | .importModules => stmt.children.flatMap (ofImported p u)
  | .importFrom _ => stmt.children.flatMap (ofMember p u)
  | .exprStmt | .raise | .assertion | .unsupported _ => ofExprs p g u stmt.children
  | _ => []

def ofParam (param : Node) : List Mark :=
  match param.kind with
  | .param name _ _ => [.define (.var u.scope name)]
  | _ => []

def ofCaught (handler : Node) : List Mark :=
  match handler.kind with
  | .handler (some _) => ofName p u handler.id
  | _ => []

def ofHandler (handler : Node) : List Mark :=
  (match handler.children with
    | named :: _ :: _ => ofExpr p g u false named
    | _ => []) ++ ofCaught p u handler

/-- The marks of an item that opens a context and perhaps has a target for it. -/
def ofItem (item : Node) : List Mark :=
  match item.children with
  | [] => []
  | [context] => ofExpr p g u false context
  | context :: target :: _ => ofExpr p g u false context ++ ofTarget p g u target

def ofStep : Step → List Mark
  | .parameters arguments => arguments.children.flatMap (ofParam u)
  | .exec stmt => ofStatement p g u stmt
  | .eval expr => ofExpr p g u true expr
  | .bind _ _ => []
  | .test condition => ofExpr p g u false condition
  | .iterate target _ => ofTarget p g u target
  | .handle handler => ofHandler p g u handler
  | .enter item => ofItem p g u item
  | .returnNone => [result u]

def ofBlock (b : Block) : List Mark := b.steps.flatMap (ofStep p g u)

end Mark

/-- What an attribute of a class or module may stand for. -/
inductive Declarations.Attribute (p : Declarations) (attr : String) : Location → Prop
  | cls (c : ClassId) : Attribute p attr (.var (p.cls c).scope attr)
  | global {module l} (h : p.moduleMember? module attr = some (.global l)) : Attribute p attr l

/-- What a call may define: the parameters of a function, and all that a lambda binds while it runs. -/
inductive Declarations.Called (p : Declarations) (g : FlowGraph) (u : UnitInfo) : Location → Prop
  | param {d id arguments param name hint kind} (hd : p.unitOf? d = some id)
    (ha : (p.tree.node d).childOfKind? "Arguments" = some arguments) (hp : param ∈ arguments.children)
    (hk : param.kind = .param name hint kind) : Called p g u (.var (p.unit id).scope name)
  | lambdaParam {d arguments param name hint kind} (hd : p.tree.kind d = .lambda)
    (ha : (p.tree.node d).child? 0 = some arguments) (hp : param ∈ arguments.children)
    (hk : param.kind = .param name hint kind) :
    Called p g u (.var ((p.scopes.scopeOf? (p.tree.node d).id).getD u.scope) name)
  | lambdaBody {d body l} (hd : p.tree.kind d = .lambda) (hb : (p.tree.node d).child? 1 = some body)
    (hl : .define l ∈ Mark.ofExpr p g u false body) : Called p g u l
  | lambdaStore {d body attr l} (hd : p.tree.kind d = .lambda) (hb : (p.tree.node d).child? 1 = some body)
    (hs : .store attr ∈ Mark.ofExpr p g u false body) (hl : p.Attribute attr l) : Called p g u l
  | lambdaResult {d} (hd : p.tree.kind d = .lambda) : Called p g u (.ret (p.tree.node d).id)

/-- What the values may decide to define where the marks stand. -/
def Frame.Undecided (f : Frame) (ms : List Mark) (l : Location) : Prop :=
  f.unit.defines l = true ∧ (f.program.Called f.graph f.unit l ∨ ∃ attr, .store attr ∈ ms ∧ f.program.Attribute attr l)

theorem Frame.Undecided.mono {f : Frame} {ms ms' : List Mark} (hms : ms ⊆ ms') (l : Location)
    (h : f.Undecided ms l) : f.Undecided ms' l :=
  ⟨h.1, h.2.imp_right fun ⟨attr, hattr, ha⟩ => ⟨attr, hms hattr, ha⟩⟩

end PointsTo

import PointsTo.Flow.Facts
import PointsTo.Value.State

/-! # The machine

Evaluation runs over one abstract state. Variables of the unit live in that state alone. Storage that
other units can see is read together with what they have published, and every write to it is recorded
so that it can be published in turn. Slots of objects are only ever updated weakly. -/

namespace PointsTo

inductive TopReason where
  | unsupported (kind : String)
  | unresolved (name : String)
  | unknownCallee
  | reflection (name : String)
  | outsideModule (module : String)
  | hiddenAttribute (name : String)
  | failedCallee (unit : String)
deriving DecidableEq, Inhabited, Repr

namespace TopReason

def rank : TopReason → Nat
  | .unsupported _ => 0
  | .unresolved _ => 1
  | .unknownCallee => 2
  | .reflection _ => 3
  | .outsideModule _ => 4
  | .hiddenAttribute _ => 5
  | .failedCallee _ => 6

def subject : TopReason → String
  | .unsupported s | .unresolved s | .reflection s | .outsideModule s | .hiddenAttribute s
  | .failedCallee s => s
  | .unknownCallee => ""

def message : TopReason → String
  | .unsupported kind => "unsupported construct `" ++ kind ++ "`"
  | .unresolved name => "unresolved name `" ++ name ++ "`"
  | .unknownCallee => "call to an unknown callee"
  | .reflection name => "reflective builtin `" ++ name ++ "`"
  | .outsideModule module => "member of external module `" ++ module ++ "`"
  | .hiddenAttribute name => "attribute `" ++ name ++ "` of an opaque value"
  | .failedCallee unit => "call to `" ++ unit ++ "`, which could not be analysed"

def toJson : TopReason → Json
  | .unsupported kind => .obj [("reason", .str "unsupported_construct"), ("kind", .str kind)]
  | .unresolved name => .obj [("reason", .str "unresolved_name"), ("name", .str name)]
  | .unknownCallee => .obj [("reason", .str "unknown_callee")]
  | .reflection name => .obj [("reason", .str "reflection"), ("name", .str name)]
  | .outsideModule module => .obj [("reason", .str "external_module"), ("module", .str module)]
  | .hiddenAttribute name => .obj [("reason", .str "opaque_attribute"), ("name", .str name)]
  | .failedCallee unit => .obj [("reason", .str "failed_callee"), ("unit", .str unit)]

end TopReason

structure Flag where
  node : NodeId
  reason : TopReason
deriving DecidableEq, Inhabited, Repr

namespace Flag

def cmp (a b : Flag) : Ordering :=
  (compare a.node b.node).then <| (compare a.reason.rank b.reason.rank).then
    (compare a.reason.subject b.reason.subject)

instance : Ord Flag := ⟨cmp⟩

instance : Std.TransOrd Flag :=
  inferInstanceAs (Std.TransCmp (compareLex (compareOn Flag.node)
    (compareLex (compareOn fun f : Flag => f.reason.rank) (compareOn fun f : Flag => f.reason.subject))))

instance : Std.LawfulEqOrd Flag where
  eq_of_compare {a b} h := by
    have h : cmp a b = .eq := h
    simp only [cmp, Ordering.then_eq_eq, Std.LawfulEqOrd.compare_eq_iff_eq] at h
    obtain ⟨n, r⟩ := a
    obtain ⟨m, q⟩ := b
    obtain ⟨h₁, h₂, h₃⟩ := h
    cases r <;> cases q <;> simp_all [TopReason.rank, TopReason.subject]

end Flag

structure Recorder where
  /-- The value of every evaluated node, joined over all its evaluations. -/
  exprTypes : Std.ExtTreeMap NodeId TypeSet := ∅
  flags : Std.ExtTreeSet Flag := ∅
  effects : AbstractState := .empty
  /-- Variables and results that each block defines, in order. -/
  definitions : Std.ExtTreeMap BlockId (List Location) := ∅

instance : Inhabited Recorder := ⟨{}⟩

structure Machine where
  state : AbstractState
  recorder : Option Recorder := none

abbrev Eval := StateM Machine

/-- What stays fixed while a block of a unit runs. -/
structure Frame where
  program : Declarations
  facts : ProgramFacts
  granularity : Granularity
  graph : FlowGraph
  unit : UnitInfo
  env : AbstractState
  block : Block := default

namespace Frame

variable (f : Frame)

def owns : Location → Bool
  | .var scope _ => f.program.scopes.unitScope scope == f.unit.scope
  | _ => false

/-- What a location holds in a state, together with what others may have stored there. -/
def value (s : AbstractState) (l : Location) : TypeSet :=
  let shared := (f.env.get? l).getD .bottom
  match l with
  | .universal => .top
  | .temp _ => (s.get? l).getD shared
  | .var _ _ =>
    if f.owns l then if f.facts.foreignWrites.contains l then (s.read l).join shared else s.read l
    else (f.env.read l).join ((s.get? l).getD .bottom)
  | _ => ((s.get? l).getD .bottom).join shared

/-- Whether an assignment may replace the old value: outside loops and nested bodies, and only for
variables that no other unit assigns. -/
def replaces (nested : Bool) (l : Location) : Bool :=
  f.block.loopDepth == 0 && !nested && f.owns l && !f.facts.foreignWrites.contains l

def site (node : NodeId) : AllocSite :=
  { span := f.program.tree.span node, scope := f.program.table.scopeOf node }

/-- The object that a node allocates; the number separates several objects of one node. -/
def alloc (node : NodeId) (kind : ObjKind) (part : Nat := 0) : HeapRef := ⟨(f.site node).withPart part, kind⟩

/-- The one instance that stands for all instances of a class. -/
def inst (cls : ClassId) : TypeTag := .object ⟨(f.program.cls cls).instanceSite, .inst cls⟩

def generatorOf (definition : NodeId) (scope : ScopeId) : HeapRef :=
  ⟨{ span := f.program.tree.span definition, scope }, .generator⟩

/-- What iteration over a value yields in a state, unless its own methods decide. -/
def elementsIn (s : AbstractState) (v : TypeSet) : TypeSet :=
  v.flatMap fun
    | .object r => match r.kind with
      | .inst _ => .top
      | _ => f.value s r.items
    | .str => .single .str
    | .bytes => .single .int
    | _ => .bottom

end Frame

namespace Eval

def joinEach {α : Type} (act : α → Eval TypeSet) : List α → Eval TypeSet
  | [] => pure .bottom
  | a :: rest => do
    let v ← act a
    return v.join (← joinEach act rest)

def observe (change : Recorder → Recorder) : Eval Unit :=
  modify fun m => { m with recorder := m.recorder.map change }

def publish (l : Location) (v : TypeSet) : Eval Unit :=
  observe fun r => { r with effects := r.effects.weakUpdate l v }

def record (node : NodeId) (v : TypeSet) : Eval Unit :=
  observe fun r =>
    let earlier := r.exprTypes[node]?.getD .bottom
    { r with exprTypes := r.exprTypes.insert node (earlier.join v) }

def flag (node : NodeId) (reason : TopReason) : Eval Unit :=
  observe fun r => { r with flags := r.flags.insert ⟨node, reason⟩ }

def setSlot (l : Location) (v : TypeSet) : Eval Unit := modify fun m => { m with state := m.state.set l v }

variable (f : Frame)

def noteDefinition (l : Location) : Eval Unit :=
  observe fun r =>
    let earlier := r.definitions[f.block.id]?.getD []
    { r with definitions := r.definitions.insert f.block.id (earlier ++ [l]) }

def readSlot (l : Location) : Eval TypeSet := return f.value (← get).state l

/-- A weak update that others can see. A variable is bound afterwards, so its old `unbound` goes;
nothing else ever holds `unbound`. -/
def writeSlot (l : Location) (v : TypeSet) : Eval Unit :=
  match l with
  | .universal => pure ()
  | .var _ _ => do
    noteDefinition f l
    publish l v
    modify fun m => { m with state := (m.state.discardUnbound l).weakUpdate l v }
  | l => do
    match l with
    | .ret _ => noteDefinition f l
    | _ => pure ()
    publish l (v.without .unbound)
    modify fun m => { m with state := m.state.weakUpdate l (v.without .unbound) }

def assign (nested : Bool) (l : Location) (v : TypeSet) : Eval Unit :=
  if l = .universal then pure ()
  else if f.replaces nested l then do
    noteDefinition f l
    publish l v
    setSlot l v
  else writeSlot f l v

def bindName (nested : Bool) (node : NodeId) (v : TypeSet) : Eval Unit :=
  match f.program.table.location? node with
  | some l => assign f nested l v
  | none => pure ()

/-- What iteration over a value yields, unless its own methods decide. -/
def elements (v : TypeSet) : Eval TypeSet := return f.elementsIn (← get).state v

def fresh (node : NodeId) (kind : ObjKind) (contents : TypeSet) (part : Nat := 0) : Eval TypeSet := do
  let r := f.alloc node kind part
  writeSlot f r.elements contents
  return .single (.object r)

def giveUp (node : NodeId) (reason : TopReason) : Eval TypeSet := do
  flag node reason
  return .top

end Eval
end PointsTo

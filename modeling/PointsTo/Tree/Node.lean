import PointsTo.Fault
import PointsTo.Tree.Kind

/-! # Syntax trees

Nodes carry their number in preorder, a decoded kind, a span and their children. A tree is rooted at
a single module, or at a program whose children are its modules; beside the root it keeps the listing
of all nodes by number. The same nodes fill an arena, where children are numbers and spans lead back to
nodes. A node without a source position gets a span of its own. -/

namespace PointsTo

/-- A syntax node with everything below it. -/
structure Node where
  id : NodeId
  kind : Kind
  span : Span
  parent : Option NodeId
  children : List Node
deriving Inhabited

namespace Node

mutual

/-- The node and everything below it, parents first and siblings in order. -/
def preorder : Node → List Node
  | ⟨id, kind, span, parent, children⟩ => ⟨id, kind, span, parent, children⟩ :: preorderAll children

def preorderAll : List Node → List Node
  | [] => []
  | n :: rest => preorder n ++ preorderAll rest

end

mutual

/-- Numbers the nodes of a raw tree from `next` on and decodes their kinds. Returns the first number
not used. -/
def ofRaw (parent : Option NodeId) (next : NodeId) : RawNode → Node × NodeId
  | ⟨kind, children, span, attrs⟩ =>
    let (nodes, after) := ofRaws (some next) (next + 1) children
    (⟨next, Kind.ofRaw ⟨kind, children, span, attrs⟩, span.getD (Span.synthetic next), parent, nodes⟩,
      after)

def ofRaws (parent : Option NodeId) (next : NodeId) : List RawNode → List Node × NodeId
  | [] => ([], next)
  | raw :: rest =>
    let (node, next) := ofRaw parent next raw
    let (nodes, next) := ofRaws parent next rest
    (node :: nodes, next)

end

def child? (n : Node) (i : Nat) : Option Node := n.children[i]?

def childIds (n : Node) : List NodeId := n.children.map (·.id)

def isBlock (n : Node) : Bool := n.kind.word == "Block"

def childOfKind? (n : Node) (word : String) : Option Node := n.children.find? (·.kind.word == word)

def boundName (n : Node) : Option String := n.kind.boundName

end Node

structure Cell where
  id : NodeId
  kind : Kind
  span : Span
  parent : Option NodeId
  children : List NodeId
deriving Inhabited

/-- The nodes of a tree by number, and for each span the first node that carries it. -/
structure Arena where
  cells : Array Cell := #[]
  bySpan : Std.ExtTreeMap Span NodeId := ∅

namespace Arena

def push (a : Arena) (c : Cell) : Arena := ⟨a.cells.push c, a.bySpan.insertIfNew c.span c.id⟩

def link (a : Arena) (parent child : NodeId) : Arena :=
  { a with cells := a.cells.modify parent fun c => { c with children := c.children ++ [child] } }

mutual

/-- Adds the nodes of a raw tree. Each gets its cell before those below it, and then one child after the
other as these are added. -/
def adapt (a : Arena) (parent : Option NodeId) : RawNode → NodeId × Arena
  | ⟨kind, children, span, attrs⟩ =>
    let id := a.cells.size
    let kind := Kind.ofRaw ⟨kind, children, span, attrs⟩
    (id, adaptAll (a.push ⟨id, kind, span.getD (Span.synthetic id), parent, []⟩) id children)

def adaptAll (a : Arena) (parent : NodeId) : List RawNode → Arena
  | [] => a
  | raw :: rest =>
    let (child, a) := adapt a (some parent) raw
    adaptAll (a.link parent child) parent rest

end

def children (a : Arena) (id : NodeId) : List NodeId := (a.cells[id]?.map (·.children)).getD []

/-- The nodes on a stack and everything below them, in at most so many steps: each node is taken off the
stack and its children are put on it, the first of them on top. -/
def unstack (a : Arena) : Nat → List NodeId → List NodeId
  | 0, _ => []
  | _, [] => []
  | steps + 1, id :: stack => id :: unstack a steps (a.children id ++ stack)

end Arena

/-- A numbered tree with its modules by name, its nodes by number and its arena. -/
structure SyntaxTree where
  root : Node
  modules : List (String × Node)
  nodes : Array Node
  nodes_eq : nodes = root.preorder.toArray
  arena : Arena

namespace SyntaxTree

def mainModule : String := "<module>"

def ofRoot (root : Node) (modules : List (String × Node)) (arena : Arena) : SyntaxTree :=
  ⟨root, modules, root.preorder.toArray, rfl, arena⟩

/-- A tree of one module. Bad attributes below the root fail only the unit they stand in. -/
def ofModule (raw : RawNode) : Except Fault SyntaxTree :=
  if raw.kind != "Module" then
    .error (.malformedTree (raw.span.getD Span.zero)
      ("root must be a Module, found `" ++ raw.kind ++ "`"))
  else
    let root := (Node.ofRaw none 0 raw).1
    .ok (ofRoot root [(mainModule, root)] (Arena.adapt {} none raw).2)

def checkModule (seen : List String) (name : String) (raw : RawNode) : Except Fault Unit :=
  let span := raw.span.getD Span.zero
  if raw.kind != "Module" then
    .error (.malformedTree span ("module `" ++ name ++ "` must be a Module, found `" ++ raw.kind ++ "`"))
  else if name.isEmpty || seen.contains name then
    .error (.malformedTree span ("module name `" ++ name ++ "` is empty or used twice"))
  else .ok ()

def checkModules (seen : List String) : List (String × RawNode) → Except Fault Unit
  | [] => .ok ()
  | (name, raw) :: rest => do
    checkModule seen name raw
    checkModules (seen ++ [name]) rest

/-- A tree of several modules with distinct names under one root. -/
def ofModules (modules : List (String × RawNode)) : Except Fault SyntaxTree :=
  if modules.isEmpty then
    .error (.malformedTree Span.zero "a program needs at least one module")
  else do
    checkModules [] modules
    let nodes := (Node.ofRaws (some 0) 1 (modules.map (·.2))).1
    return ofRoot ⟨0, .program, Span.synthetic 0, none, nodes⟩ ((modules.map (·.1)).zip nodes)
      (Arena.adaptAll { cells := #[⟨0, .program, Span.synthetic 0, none, []⟩] } 0 (modules.map (·.2)))

def size (t : SyntaxTree) : Nat := t.nodes.size

def node? (t : SyntaxTree) (id : NodeId) : Option Node := t.nodes[id]?

/-- The node of that number; the root stands in for a number that names none. -/
def node (t : SyntaxTree) (id : NodeId) : Node := t.nodes[id]?.getD t.root

def kind (t : SyntaxTree) (id : NodeId) : Kind := (t.node id).kind

def span (t : SyntaxTree) (id : NodeId) : Span := (t.node id).span

def moduleNamed? (t : SyntaxTree) (name : String) : Option Node :=
  (t.modules.find? (·.1 == name)).map (·.2)

/-- The numbers of a node and of everything below it, in preorder. -/
def descendants (t : SyntaxTree) (id : NodeId) : List NodeId := t.arena.unstack t.arena.cells.size [id]

/-- The outermost node carrying a span. A program's root carries none. -/
def nodeAt? (t : SyntaxTree) (span : Span) : Option NodeId := t.arena.bySpan[span]?

end SyntaxTree
end PointsTo

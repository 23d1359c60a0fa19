import PointsTo.Tree.Raw

/-! # Building trees

Shorthand constructors, one per construct, that lay out children and attributes as each kind
expects them. -/

namespace PointsTo.Build

open RawNode

def module (body : List RawNode) : RawNode := (ofKind "Module").withChildren body

def block (stmts : List RawNode) : RawNode := (ofKind "Block").withChildren stmts

def name (id : String) : RawNode := (ofKind "Name").withAttr "name" (.str id)

def literal (kind : String) : RawNode := (ofKind "Literal").withAttr "literal" (.str kind)

def int : RawNode := literal "int"

def float : RawNode := literal "float"

def string : RawNode := literal "str"

def boolean : RawNode := literal "bool"

def none : RawNode := literal "None"

def assign (target value : RawNode) : RawNode := (ofKind "Assign").withChildren [target, value]

def augAssign (op : String) (target value : RawNode) : RawNode :=
  ((ofKind "AugAssign").withAttr "op" (.str op)).withChildren [target, value]

def expr (value : RawNode) : RawNode := (ofKind "Expr").withChild value

def pass : RawNode := ofKind "Pass"

def breakLoop : RawNode := ofKind "Break"

def continueLoop : RawNode := ofKind "Continue"

def ret (value : Option RawNode) : RawNode := (ofKind "Return").withChildren value.toList

def raise (exception : Option RawNode) : RawNode := (ofKind "Raise").withChildren exception.toList

/-- A conditional; an empty alternative is left out. -/
def ifElse (test : RawNode) (body orElse : List RawNode) : RawNode :=
  let node := (ofKind "If").withChildren [test, block body]
  if orElse.isEmpty then node else node.withChild (block orElse)

def whileLoop (test : RawNode) (body : List RawNode) : RawNode :=
  (ofKind "While").withChildren [test, block body]

def forLoop (target iterable : RawNode) (body : List RawNode) : RawNode :=
  (ofKind "For").withChildren [target, iterable, block body]

def param (name : String) : RawNode := (ofKind "Param").withAttr "name" (.str name)

def annotatedParam (name hint : String) : RawNode :=
  (param name).withAttr "annotation" (.str hint)

def arguments (params : List RawNode) : RawNode := (ofKind "Arguments").withChildren params

def functionWith (name : String) (params body : List RawNode) : RawNode :=
  ((ofKind "FunctionDef").withAttr "name" (.str name)).withChildren [arguments params, block body]

def function (name : String) (params : List String) (body : List RawNode) : RawNode :=
  functionWith name (params.map param) body

def classDef (name : String) (bases body : List RawNode) : RawNode :=
  ((ofKind "ClassDef").withAttr "name" (.str name)).withChildren (block body :: bases)

def lambda (params : List String) (body : RawNode) : RawNode :=
  (ofKind "Lambda").withChildren [arguments (params.map param), body]

def call (callee : RawNode) (args : List RawNode) : RawNode :=
  (ofKind "Call").withChildren (callee :: args)

def keyword (arg : String) (value : RawNode) : RawNode :=
  ((ofKind "Keyword").withAttr "arg" (.str arg)).withChild value

def attr (value : RawNode) (attr : String) : RawNode :=
  ((ofKind "Attribute").withAttr "attr" (.str attr)).withChild value

def methodCall (receiver : RawNode) (method : String) (args : List RawNode) : RawNode :=
  call (attr receiver method) args

def subscript (value index : RawNode) : RawNode := (ofKind "Subscript").withChildren [value, index]

def binary (op : String) (left right : RawNode) : RawNode :=
  ((ofKind "BinOp").withAttr "op" (.str op)).withChildren [left, right]

def unary (op : String) (operand : RawNode) : RawNode :=
  ((ofKind "UnaryOp").withAttr "op" (.str op)).withChild operand

def logical (op : String) (values : List RawNode) : RawNode :=
  ((ofKind "BoolOp").withAttr "op" (.str op)).withChildren values

def compare (op : String) (left right : RawNode) : RawNode :=
  ((ofKind "Compare").withAttr "ops" (.arr [.str op])).withChildren [left, right]

def conditional (test body orElse : RawNode) : RawNode :=
  (ofKind "IfExp").withChildren [test, body, orElse]

def list (elements : List RawNode) : RawNode := (ofKind "List").withChildren elements

def tuple (elements : List RawNode) : RawNode := (ofKind "Tuple").withChildren elements

def set (elements : List RawNode) : RawNode := (ofKind "Set").withChildren elements

def dict (pairs : List (RawNode × RawNode)) : RawNode :=
  (ofKind "Dict").withChildren (pairs.flatMap fun (k, v) => [k, v])

def comprehension (target iterable : RawNode) (conditions : List RawNode) : RawNode :=
  (ofKind "Comprehension").withChildren (target :: iterable :: conditions)

def listComp (element target iterable : RawNode) : RawNode :=
  (ofKind "ListComp").withChildren [element, comprehension target iterable []]

def dictComp (key value target iterable : RawNode) : RawNode :=
  (ofKind "DictComp").withChildren [key, value, comprehension target iterable []]

def namedExpr (target : String) (value : RawNode) : RawNode :=
  (ofKind "NamedExpr").withChildren [name target, value]

def yielding (value : Option RawNode) : RawNode := (ofKind "Yield").withChildren value.toList

def globalNames (names : List String) : RawNode :=
  (ofKind "Global").withAttr "names" (.arr (names.map .str))

def nonlocalNames (names : List String) : RawNode :=
  (ofKind "Nonlocal").withAttr "names" (.arr (names.map .str))

def importModule (module : String) (asName : Option String) : RawNode :=
  let item := (ofKind "Alias").withAttr "name" (.str module)
  (ofKind "Import").withChild (match asName with
    | some s => item.withAttr "asname" (.str s)
    | .none => item)

def importFrom (module : String) (names : List String) : RawNode :=
  ((ofKind "ImportFrom").withAttr "module" (.str module)).withChildren
    (names.map fun n => (ofKind "Alias").withAttr "name" (.str n))

def delete (targets : List RawNode) : RawNode := (ofKind "Delete").withChildren targets

def handler (type : Option RawNode) (bound : Option String) (body : List RawNode) : RawNode :=
  let node := match bound with
    | some s => (ofKind "ExceptHandler").withAttr "name" (.str s)
    | .none => ofKind "ExceptHandler"
  node.withChildren (type.toList ++ [block body])

/-- A guarded block; an empty alternative and an empty last part are left out. -/
def tryBlock (body handlers orElse last : List RawNode) : RawNode :=
  let node := (ofKind "Try").withChildren (block body :: handlers)
  let node := if orElse.isEmpty then node else node.withChild (block orElse)
  if last.isEmpty then node else node.withChild ((ofKind "Finally").withChildren last)

def withBlock (context : RawNode) (target : Option RawNode) (body : List RawNode) : RawNode :=
  (ofKind "With").withChildren
    [(ofKind "WithItem").withChildren (context :: target.toList), block body]

def assertion (test : RawNode) : RawNode := (ofKind "Assert").withChild test

end PointsTo.Build

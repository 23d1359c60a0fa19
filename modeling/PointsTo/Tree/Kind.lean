import PointsTo.Tree.Raw

/-! # Node kinds

What a node is, with the attributes its kind carries, decoded once from the raw node. The set of
kinds is closed: a kind of another name is `unsupported`, and a known one whose attributes cannot be
decoded is `malformed` with the defect found first.

Children stand in a fixed order: a function has its arguments and its block; a class its block and
its bases; an assignment its targets and then the value; a conditional or a loop its test, or its
target and iterable, then its block and perhaps a second one; a guarded block its block, handlers,
perhaps a second block and a last part; a handler perhaps a type, then its block; a call its callee
and arguments; a mapping its keys and values in turn; a comprehension its element (or key and value)
and then its clauses, each of a target, an iterable and conditions; a lambda its arguments and body.
-/

namespace PointsTo

inductive BinaryOp where
  | add | sub | mul | matMul | div | floorDiv | mod | pow | lShift | rShift | bitOr | bitXor | bitAnd
deriving DecidableEq, Inhabited, Repr

inductive UnaryOp where
  | not | invert | plus | minus
deriving DecidableEq, Inhabited, Repr

inductive LogicalOp where
  | and | or
deriving DecidableEq, Inhabited, Repr

inductive CompareOp where
  | eq | notEq | lt | le | gt | ge | is | isNot | isIn | notIn
deriving DecidableEq, Inhabited, Repr

inductive Literal where
  | int | float | complex | str | bytes | bool | none | ellipsis
deriving DecidableEq, Inhabited, Repr

inductive ParamKind where
  | positional | varArgs | kwArgs
deriving DecidableEq, Inhabited, Repr

inductive Defect where
  | missing (kind key : String)
  | noNames (kind : String)
  | binaryWord (word : String)
  | unaryWord (word : String)
  | logicalWord (word : String)
  | compareWord (word : String)
  | literalWord (word : String)
  | paramWord (word : String)
deriving DecidableEq, Inhabited, Repr

def Defect.message : Defect → String
  | .missing kind key => s!"`{kind}` node is missing its `{key}` attribute"
  | .noNames kind => s!"`{kind}` node needs a `names` list"
  | .binaryWord word => s!"unknown binary operator `{word}`"
  | .unaryWord word => s!"unknown unary operator `{word}`"
  | .logicalWord word => s!"unknown boolean operator `{word}`"
  | .compareWord word => s!"unknown comparison operator `{word}`"
  | .literalWord word => s!"unknown literal kind `{word}`"
  | .paramWord word => s!"unknown parameter kind `{word}`"

namespace BinaryOp

def ofWord : String → Except Defect BinaryOp
  | "Add" | "+" => .ok .add
  | "Sub" | "-" => .ok .sub
  | "Mult" | "Mul" | "*" => .ok .mul
  | "MatMult" | "MatMul" | "@" => .ok .matMul
  | "Div" | "/" => .ok .div
  | "FloorDiv" | "//" => .ok .floorDiv
  | "Mod" | "%" => .ok .mod
  | "Pow" | "**" => .ok .pow
  | "LShift" | "<<" => .ok .lShift
  | "RShift" | ">>" => .ok .rShift
  | "BitOr" | "|" => .ok .bitOr
  | "BitXor" | "^" => .ok .bitXor
  | "BitAnd" | "&" => .ok .bitAnd
  | word => .error (.binaryWord word)

def name : BinaryOp → String
  | .add => "Add"
  | .sub => "Sub"
  | .mul => "Mul"
  | .matMul => "MatMul"
  | .div => "Div"
  | .floorDiv => "FloorDiv"
  | .mod => "Mod"
  | .pow => "Pow"
  | .lShift => "LShift"
  | .rShift => "RShift"
  | .bitOr => "BitOr"
  | .bitXor => "BitXor"
  | .bitAnd => "BitAnd"

/-- The stem shared by the methods that implement the operator on classes. -/
def stem : BinaryOp → String
  | .add => "add"
  | .sub => "sub"
  | .mul => "mul"
  | .matMul => "matmul"
  | .div => "truediv"
  | .floorDiv => "floordiv"
  | .mod => "mod"
  | .pow => "pow"
  | .lShift => "lshift"
  | .rShift => "rshift"
  | .bitOr => "or"
  | .bitXor => "xor"
  | .bitAnd => "and"

def method (op : BinaryOp) : String := s!"__{op.stem}__"

def reflectedMethod (op : BinaryOp) : String := s!"__r{op.stem}__"

end BinaryOp

namespace UnaryOp

def ofWord : String → Except Defect UnaryOp
  | "Not" | "not" => .ok .not
  | "Invert" | "~" => .ok .invert
  | "UAdd" | "+" => .ok .plus
  | "USub" | "-" => .ok .minus
  | word => .error (.unaryWord word)

def name : UnaryOp → String
  | .not => "Not"
  | .invert => "Invert"
  | .plus => "UAdd"
  | .minus => "USub"

end UnaryOp

namespace LogicalOp

def ofWord : String → Except Defect LogicalOp
  | "And" | "and" => .ok .and
  | "Or" | "or" => .ok .or
  | word => .error (.logicalWord word)

def name : LogicalOp → String
  | .and => "And"
  | .or => "Or"

end LogicalOp

namespace CompareOp

def ofWord : String → Except Defect CompareOp
  | "Eq" | "==" => .ok .eq
  | "NotEq" | "!=" => .ok .notEq
  | "Lt" | "<" => .ok .lt
  | "LtE" | "<=" => .ok .le
  | "Gt" | ">" => .ok .gt
  | "GtE" | ">=" => .ok .ge
  | "Is" | "is" => .ok .is
  | "IsNot" | "is not" => .ok .isNot
  | "In" | "in" => .ok .isIn
  | "NotIn" | "not in" => .ok .notIn
  | word => .error (.compareWord word)

def name : CompareOp → String
  | .eq => "Eq"
  | .notEq => "NotEq"
  | .lt => "Lt"
  | .le => "LtE"
  | .gt => "Gt"
  | .ge => "GtE"
  | .is => "Is"
  | .isNot => "IsNot"
  | .isIn => "In"
  | .notIn => "NotIn"

end CompareOp

namespace Literal

def ofWord : String → Except Defect Literal
  | "int" | "Int" => .ok .int
  | "float" | "Float" => .ok .float
  | "complex" | "Complex" => .ok .complex
  | "str" | "Str" | "string" => .ok .str
  | "bytes" | "Bytes" => .ok .bytes
  | "bool" | "Bool" => .ok .bool
  | "none" | "None" => .ok .none
  | "ellipsis" | "Ellipsis" => .ok .ellipsis
  | word => .error (.literalWord word)

def name : Literal → String
  | .int => "Int"
  | .float => "Float"
  | .complex => "Complex"
  | .str => "Str"
  | .bytes => "Bytes"
  | .bool => "Bool"
  | .none => "None"
  | .ellipsis => "Ellipsis"

end Literal

namespace ParamKind

def name : ParamKind → String
  | .positional => "Positional"
  | .varArgs => "VarArgs"
  | .kwArgs => "KwArgs"

end ParamKind

inductive Kind where
  | program | module | block | last
  | functionDef (name : String)
  | classDef (name : String)
  | arguments
  | param (name : String) (hint : Option String) (kind : ParamKind)
  | lambda
  | ret | assign
  | augAssign (op : BinaryOp)
  | annAssign (hint : Option String)
  | delete | ifElse | whileLoop | forLoop | breakLoop | continueLoop | pass | exprStmt | raise
  | tryBlock
  | handler (name : Option String)
  | withBlock | withItem | assertion
  | globalNames (names : List String)
  | nonlocalNames (names : List String)
  | importModules
  | importFrom (module : String)
  | alias (name : String) (asName : Option String)
  | name (name : String)
  | literal (literal : Literal)
  | binary (op : BinaryOp)
  | unary (op : UnaryOp)
  | logical (op : LogicalOp)
  | compare (ops : List CompareOp)
  | call
  | keyword (arg : Option String)
  | starred
  | attribute (attr : String)
  | subscript | slice | list | tuple | set | dict
  | listComp | setComp | dictComp | generatorExp | comprehension
  | conditional | joinedStr | formattedValue | yielding | yieldFrom | await | namedExpr
  | unsupported (kind : String)
  | malformed (kind : String) (defect : Defect)
deriving DecidableEq, Inhabited, Repr

namespace Kind

def isFunctionDef : Kind → Bool
  | .functionDef _ => true
  | _ => false

/-- Whether an assignment target of this kind is bound or taken apart, and never read as a value. -/
def isPattern : Kind → Bool
  | .name _ | .tuple | .list | .starred | .attribute _ | .subscript => true
  | _ => false

def word : Kind → String
  | .program => "Program"
  | .module => "Module"
  | .block => "Block"
  | .last => "Finally"
  | .functionDef _ => "FunctionDef"
  | .classDef _ => "ClassDef"
  | .arguments => "Arguments"
  | .param _ _ _ => "Param"
  | .lambda => "Lambda"
  | .ret => "Return"
  | .assign => "Assign"
  | .augAssign _ => "AugAssign"
  | .annAssign _ => "AnnAssign"
  | .delete => "Delete"
  | .ifElse => "If"
  | .whileLoop => "While"
  | .forLoop => "For"
  | .breakLoop => "Break"
  | .continueLoop => "Continue"
  | .pass => "Pass"
  | .exprStmt => "Expr"
  | .raise => "Raise"
  | .tryBlock => "Try"
  | .handler _ => "ExceptHandler"
  | .withBlock => "With"
  | .withItem => "WithItem"
  | .assertion => "Assert"
  | .globalNames _ => "Global"
  | .nonlocalNames _ => "Nonlocal"
  | .importModules => "Import"
  | .importFrom _ => "ImportFrom"
  | .alias _ _ => "Alias"
  | .name _ => "Name"
  | .literal _ => "Literal"
  | .binary _ => "BinOp"
  | .unary _ => "UnaryOp"
  | .logical _ => "BoolOp"
  | .compare _ => "Compare"
  | .call => "Call"
  | .keyword _ => "Keyword"
  | .starred => "Starred"
  | .attribute _ => "Attribute"
  | .subscript => "Subscript"
  | .slice => "Slice"
  | .list => "List"
  | .tuple => "Tuple"
  | .set => "Set"
  | .dict => "Dict"
  | .listComp => "ListComp"
  | .setComp => "SetComp"
  | .dictComp => "DictComp"
  | .generatorExp => "GeneratorExp"
  | .comprehension => "Comprehension"
  | .conditional => "IfExp"
  | .joinedStr => "JoinedStr"
  | .formattedValue => "FormattedValue"
  | .yielding => "Yield"
  | .yieldFrom => "YieldFrom"
  | .await => "Await"
  | .namedExpr => "NamedExpr"
  | .unsupported kind => kind
  | .malformed kind _ => kind

def isComprehension : Kind → Bool
  | .listComp | .setComp | .dictComp | .generatorExp => true
  | _ => false

def opensScope : Kind → Bool
  | .module | .functionDef _ | .classDef _ | .lambda => true
  | k => k.isComprehension

/-- Statements after which control may go somewhere else than the next statement. -/
def transfersControl : Kind → Bool
  | .ifElse | .whileLoop | .forLoop | .tryBlock | .withBlock | .ret | .raise | .breakLoop
  | .continueLoop | .assertion => true
  | _ => false

/-- Expressions whose evaluation does more than produce a value. -/
def hasSideEffect : Kind → Bool
  | .call | .namedExpr | .yielding | .yieldFrom | .await => true
  | _ => false

def firstPart (name : String) : String := String.ofList (name.toList.takeWhile (· != '.'))

def boundName : Kind → Option String
  | .name n | .param n _ _ | .functionDef n | .classDef n => some n
  | .handler n => n
  | .alias n asName => some (asName.getD (firstPart n))
  | _ => none

def required (raw : RawNode) (key : String) : Except Defect String :=
  match raw.attrStr? key with
  | some s => .ok s
  | none => .error (.missing raw.kind key)

def paramKind (raw : RawNode) : Except Defect ParamKind :=
  match raw.attrStr? "variadic" with
  | none => .ok .positional
  | some "args" => .ok .varArgs
  | some "kwargs" => .ok .kwArgs
  | some other => .error (.paramWord other)

/-- The comparison operators, given as a list or as a single word. -/
def compareWords (raw : RawNode) : Except Defect (List String) :=
  match raw.attrStrings? "ops" with
  | some ops => .ok ops
  | none => do return [← required raw "op"]

def declaredNames (raw : RawNode) : Except Defect (List String) :=
  match raw.attrStrings? "names" with
  | some names => .ok names
  | none => .error (.noNames raw.kind)

/-- The kind a raw node stands for, or the first defect of its attributes. -/
def decode (raw : RawNode) : Except Defect Kind :=
  match raw.kind with
  | "Module" => .ok .module
  | "Block" => .ok .block
  | "Finally" => .ok .last
  | "FunctionDef" | "AsyncFunctionDef" => do return .functionDef (← required raw "name")
  | "ClassDef" => do return .classDef (← required raw "name")
  | "Arguments" => .ok .arguments
  | "Param" => do
    return .param (← required raw "name") (raw.attrStr? "annotation") (← paramKind raw)
  | "Lambda" => .ok .lambda
  | "Return" => .ok .ret
  | "Assign" => .ok .assign
  | "AugAssign" => do return .augAssign (← BinaryOp.ofWord (← required raw "op"))
  | "AnnAssign" => .ok (.annAssign (raw.attrStr? "annotation"))
  | "Delete" => .ok .delete
  | "If" => .ok .ifElse
  | "While" => .ok .whileLoop
  | "For" | "AsyncFor" => .ok .forLoop
  | "Break" => .ok .breakLoop
  | "Continue" => .ok .continueLoop
  | "Pass" => .ok .pass
  | "Expr" | "ExprStmt" => .ok .exprStmt
  | "Raise" => .ok .raise
  | "Try" => .ok .tryBlock
  | "ExceptHandler" => .ok (.handler (raw.attrStr? "name"))
  | "With" | "AsyncWith" => .ok .withBlock
  | "WithItem" => .ok .withItem
  | "Assert" => .ok .assertion
  | "Global" => do return .globalNames (← declaredNames raw)
  | "Nonlocal" => do return .nonlocalNames (← declaredNames raw)
  | "Import" => .ok .importModules
  | "ImportFrom" => .ok (.importFrom ((raw.attrStr? "module").getD ""))
  | "Alias" => do return .alias (← required raw "name") (raw.attrStr? "asname")
  | "Name" => do return .name (← required raw "name")
  | "Literal" | "Constant" => do return .literal (← Literal.ofWord (← required raw "literal"))
  | "BinOp" => do return .binary (← BinaryOp.ofWord (← required raw "op"))
  | "UnaryOp" => do return .unary (← UnaryOp.ofWord (← required raw "op"))
  | "BoolOp" => do return .logical (← LogicalOp.ofWord (← required raw "op"))
  | "Compare" => do return .compare (← (← compareWords raw).mapM CompareOp.ofWord)
  | "Call" => .ok .call
  | "Keyword" => .ok (.keyword (raw.attrStr? "arg"))
  | "Starred" => .ok .starred
  | "Attribute" => do return .attribute (← required raw "attr")
  | "Subscript" => .ok .subscript
  | "Slice" => .ok .slice
  | "List" => .ok .list
  | "Tuple" => .ok .tuple
  | "Set" => .ok .set
  | "Dict" => .ok .dict
  | "ListComp" => .ok .listComp
  | "SetComp" => .ok .setComp
  | "DictComp" => .ok .dictComp
  | "GeneratorExp" => .ok .generatorExp
  | "Comprehension" => .ok .comprehension
  | "IfExp" => .ok .conditional
  | "JoinedStr" => .ok .joinedStr
  | "FormattedValue" => .ok .formattedValue
  | "Yield" => .ok .yielding
  | "YieldFrom" => .ok .yieldFrom
  | "Await" => .ok .await
  | "NamedExpr" => .ok .namedExpr
  | other => .ok (.unsupported other)

def ofRaw (raw : RawNode) : Kind :=
  match decode raw with
  | .ok kind => kind
  | .error defect => .malformed raw.kind defect

end Kind
end PointsTo

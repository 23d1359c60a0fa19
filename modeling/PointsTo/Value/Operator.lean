import PointsTo.Tree.Kind
import PointsTo.Value.TypeSet

/-! # Operators on tags

What an operator makes of one tag, or of one pair of tags. Numbers are ranked bool, int, float,
complex, and an operation on two of them goes by the higher rank. -/

namespace PointsTo

inductive Outcome where
  | tags (value : TypeSet)
  /-- A fresh container with the elements of both operands. -/
  | concat (kind : ObjKind)
  /-- A fresh container with the elements of this operand. -/
  | repeated (ref : HeapRef)
  /-- Left to a method of a class. -/
  | method (cls : ClassId) (name : String)
  /-- The operation fails and contributes nothing. -/
  | raises
deriving DecidableEq

namespace Outcome

def single (t : TypeTag) : Outcome := .tags (.single t)

end Outcome

namespace TypeTag

def numericRank? : TypeTag → Option Nat
  | .bool => some 0
  | .int => some 1
  | .float => some 2
  | .complex => some 3
  | _ => .none

def ofNumericRank : Nat → TypeTag
  | 0 => .bool
  | 1 => .int
  | 2 => .float
  | _ => .complex

def isIntegral (t : TypeTag) : Bool := t == .int || t == .bool

def ofLiteral : Literal → TypeTag
  | .int => .int
  | .float => .float
  | .complex => .complex
  | .str => .str
  | .bytes => .bytes
  | .bool => .bool
  | .none => .none
  | .ellipsis => .ellipsis

def numericOutcome (op : BinaryOp) (left right : TypeTag) (rank : Nat) : Outcome :=
  match op with
  | .add | .sub | .mul => .single (ofNumericRank (max rank 1))
  | .div => .single (ofNumericRank (max rank 2))
  | .floorDiv | .mod => if rank < 3 then .single (ofNumericRank (max rank 1)) else .raises
  | .pow =>
    if rank ≤ 1 then .tags (.ofList [.int, .float]) else .tags (.ofList [ofNumericRank rank, .complex])
  | .bitAnd | .bitOr | .bitXor =>
    if rank == 0 then .single .bool
    else if left.isIntegral && right.isIntegral then .single .int else .raises
  | .lShift | .rShift => if left.isIntegral && right.isIntegral then .single .int else .raises
  | .matMul => .raises

def containerOutcome (op : BinaryOp) (left right : ObjKind) : Outcome :=
  match op, left, right with
  | .add, .list, .list => .concat .list
  | .add, .tuple, .tuple => .concat .tuple
  | .bitOr, .set, .set | .bitAnd, .set, .set | .sub, .set, .set | .bitXor, .set, .set => .concat .set
  | .bitOr, .dict, .dict => .concat .dict
  | _, _, _ => .raises

def repetition (many count : TypeTag) : Option Outcome :=
  if !count.isIntegral then .none
  else match many with
    | .str => some (.single .str)
    | .bytes => some (.single .bytes)
    | .object ⟨site, .list⟩ => some (.repeated ⟨site, .list⟩)
    | .object ⟨site, .tuple⟩ => some (.repeated ⟨site, .tuple⟩)
    | _ => .none

/-- An operation on tags that are neither instances nor both numbers. -/
def plainOutcome (op : BinaryOp) (left right : TypeTag) : Outcome :=
  match op, left, right with
  | _, .object l, .object r => containerOutcome op l.kind r.kind
  | .add, .str, .str => .single .str
  | .add, .bytes, .bytes => .single .bytes
  | .mod, .str, _ => .single .str
  | .mod, .bytes, _ => .single .bytes
  | .mul, l, r => ((repetition l r).or (repetition r l)).getD .raises
  | _, _, _ => .raises

/-- A binary operation. An instance on the left decides by its own method, one on the right by the
reflected method. -/
def binary (op : BinaryOp) (left right : TypeTag) : Outcome :=
  match left.instanceOf?, right.instanceOf? with
  | some c, _ => .method c op.method
  | .none, some c => .method c op.reflectedMethod
  | .none, .none =>
    match left.numericRank?, right.numericRank? with
    | some l, some r => numericOutcome op left right (max l r)
    | _, _ => plainOutcome op left right

def unaryMethod : UnaryOp → String
  | .minus => "__neg__"
  | .plus => "__pos__"
  | _ => "__invert__"

/-- A unary operation. Negation of truth always gives a truth value. -/
def unary (op : UnaryOp) (operand : TypeTag) : Outcome :=
  if op == .not then .single .bool
  else match operand.instanceOf?, op, operand.numericRank? with
    | some c, _, _ => .method c (unaryMethod op)
    | .none, .invert, some rank => if rank ≤ 1 then .single .int else .raises
    | .none, _, some rank => .single (ofNumericRank (max rank 1))
    | .none, _, .none => .raises

end TypeTag

def TypeSet.ofScalarName? : String → Option TypeSet
  | "int" => some (.ofList [.int, .bool])
  | "float" => some (.ofList [.float, .int, .bool])
  | "complex" => some (.ofList [.complex, .float, .int])
  | "str" => some (.single .str)
  | "bytes" => some (.single .bytes)
  | "bool" => some (.single .bool)
  | "None" | "NoneType" => some (.single .none)
  | "Any" | "object" => some .top
  | _ => none

end PointsTo

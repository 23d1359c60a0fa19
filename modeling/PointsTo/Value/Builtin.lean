import PointsTo.Value.TypeSet

/-! # Builtins

What is known of the names that every module sees: how a call to one computes its result, which of
them are plain values, and what methods of scalar receivers return. -/

namespace PointsTo

inductive BuiltinCall where
  | returns (value : TypeSet)
  /-- One of the arguments comes back. -/
  | sameAsArgs
  /-- An element of the first argument, or one of several arguments. -/
  | elementOfFirst
  /-- The sum of the elements of the first argument. -/
  | sum
  /-- A new container with the elements of the first argument. -/
  | collect (kind : ObjKind)
  /-- A new mapping from a mapping, from pairs or from keywords. -/
  | dict
  | range | enumerate | zip | map | filter
  /-- An iterator over the elements of the first argument. -/
  | iter
  /-- A fresh object of a builtin type without tracked contents. -/
  | inst (name : String)
  | typeOf
  /-- Reflection that is not modelled. -/
  | reflection
deriving DecidableEq

namespace Builtin

def exceptions : List String :=
  ["BaseException", "Exception", "ArithmeticError", "AssertionError", "AttributeError", "EOFError",
    "FileNotFoundError", "GeneratorExit", "ImportError", "IndexError", "IOError", "KeyError",
    "KeyboardInterrupt", "LookupError", "ModuleNotFoundError", "NameError", "NotImplementedError",
    "OSError", "OverflowError", "PermissionError", "RecursionError", "RuntimeError", "StopIteration",
    "SystemExit", "TimeoutError", "TypeError", "UnicodeDecodeError", "UnicodeEncodeError",
    "ValueError", "ZeroDivisionError"]

def call? : String → Option BuiltinCall
  | "len" | "hash" | "id" | "ord" | "int" => some (.returns (.single .int))
  | "float" => some (.returns (.single .float))
  | "complex" => some (.returns (.single .complex))
  | "bool" | "isinstance" | "issubclass" | "callable" | "hasattr" | "all" | "any" =>
    some (.returns (.single .bool))
  | "str" | "repr" | "chr" | "input" | "format" | "hex" | "oct" | "bin" | "ascii" =>
    some (.returns (.single .str))
  | "bytes" => some (.returns (.single .bytes))
  | "print" | "setattr" | "delattr" => some (.returns (.single .none))
  | "round" => some (.returns (.ofList [.int, .float]))
  | "divmod" => some (.collect .tuple)
  | "abs" | "pow" => some .sameAsArgs
  | "min" | "max" | "next" => some .elementOfFirst
  | "sum" => some .sum
  | "list" | "sorted" => some (.collect .list)
  | "tuple" => some (.collect .tuple)
  | "set" | "frozenset" => some (.collect .set)
  | "reversed" => some (.collect (.builtin "reversed"))
  | "dict" => some .dict
  | "range" => some .range
  | "enumerate" => some .enumerate
  | "zip" => some .zip
  | "map" => some .map
  | "filter" => some .filter
  | "iter" => some .iter
  | "open" => some (.inst "file")
  | "object" => some (.inst "object")
  | "bytearray" => some (.inst "bytearray")
  | "type" => some .typeOf
  | "getattr" | "super" | "eval" | "exec" | "vars" | "globals" | "locals" | "__import__"
  | "property" | "staticmethod" | "classmethod" => some .reflection
  | other => if exceptions.contains other then some (.inst other) else none

def constant? : String → Option TypeSet
  | "__name__" | "__file__" | "__doc__" | "__qualname__" | "__module__" => some (.single .str)
  | "__debug__" => some (.single .bool)
  | "NotImplemented" => some (.single (.builtin "NotImplemented"))
  | _ => none

def isBuiltin (name : String) : Bool := (call? name).isSome || (constant? name).isSome

end Builtin

inductive ScalarMethod where
  | returns (value : TypeSet)
  | listOf (elements : TypeSet)
  | tupleOf (elements : TypeSet)
deriving DecidableEq

namespace ScalarMethod

def ofText? (self : TypeTag) : String → Option ScalarMethod
  | "find" | "rfind" | "index" | "rindex" | "count" => some (.returns (.single .int))
  | "startswith" | "endswith" | "isalpha" | "isdigit" | "isalnum" | "isspace" | "isupper"
  | "islower" | "isnumeric" | "isdecimal" | "isidentifier" | "istitle" =>
    some (.returns (.single .bool))
  | "upper" | "lower" | "strip" | "replace" | "join" => some (.returns (.single self))
  | "split" => some (.listOf (.single self))
  | _ => none

def ofStr? : String → Option ScalarMethod
  | "lstrip" | "rstrip" | "title" | "capitalize" | "casefold" | "swapcase" | "format" | "center"
  | "ljust" | "rjust" | "zfill" | "expandtabs" | "removeprefix" | "removesuffix" | "translate" =>
    some (.returns (.single .str))
  | "rsplit" | "splitlines" => some (.listOf (.single .str))
  | "partition" | "rpartition" => some (.tupleOf (.single .str))
  | "encode" => some (.returns (.single .bytes))
  | name => ofText? .str name

def ofBytes? : String → Option ScalarMethod
  | "decode" | "hex" => some (.returns (.single .str))
  | name => ofText? .bytes name

def ofIntegral? : String → Option ScalarMethod
  | "bit_length" | "bit_count" => some (.returns (.single .int))
  | "to_bytes" => some (.returns (.single .bytes))
  | _ => none

def ofFloat? : String → Option ScalarMethod
  | "is_integer" => some (.returns (.single .bool))
  | "hex" => some (.returns (.single .str))
  | "conjugate" => some (.returns (.single .float))
  | _ => none

def lookup? (receiver : TypeTag) (name : String) : Option ScalarMethod :=
  match receiver with
  | .str => ofStr? name
  | .bytes => ofBytes? name
  | .int => if name == "conjugate" then some (.returns (.single .int)) else ofIntegral? name
  | .bool => ofIntegral? name
  | .float => ofFloat? name
  | .complex => if name == "conjugate" then some (.returns (.single .complex)) else none
  | _ => none

end ScalarMethod
end PointsTo

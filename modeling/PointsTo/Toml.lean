/-! # TOML values

A document is a table. Of floats and times only the text is kept. -/

namespace PointsTo

/-- A TOML value. The keys of a table are distinct. -/
inductive Toml where
  | str (value : String)
  | int (value : Int)
  | bool (value : Bool)
  | float (literal : String)
  | time (literal : String)
  | arr (items : List Toml)
  | table (entries : List (String × Toml))
deriving Inhabited, Repr

namespace Toml

/-- Arrays and inline tables may be nested so deep, and keys may have so many parts. -/
def maxDepth : Nat := 79

end Toml
end PointsTo

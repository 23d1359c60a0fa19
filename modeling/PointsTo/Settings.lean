import PointsTo.Fault

/-! # Settings

How much work a run may spend and how it treats doubtful cases. Every field has a default, so a
partial document is enough. A document is an object of named fields, or an array of them in
declaration order that may be cut short. The clock that a time limit is held against is not part of
any document: a run meets it. -/

namespace PointsTo

inductive UnsupportedPolicy where
  | conservativeTop | failUnit
deriving DecidableEq, Inhabited, Repr

inductive Granularity where
  | perSpan | perCall
deriving DecidableEq, Inhabited, Repr

inductive WorklistOrder where
  | reversePostorder | fifo | lifo
deriving DecidableEq, Inhabited, Repr

/-- Which solve of a unit: the round over the program, and the pass over its component. -/
structure Turn where
  round : Nat
  pass : Nat

structure Settings where
  maxIterations : Nat := 10000
  maxDurationMs : Option Nat := none
  unsupported : UnsupportedPolicy := .conservativeTop
  granularity : Granularity := .perSpan
  order : WorklistOrder := .reversePostorder
  /-- Rounds allowed for a recursive group and for the whole program. -/
  maxRounds : Nat := 16
  /-- Whether independent units may be solved side by side; no answer depends on it. -/
  parallel : Bool := true
  /-- The milliseconds that a solve of a unit has taken before its next visit, by the visits so far. -/
  clock : Turn → UnitId → Nat → Nat := fun _ _ _ => 0
deriving Inhabited

namespace UnsupportedPolicy

def word : UnsupportedPolicy → String
  | .conservativeTop => "conservative-top"
  | .failUnit => "fail-unit"

def ofWord? : String → Option UnsupportedPolicy
  | "conservative-top" => some .conservativeTop
  | "fail-unit" => some .failUnit
  | _ => none

end UnsupportedPolicy

namespace Granularity

def word : Granularity → String
  | .perSpan => "per-source-span"
  | .perCall => "per-call"

def ofWord? : String → Option Granularity
  | "per-source-span" => some .perSpan
  | "per-call" => some .perCall
  | _ => none

end Granularity

namespace WorklistOrder

def word : WorklistOrder → String
  | .reversePostorder => "reverse-postorder"
  | .fifo => "fifo"
  | .lifo => "lifo"

def ofWord? : String → Option WorklistOrder
  | "reverse-postorder" => some .reversePostorder
  | "fifo" => some .fifo
  | "lifo" => some .lifo
  | _ => none

end WorklistOrder

namespace Settings

def word64? : Json → Option Nat := Json.natBelow? 0x10000000000000000

/-- A choice: its word, or an object with the word as its only key and `null` under it. -/
def choice? {α : Type} (ofWord? : String → Option α) : Json → Option α
  | .str s => ofWord? s
  | .obj [(s, .null)] => ofWord? s
  | _ => none

def fieldNames : List String :=
  ["max_iterations", "max_duration_ms", "unsupported_kind_policy", "allocation_site_granularity",
    "worklist_order", "max_rounds", "parallel"]

/-- Sets the field of that name; a name that is no field changes nothing. -/
def set? (s : Settings) (field : String) (value : Json) : Option Settings :=
  match field with
  | "max_iterations" => do some { s with maxIterations := ← word64? value }
  | "max_duration_ms" => match value with
    | .null => some { s with maxDurationMs := none }
    | value => do some { s with maxDurationMs := some (← word64? value) }
  | "unsupported_kind_policy" => do
    some { s with unsupported := ← choice? UnsupportedPolicy.ofWord? value }
  | "allocation_site_granularity" => do
    some { s with granularity := ← choice? Granularity.ofWord? value }
  | "worklist_order" => do some { s with order := ← choice? WorklistOrder.ofWord? value }
  | "max_rounds" => do some { s with maxRounds := ← word64? value }
  | "parallel" => do some { s with parallel := ← value.bool? }
  | _ => some s

def setAll? (s : Settings) : List (String × Json) → Option Settings
  | [] => some s
  | (field, value) :: rest => do setAll? (← s.set? field value) rest

def fieldsOnce (fields : List (String × Json)) : Bool :=
  fieldNames.all fun name => (Json.valuesOf fields name).length ≤ 1

def ofJson? : Json → Option Settings
  | .obj fields => if fieldsOnce fields then setAll? {} fields else none
  | .arr items => if items.length ≤ fieldNames.length then setAll? {} (fieldNames.zip items) else none
  | _ => none

def notDecodable : String := "the document cannot be decoded"

/-- A run needs at least one visit and one round. -/
def check (s : Settings) : Except Fault Unit :=
  if s.maxIterations == 0 then .error (.settings "max_iterations must be at least 1")
  else if s.maxRounds == 0 then .error (.settings "max_rounds must be at least 1")
  else .ok ()

def accept : Option Settings → Except Fault Settings
  | none => .error (.settings notDecodable)
  | some s => do s.check; return s

def toJson (s : Settings) : Json :=
  .obj [("max_iterations", .ofNat s.maxIterations),
    ("max_duration_ms", .ofOption .ofNat s.maxDurationMs),
    ("unsupported_kind_policy", .str s.unsupported.word),
    ("allocation_site_granularity", .str s.granularity.word),
    ("worklist_order", .str s.order.word), ("max_rounds", .ofNat s.maxRounds),
    ("parallel", .bool s.parallel)]

/-- Settings from JSON text. What stands under a name that is no field is passed over. -/
def ofJsonText (text : String) : Except Fault Settings :=
  accept ((Json.parse? (.record fieldNames) Json.maxDepth text).bind ofJson?)

end Settings
end PointsTo

import PointsTo.Tree.Raw

/-! # Faults and diagnostics

A fault is why something could not be done; its wording is `Fault.message`. Only a bad input or bad
settings end a run. Everything else belongs to one unit and is reported as a diagnostic. -/

namespace PointsTo

inductive Fault where
  | malformedTree (span : Span) (reason : String)
  | unsupported (kind : String) (span : Span)
  | unconverged (unit : String) (visits : Nat)
  | timeout (unit : String) (visits : Nat)
  | unresolved (name : String) (span : Span)
  | settings (reason : String)
  | unreadable (path reason : String)
  | undecodable (reason : String)
deriving DecidableEq, Inhabited, Repr

inductive Topic where
  | malformedTree | unsupported | unconverged | timeout | unresolved | unreachable | irreducible
  | mroConflict | settings
deriving DecidableEq, Inhabited, Repr

inductive Severity where
  | note | warning | error
deriving DecidableEq, Inhabited, Repr

/-- A problem found on the way, perhaps at a span and in a unit. -/
structure Diagnostic where
  topic : Topic
  severity : Severity
  span : Option Span
  unit : Option String
  message : String
deriving DecidableEq, Inhabited, Repr

namespace Topic

def word : Topic → String
  | .malformedTree => "malformed-tree"
  | .unsupported => "unsupported-construct"
  | .unconverged => "unconverged"
  | .timeout => "timeout"
  | .unresolved => "scope-resolution-failure"
  | .unreachable => "unreachable-code"
  | .irreducible => "irreducible-flow"
  | .mroConflict => "mro-conflict"
  | .settings => "configuration"

def severity : Topic → Severity
  | .malformedTree | .settings => .error
  | .unsupported | .unconverged | .timeout | .unresolved | .mroConflict => .warning
  | .unreachable | .irreducible => .note

end Topic

namespace Severity

def word : Severity → String
  | .note => "note"
  | .warning => "warning"
  | .error => "error"

end Severity

namespace Fault

def message : Fault → String
  | .malformedTree span reason =>
    let place := span.render
    s!"malformed tree at {place}: {reason}"
  | .unsupported kind span =>
    let place := span.render
    s!"unsupported construct `{kind}` at {place}"
  | .unconverged unit visits => s!"`{unit}` did not reach a fixed point within {visits} iterations"
  | .timeout unit visits => s!"`{unit}` ran out of time after {visits} iterations"
  | .unresolved name span =>
    let place := span.render
    s!"cannot resolve name `{name}` at {place}"
  | .settings reason => s!"invalid configuration: {reason}"
  | .unreadable path reason => s!"cannot read {path}: {reason}"
  | .undecodable reason => s!"invalid syntax tree: {reason}"

def topic : Fault → Topic
  | .malformedTree _ _ | .undecodable _ => .malformedTree
  | .unsupported _ _ => .unsupported
  | .unconverged _ _ => .unconverged
  | .timeout _ _ => .timeout
  | .unresolved _ _ => .unresolved
  | .settings _ | .unreadable _ _ => .settings

def span : Fault → Option Span
  | .malformedTree span _ | .unsupported _ span | .unresolved _ span => some span
  | _ => none

end Fault

namespace Diagnostic

def ofTopic (topic : Topic) (span : Option Span) (message : String) : Diagnostic :=
  ⟨topic, topic.severity, span, none, message⟩

def ofFault (fault : Fault) : Diagnostic := ofTopic fault.topic fault.span fault.message

def inUnit (d : Diagnostic) (unit : String) : Diagnostic := { d with unit := some unit }

def withSeverity (d : Diagnostic) (severity : Severity) : Diagnostic := { d with severity }

def render (d : Diagnostic) : String :=
  let place := match d.span with
    | some span => " [" ++ span.render ++ "]"
    | none => ""
  let owner := match d.unit with
    | some unit => s!" in `{unit}`"
    | none => ""
  d.severity.word ++ place ++ owner ++ ": " ++ d.message

/-- The diagnostic as an object; a missing span or unit is left out. -/
def toJson (d : Diagnostic) : Json :=
  .obj ([("kind", .str d.topic.word), ("severity", .str d.severity.word)]
    ++ (match d.span with
      | some span => [("span", span.toJson)]
      | none => [])
    ++ (match d.unit with
      | some unit => [("unit", .str unit)]
      | none => [])
    ++ [("message", .str d.message)])

end Diagnostic
end PointsTo

import PointsTo.Json.Writer
import PointsTo.Settings
import PointsTo.Toml.Reader

/-! # Settings as TOML

A document with the fields of the settings as its keys. Other keys are passed over. -/

namespace PointsTo.Settings

/-- A value as a field takes it. A choice may be a table with the word as its only key and nothing
under it; what is neither a choice, an integer nor a truth value fits no field. -/
def ofToml : Toml → Json
  | .str s => .str s
  | .int n => .int n
  | .bool b => .bool b
  | .table [(word, .table [])] | .table [(word, .arr [])] => .obj [(word, .null)]
  | _ => .arr []

def ofTomlText (text : String) : Except Fault Settings :=
  accept (do setAll? {} ((← Toml.parse? text).map fun (key, value) => (key, ofToml value)))

/-- The part of a file's name after its last dot; a dot in front does not count. -/
def extension? (path : String) : Option String :=
  let name := (path.splitOn "/").getLastD ""
  match name.splitOn "." with
  | [] | [_] => none
  | ["", _] => none
  | parts => parts.getLast?

/-- Settings from a file: TOML if its extension says so, JSON otherwise. -/
def ofFile (path text : String) : Except Fault Settings :=
  if extension? path == some "toml" then ofTomlText text else ofJsonText text

/-- The settings in TOML, field by field; an unset duration is left out. -/
def toToml (s : Settings) : String :=
  let entry := fun (key value : String) => key ++ " = " ++ value ++ "\n"
  entry "max_iterations" (toString s.maxIterations)
  ++ (match s.maxDurationMs with
    | some ms => entry "max_duration_ms" (toString ms)
    | none => "")
  ++ entry "unsupported_kind_policy" (Json.quote s.unsupported.word)
  ++ entry "allocation_site_granularity" (Json.quote s.granularity.word)
  ++ entry "worklist_order" (Json.quote s.order.word)
  ++ entry "max_rounds" (toString s.maxRounds)
  ++ entry "parallel" (if s.parallel then "true" else "false")

end PointsTo.Settings

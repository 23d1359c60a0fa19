import PointsTo.CommandLine.Arguments
import PointsTo.Report
import PointsTo.Settings.Toml

/-! # Commands

What every command prints and how it ends, given the texts of the files it names. -/

namespace PointsTo.CommandLine

structure Sources where
  file? : String → Option String
  input? : Option String

structure Response where
  status : Nat := 0
  output : String := ""
  message : Option String := none
deriving DecidableEq, Inhabited, Repr

namespace Response

def failure (message : String) : Response := { status := 1, message := some message }

def usage : Response := { status := 2 }

def ofExcept : Except String Response → Response
  | .ok r => r
  | .error message => failure message

end Response

/-- Names what was going on when something failed. -/
def during {ε α : Type} (what : String) (result : Except ε α) : Except String α := result.mapError fun _ => what

def expect {α : Type} (what : String) : Option α → Except String α
  | some a => .ok a
  | none => .error what

section Loading

variable (sources : Sources)

def loadSettings : Option String → Except String Settings
  | none => .ok {}
  | some path => do
    let what := "invalid configuration in " ++ path
    during what (Settings.ofFile path (← expect what (sources.file? path)))

def readInput (path : String) : Except String String :=
  if path = "-" then expect "failed to read syntax tree from stdin" sources.input?
  else expect ("failed to read " ++ path) (sources.file? path)

/-- The name of a file without its extension; a dot in front starts none. -/
def stem (path : String) : String :=
  let name := ((path.splitOn "/").filter (· != "")).getLastD ""
  match name.splitOn "." with
  | [] | [_] | ["", _] => name
  | parts => ".".intercalate parts.dropLast

def decodeRaw (path text : String) : Except String RawNode :=
  expect ("cannot decode " ++ path) (RawNode.parse? text)

def loadModule (path : String) : Except String (String × RawNode) := do
  if path = "-" then .error "stdin cannot be combined with other inputs"
  else return (stem path, ← decodeRaw path (← readInput sources path))

def loadTree : List String → Except String SyntaxTree
  | [path] => do
    let raw ← decodeRaw path (← readInput sources path)
    during ("cannot decode " ++ path) (SyntaxTree.ofModule raw)
  | paths => do
    during "cannot assemble program" (SyntaxTree.ofModules (← paths.mapM (loadModule sources)))

end Loading

section Printing

def lines (ls : List String) : String := String.join (ls.map (· ++ "\n"))

def stateText (u : UnitReport) : String :=
  if u.failed then "failed"
  else match u.status with
    | some .converged => toString u.visits ++ " visits"
    | some .unconverged => "Unconverged after " ++ toString u.visits ++ " visits"
    | some .timeout => "Timeout after " ++ toString u.visits ++ " visits"
    | none => "not solved"

def expressionLine (e : ExpressionReport) : String :=
  "    " ++ e.span.render ++ " " ++ e.kind ++ ": " ++ e.type

def unitLines (expressions : Bool) (u : UnitReport) : List String :=
  [u.kind.word ++ " " ++ u.name ++ " (" ++ stateText u ++ ")"]
  ++ u.bindings.map (fun (name, type) => "  " ++ name ++ ": " ++ type)
  ++ (u.returns.map fun type => "  -> " ++ type).toList
  ++ (if expressions then u.expressions.map expressionLine else [])

def diagnosticLines (ds : List Diagnostic) : List String :=
  if ds.isEmpty then [] else "diagnostics" :: ds.map fun d => "  " ++ d.render

def statusLine (r : Report) : String :=
  if r.converged then "converged after " ++ toString r.rounds ++ " round(s)"
  else "stopped after " ++ toString r.rounds ++ " round(s) without converging"

def humanText (expressions : Bool) (r : Report) : String :=
  lines (r.units.flatMap (unitLines expressions) ++ diagnosticLines r.diagnostics ++ [statusLine r])

def graphText (policy : UnsupportedPolicy) (u : UnitInfo) : String :=
  u.name ++ "\n" ++ match FlowGraph.ofUnit policy u with
    | .ok g => g.render
    | .error fault => "  " ++ (Diagnostic.ofFault fault).render ++ "\n"

end Printing

section Commands

variable (sources : Sources)

def analyze (request : AnalyzeRequest) : Except String Response := do
  let settings := request.override (← loadSettings sources request.config)
  let tree ← loadTree sources request.inputs
  let analysis ← expect "the analysis does not end"
    (← during "cannot analyse program" (ProgramAnalysis.run tree settings))
  let report := Report.ofAnalysis analysis
  return {
    status := if request.strict && analysis.hasErrors then 2 else 0
    output := match request.format.getD .human with
      | .human => humanText request.expressions report
      | .json => report.toJson.pretty 0 ++ "\n" }

def graphs (request : GraphRequest) : Except String Response := do
  let program := Program.ofTree (← loadTree sources request.inputs) {}
  let units := program.units.toList.filter fun u => request.unit.all (· == u.name)
  match units, request.unit with
  | [], some name => .error ("no unit named `" ++ name ++ "`")
  | units, _ => return { output := String.join (units.map (graphText program.settings.unsupported)) }

end Commands

def versionText : String := "typeflow 0.4.0\n"

def helpText : String :=
  lines ["Flow-sensitive type inference for Python-shaped syntax trees", "",
    "Usage: typeflow [OPTIONS] <COMMAND>", "", "Commands:",
    "  analyze  Infer types for a syntax tree, or for several modules analysed together",
    "  cfg      Print the control flow graph of each unit",
    "  config   Print the default configuration as TOML"]

def respond (sources : Sources) (args : List String) : Response :=
  match parse? args with
  | none => .usage
  | some (.analyze request) => .ofExcept (analyze sources request)
  | some (.graphs request) => .ofExcept (graphs sources request)
  | some .settings => { output := Settings.toToml {} }
  | some .version => { output := versionText }
  | some .help => { output := helpText }

def filesOf (args : List String) : List String :=
  match parse? args with
  | some (.analyze r) => r.config.toList ++ r.inputs.filter (· != "-")
  | some (.graphs r) => r.inputs.filter (· != "-")
  | _ => []

def readsInput (args : List String) : Bool :=
  match parse? args with
  | some (.analyze r) => r.inputs == ["-"]
  | some (.graphs r) => r.inputs == ["-"]
  | _ => false

end PointsTo.CommandLine

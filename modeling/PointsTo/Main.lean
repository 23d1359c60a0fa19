import PointsTo.CommandLine.Response

/-! # The program

Reads the files that the command line names and prints the response to it. -/

namespace PointsTo

def readFile? (path : String) : IO (Option String) := do
  try return some (← IO.FS.readFile path) catch _ => return none

def readInput? : IO (Option String) := do
  try return String.fromUTF8? (← (← IO.getStdin).readBinToEnd) catch _ => return none

end PointsTo

open PointsTo in
def main (args : List String) : IO UInt32 := do
  let files ← (CommandLine.filesOf args).mapM fun path => return (path, ← readFile? path)
  let input ← if CommandLine.readsInput args then readInput? else pure none
  let sources : CommandLine.Sources :=
    ⟨fun path => (files.find? (·.1 == path)).bind (·.2), input⟩
  let response := CommandLine.respond sources args
  IO.print response.output
  match response.message with
  | some text => IO.eprintln ("Error: " ++ text)
  | none => pure ()
  return response.status.toUInt32

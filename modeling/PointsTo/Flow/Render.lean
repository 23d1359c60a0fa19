import PointsTo.Flow.Graph

/-! # Flow graphs as text -/

namespace PointsTo

def Node.describe (n : Node) : String := n.kind.word ++ " @" ++ n.span.render

def Step.render : Step → String
  | .parameters n => "params " ++ n.describe
  | .exec n => "exec " ++ n.describe
  | .eval n => "eval " ++ n.describe
  | .bind into value => "bind " ++ into.describe ++ " <- " ++ value.describe
  | .test n => "test " ++ n.describe
  | .iterate target iterable => "iterate " ++ target.describe ++ " in " ++ iterable.describe
  | .handle n => "catch " ++ n.describe
  | .enter n => "enter " ++ n.describe
  | .returnNone => "return None"

namespace FlowGraph

def blockName (id : BlockId) : String := "bb" ++ toString id

def role (g : FlowGraph) (id : BlockId) : String :=
  if id == g.entry then " (entry)"
  else if id == g.exit then " (exit)"
  else if id == g.raiseExit then " (raise exit)"
  else ""

def renderBlock (g : FlowGraph) (b : Block) : List String :=
  [blockName b.id ++ g.role b.id ++ (if b.unreachable then " [unreachable]" else "") ++ " depth="
    ++ toString b.loopDepth]
  ++ b.steps.map (fun s => "    " ++ s.render)
  ++ b.successors.map fun e => "    -> " ++ blockName e.target ++ " (" ++ e.kind.name ++ ")"

def render (g : FlowGraph) : String :=
  String.join ((g.blocks.toList.flatMap g.renderBlock).map (· ++ "\n"))

end FlowGraph
end PointsTo
